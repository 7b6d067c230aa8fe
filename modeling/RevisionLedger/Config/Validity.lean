import RevisionLedger.Config.Basic
import RevisionLedger.Files.Path
import RevisionLedger.Text.Blank

/-!
# Valid configurations

A configuration is valid when it has no flaw. Of several flaws the first one counts, in the order of
the sections of a configuration and of the checks within each of them.
-/

namespace RevisionLedger

inductive PathFlaw
  | empty
  | tooLong
  | longName
deriving DecidableEq, Repr

inductive ConfigFlaw
  | attempts
  | delayThreshold
  | hashIndex
  | window
  | scale (metric : String)
  | memoryStoreWithPath
  | durableStoreWithoutPath
  | storePath (flaw : PathFlaw)
  | fileAuditWithoutPath
  | auditPath (flaw : PathFlaw)
  | auditPathWithoutFile
  | errorBound
  | bound (rate plugin metric : String)
  /-- The path of the configuration itself is too long. -/
  | ownPath
  /-- A name in the path of the configuration itself is too long. -/
  | ownPathName
  /-- The file of the configuration is too long. -/
  | fileSize
  /-- The file of the configuration is no text. -/
  | encoding
deriving DecidableEq, Repr

/-- The greatest number of update attempts. -/
def Config.maxAttempts : Nat := 100

/-- The greatest threshold of pauses, in milliseconds. -/
def Config.maxThresholdMs : Nat := 600000

def PathFlaw.message (field : String) : PathFlaw → String
  | .empty => s!"{field} must be non-empty"
  | .tooLong => s!"{field} exceeds max length"
  | .longName => s!"{field} path component too long"

def ConfigFlaw.message : ConfigFlaw → String
  | .attempts => s!"transmitter.max_attempts must be between 1 and {Config.maxAttempts}"
  | .delayThreshold => s!"transmitter.update_delay_threshold_ms exceeds {Config.maxThresholdMs}"
  | .hashIndex => "transmitter.hash_index must be non-empty"
  | .window => "summary.collection_window_secs must be greater than zero"
  | .scale metric => s!"summary.metric_scale.{metric} must be a positive finite number"
  | .memoryStoreWithPath => "memory store must not set path"
  | .durableStoreWithoutPath => "sqlite store requires path"
  | .storePath flaw => flaw.message "store.path"
  | .fileAuditWithoutPath => "file audit sink requires path"
  | .auditPath flaw => flaw.message "audit.path"
  | .auditPathWithoutFile => "audit.path is only valid for the file sink"
  | .errorBound => "bounds.error_bound must be a non-negative finite number"
  | .bound rate plugin metric =>
    s!"bounds.rates.{rate}.{plugin}.{metric} must be a non-negative finite number"
  | .ownPath => "config path exceeds max length"
  | .ownPathName => "config path component too long"
  | .fileSize => "config file exceeds size limit"
  | .encoding => "config file must be utf-8"

/-- Why a configuration cannot be had or used. -/
inductive ConfigError
  | io
  /-- A text is no configuration. -/
  | parse
  | invalid (flaw : ConfigFlaw)
  | store (error : DatabaseError)
deriving DecidableEq, Repr

def ConfigError.message : ConfigError → String
  | .io => s!"config io error: {DatabaseError.engineDetail}"
  | .parse => s!"config parse error: {DatabaseError.engineDetail}"
  | .invalid flaw => s!"invalid config: {flaw.message}"
  | .store error => s!"config store error: {error.message}"

/-! ## 1. Sections -/

/-- The flaw of a path; blanks at its ends do not count. -/
def pathFlaw? (path : String) : Option PathFlaw :=
  let path := Text.trim path
  if path = "" then some .empty
  else if Path.isLong path then some .tooLong
  else if Path.hasLongName path then some .longName
  else none

def Transmitter.flaw? (transmitter : Transmitter) : Option ConfigFlaw :=
  let policy := transmitter.policy
  if policy.maxAttempts = 0 ∨ Config.maxAttempts < policy.maxAttempts.toNat then some .attempts
  else if Config.maxThresholdMs < policy.thresholdMs.toNat then some .delayThreshold
  else if Text.isBlankText transmitter.hashIndex then some .hashIndex
  else none

def Summarizer.flaw? (summarizer : Summarizer) : Option ConfigFlaw :=
  if summarizer.windowSecs = 0 then some .window
  else summarizer.scale.toList.findSome? fun (metric, factor) =>
    if factor.isFinite && Binary64.zero.lt factor then none else some (.scale metric)

def StoreChoice.flaw? (choice : StoreChoice) : Option ConfigFlaw :=
  match choice.kind, choice.path with
  | .memory, some _ => some .memoryStoreWithPath
  | .memory, none => none
  | .durable, none => some .durableStoreWithoutPath
  | .durable, some path => (pathFlaw? path).map .storePath

def AuditChoice.flaw? (choice : AuditChoice) : Option ConfigFlaw :=
  match choice.target, choice.path with
  | .file, none => some .fileAuditWithoutPath
  | .file, some path => (pathFlaw? path).map .auditPath
  | _, some _ => some .auditPathWithoutFile
  | _, none => none

/-- Whether a double is a number of at least zero. -/
def Binary64.isLimit (x : Binary64) : Bool := x.isFinite && !x.lt .zero

def Bounds.flaw? (bounds : Bounds) : Option ConfigFlaw :=
  if !bounds.errorBound.isLimit then some .errorBound
  else bounds.rates.toList.findSome? fun (rate, plugins) =>
    plugins.toList.findSome? fun (plugin, metrics) =>
      metrics.toList.findSome? fun (metric, value) =>
        if value.isLimit then none else some (.bound rate plugin metric)

/-! ## 2. Configurations -/

namespace Config

/-- The first flaw of a configuration. -/
def flaw? (config : Config) : Option ConfigFlaw :=
  config.transmitter.flaw? <|> config.summarizer.flaw? <|> config.store.flaw? <|>
    config.audit.flaw? <|> config.bounds.flaw?

def validate (config : Config) : Except ConfigError Unit :=
  match config.flaw? with
  | some flaw => .error (.invalid flaw)
  | none => .ok ()

end Config

end RevisionLedger
