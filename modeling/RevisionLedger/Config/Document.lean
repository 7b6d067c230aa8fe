import RevisionLedger.Config.Validity
import RevisionLedger.Toml.Document
import RevisionLedger.Toml.Shape

/-!
# Configurations in TOML

A configuration is a document with a table for each of its sections. Every section and every field
may be left out.
-/

namespace RevisionLedger

open Toml (Value)

def Transmitter.fields : List (Toml.Field Transmitter) :=
  [.of "max_attempts" Value.uint32? fun n => ({ · with policy.maxAttempts := n }),
   .of "update_delay_threshold_ms" Value.uint64? fun n => ({ · with policy.thresholdMs := n }),
   .of "hash_index" Value.string? fun name => ({ · with hashIndex := name }),
   .of "jitter_seed" Value.uint64? fun seed => ({ · with policy.seed := some seed })]

def Summarizer.fields : List (Toml.Field Summarizer) :=
  [.of "collection_window_secs" Value.uint64? fun n => ({ · with windowSecs := n }),
   .of "metric_scale" (Value.map? Value.binary64?) fun scale => ({ · with scale := scale })]

def StoreChoice.fields : List (Toml.Field StoreChoice) :=
  [.of "type" (Value.choice? StoreKind.choices) fun kind => ({ · with kind := kind }),
   .of "path" Value.string? fun path => ({ · with path := some path }),
   .of "busy_timeout_ms" Value.uint64? fun n => ({ · with busyTimeoutMs := n }),
   .of "journal_mode" (Value.choice? JournalMode.choices) fun mode =>
     ({ · with journalMode := mode }),
   .of "sync_mode" (Value.choice? SyncMode.choices) fun mode => ({ · with syncMode := mode })]

def AuditChoice.fields : List (Toml.Field AuditChoice) :=
  [.of "sink" (Value.choice? AuditTarget.choices) fun target => ({ · with target := target }),
   .of "path" Value.string? fun path => ({ · with path := some path })]

def Bounds.fields : List (Toml.Field Bounds) :=
  [.of "error_bound" Value.binary64? fun x => ({ · with errorBound := x }),
   .of "rates" (Value.map? (Value.map? (Value.map? Value.binary64?))) fun rates =>
     ({ · with rates := rates })]

namespace Config

/-- The sections. -/
def fields : List (Toml.Field Config) :=
  [.of "transmitter" (Toml.structure? Transmitter.fields { policy := {} }) fun x =>
     ({ · with transmitter := x }),
   .of "summary" (Toml.structure? Summarizer.fields {}) fun x => ({ · with summarizer := x }),
   .of "store" (Toml.structure? StoreChoice.fields {}) fun x => ({ · with store := x }),
   .of "audit" (Toml.structure? AuditChoice.fields {}) fun x => ({ · with audit := x }),
   .of "bounds" (Toml.structure? Bounds.fields default) fun x => ({ · with bounds := x })]

/-- The configuration of a text, valid or not. -/
def parse (text : String) : Except ConfigError Config :=
  match Toml.document? text >>= Toml.fill? fields {} with
  | some config => .ok config
  | none => .error .parse

/-- The valid configuration of a text. -/
def ofText (text : String) : Except ConfigError Config := do
  let config ← parse text
  config.validate
  return config

end Config

end RevisionLedger
