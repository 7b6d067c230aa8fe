import Mathlib.Data.List.TakeWhile
import Mathlib.Data.Option.Basic
import Mathlib.Order.Basic
import RevisionLedger.Config.Load
import RevisionLedger.Proofs.Store.Opening

/-!
# The paths of a configuration

The check of a configuration looks at its paths without the blanks at their ends, and what is opened
is the path as it is given. A slash is no blank, so the blanks lengthen the first name of the path
and the last one, and no others (`Limited.of_trim`). That is by how much the path of a log or a store
can miss the limits that the check is for, and the only way in which it can miss them
(`path_limits`).
-/

namespace RevisionLedger

/-! ## 1. Blanks at the ends -/

namespace Text

/-- How many bytes a text loses with the blanks at its ends. -/
def endBlanks (text : String) : ℕ := text.utf8ByteSize - (trim text).utf8ByteSize

theorem exists_trim (text : String) : ∃ front back, (∀ c ∈ front, isBlank c) ∧
    (∀ c ∈ back, isBlank c) ∧ text.toList = front ++ ((trim text).toList ++ back) := by
  let rest := text.toList.dropWhile isBlank
  refine ⟨text.toList.takeWhile isBlank, (rest.reverse.takeWhile isBlank).reverse,
    fun c hc => List.mem_takeWhile_imp hc,
    fun c hc => List.mem_takeWhile_imp (List.mem_reverse.1 hc), ?_⟩
  calc text.toList
    _ = text.toList.takeWhile isBlank ++ rest := List.takeWhile_append_dropWhile.symm
    _ = text.toList.takeWhile isBlank ++
        (rest.reverse.takeWhile isBlank ++ rest.reverse.dropWhile isBlank).reverse := by
      rw [List.takeWhile_append_dropWhile (l := rest.reverse), List.reverse_reverse]
    _ = text.toList.takeWhile isBlank ++
        ((trim text).toList ++ (rest.reverse.takeWhile isBlank).reverse) := by
      rw [List.reverse_append, trim, String.toList_ofList]

end Text

/-! ## 2. The names of a path -/

namespace Path

/-- What has no slash goes before the first name. -/
theorem splitSlashes_append_left {front : List Char} (h : '/' ∉ front) (rest : List Char) :
    splitSlashes (front ++ rest) = (splitSlashes rest).modifyHead (front ++ ·) := by
  induction front with
  | nil => exact (congrFun List.modifyHead_id (splitSlashes rest)).symm
  | cons c front ih =>
    rw [List.mem_cons, not_or] at h
    rw [List.cons_append, splitSlashes, if_neg fun heq => h.1 heq.symm, ih h.2]
    cases hrest : splitSlashes rest with
    | nil => exact absurd hrest (splitSlashes_ne_nil rest)
    | cons first others => rfl

/-- What has no slash goes behind the last name. -/
theorem splitSlashes_append_right (text : List Char) {back : List Char} (h : '/' ∉ back) :
    ∃ names last, splitSlashes text = names ++ [last] ∧
      splitSlashes (text ++ back) = names ++ [last ++ back] := by
  induction text with
  | nil =>
    refine ⟨[], [], rfl, ?_⟩
    have hback := splitSlashes_append_left h []
    rw [List.append_nil] at hback
    rw [List.nil_append, hback]
    exact congrArg (fun name => [name]) (List.append_nil back)
  | cons c text ih =>
    obtain ⟨names, last, htext, happend⟩ := ih
    rw [List.cons_append, splitSlashes, splitSlashes, htext, happend]
    by_cases hc : c = '/'
    · rw [if_pos hc, if_pos hc]
      exact ⟨[] :: names, last, rfl, rfl⟩
    · rw [if_neg hc, if_neg hc]
      cases names with
      | nil => exact ⟨[], c :: last, rfl, rfl⟩
      | cons first names => exact ⟨(c :: first) :: names, last, rfl, rfl⟩

/-- How many bytes a text of some characters has. -/
def size (chars : List Char) : ℕ := (String.ofList chars).utf8ByteSize

theorem size_append (a b : List Char) : size (a ++ b) = size a + size b := by
  rw [size, String.ofList_append, String.utf8ByteSize_append]
  rfl

theorem size_le_of_mem_splitSlashes {front text back : List Char} (hfront : '/' ∉ front)
    (hback : '/' ∉ back) {bound : ℕ} (h : ∀ name ∈ splitSlashes text, size name ≤ bound) :
    ∀ name ∈ splitSlashes (front ++ (text ++ back)),
      size name ≤ bound + (size front + size back) := by
  obtain ⟨names, last, htext, happend⟩ := splitSlashes_append_right text hback
  -- First what stands behind, then what stands in front: both may go to one name.
  have hlast : ∀ name ∈ splitSlashes (text ++ back), size name ≤ bound + size back := by
    rw [htext] at h
    rw [happend]
    intro name hname
    rcases List.mem_append.1 hname with hname | hname
    · exact (h name (List.mem_append_left _ hname)).trans (Nat.le_add_right _ _)
    · rw [List.mem_singleton.1 hname, size_append]
      exact Nat.add_le_add_right (h last (List.mem_append_right _ List.mem_cons_self)) _
  rw [splitSlashes_append_left hfront]
  intro name hname
  rcases hsplit : splitSlashes (text ++ back) with _ | ⟨first, others⟩ <;>
    rw [hsplit] at hname hlast
  · cases hname
  · rcases List.mem_cons.1 hname with rfl | hname
    · have hfirst := hlast first List.mem_cons_self
      rw [size_append]
      omega
    · have hother := hlast name (List.mem_cons_of_mem _ hname)
      omega

/-! ## 3. Limits -/

/-- A path keeps to the limits, but that it and each of its names may have some bytes more. -/
structure Limited (path : String) (excess : ℕ) : Prop where
  nonempty : path ≠ ""
  length : path.utf8ByteSize ≤ maxLength + excess
  names : ∀ name ∈ components path, name.utf8ByteSize ≤ maxNameLength + excess

/-- The names that lead nowhere are no longer than those that lead somewhere may be. -/
theorem size_le_of_components {path : String} {excess : ℕ}
    (h : ∀ name ∈ components path, name.utf8ByteSize ≤ maxNameLength + excess) :
    ∀ name ∈ splitSlashes path.toList, size name ≤ maxNameLength + excess := by
  intro name hname
  have hmem : String.ofList name ∈ steps path := List.mem_map_of_mem hname
  by_cases hleads : String.ofList name != "" && String.ofList name != "."
  · exact h _ (List.mem_filter.2 ⟨hmem, hleads⟩)
  · -- A name that leads nowhere is empty or a dot.
    have hshort : String.ofList name = "" ∨ String.ofList name = "." := by
      by_contra hnot
      rw [not_or] at hnot
      rw [Bool.and_eq_true, bne_iff_ne, bne_iff_ne] at hleads
      exact hleads hnot
    have hle : size name ≤ 1 := by
      rw [size]
      rcases hshort with heq | heq <;> rw [heq] <;> decide
    exact hle.trans (Nat.le_add_right_of_le (by decide))

/-- Blanks at the ends of a path count for its first and its last name. -/
theorem Limited.of_trim {path : String} (h : Limited (Text.trim path) 0) :
    Limited path (Text.endBlanks path) := by
  obtain ⟨front, back, hfront, hback, hpath⟩ := Text.exists_trim path
  have hslash {chars : List Char} (hblank : ∀ c ∈ chars, Text.isBlank c) : '/' ∉ chars :=
    fun hmem => absurd (hblank _ hmem) (by decide)
  have hsize : path.utf8ByteSize = size front + ((Text.trim path).utf8ByteSize + size back) := by
    have hofList := congrArg size hpath
    have hself (text : String) : size text.toList = text.utf8ByteSize := by
      rw [size, String.ofList_toList]
    rwa [size_append, size_append, hself, hself] at hofList
  have hexcess : Text.endBlanks path = size front + size back := by
    rw [Text.endBlanks, hsize]
    omega
  refine ⟨?_, ?_, fun name hname => ?_⟩
  · rintro rfl
    exact h.nonempty rfl
  · have hlength := h.length
    omega
  · -- All names count, for blanks make a name that leads somewhere of an empty one.
    have hstep := (List.mem_filter.1 hname).1
    obtain ⟨chars, hchars, rfl⟩ := List.mem_map.1 hstep
    rw [hpath] at hchars
    rw [hexcess]
    exact size_le_of_mem_splitSlashes (hslash hfront) (hslash hback)
      (size_le_of_components h.names) chars hchars

end Path

theorem pathFlaw?_eq_none_iff {path : String} :
    pathFlaw? path = none ↔ Path.Limited (Text.trim path) 0 := by
  fun_cases pathFlaw? path with
  | case1 _ hempty => exact iff_of_false nofun fun h => h.nonempty hempty
  | case2 _ _ hlong =>
    exact iff_of_false nofun fun h => Nat.not_lt_of_le h.length (Path.isLong_iff.1 hlong)
  | case3 _ _ _ hname =>
    obtain ⟨name, hmem, hlt⟩ := Path.hasLongName_iff.1 hname
    exact iff_of_false nofun fun h => Nat.not_lt_of_le (h.names name hmem) hlt
  | case4 _ hempty hlong hname =>
    rw [Path.isLong_iff, Nat.not_lt] at hlong
    refine iff_of_true rfl ⟨hempty, hlong, fun name hmem => Nat.le_of_not_lt fun hlt => ?_⟩
    exact hname (Path.hasLongName_iff.2 ⟨name, hmem, hlt⟩)

theorem limited_of_pathFlaw? {path : String} {inSection : PathFlaw → ConfigFlaw}
    (h : (pathFlaw? path).map inSection = none) :
    Path.Limited (Text.trim path) 0 ∧ Path.Limited path (Text.endBlanks path) := by
  have hlimited := pathFlaw?_eq_none_iff.1 (Option.map_eq_none_iff.1 h)
  exact ⟨hlimited, hlimited.of_trim⟩

/-! ## 4. Valid configurations -/

namespace StoreChoice

variable {choice : StoreChoice} {path : String}

/-- A durable store is opened at the path that is given, with the blanks at its ends. -/
theorem openStore_durable (hkind : choice.kind = .durable) (hpath : choice.path = some path)
    (files : Files) : (choice.openStore.run files).1 =
      (((choice.options path).openStore.run files).1.map OpenStore.durable).mapError .store := by
  unfold openStore
  rw [hkind, hpath]
  rfl

theorem openStore_eq_invalid_iff (hkind : choice.kind = .durable) (hpath : choice.path = some path)
    {files : Files} {detail : String} :
    (choice.openStore.run files).1 = .error (.store (.invalid detail)) ↔
      StoreOptions.pathError? files path = some (.invalid detail) := by
  have hopened : ((choice.options path).openStore.run files).1 = .error (.invalid detail) ↔
      StoreOptions.pathError? files path = some (.invalid detail) :=
    StoreOptions.openStore_eq_invalid_iff
  rw [openStore_durable hkind hpath, ← hopened]
  rcases ((choice.options path).openStore.run files).1 with error | database
  · exact ⟨fun h => by cases h; rfl, fun h => by cases h; rfl⟩
  · exact ⟨nofun, nofun⟩

/-- What the check of a durable store ensures for its path. -/
theorem exists_limited_path (h : choice.flaw? = none) (hkind : choice.kind = .durable) :
    ∃ path, choice.path = some path ∧ Path.Limited (Text.trim path) 0 ∧
      Path.Limited path (Text.endBlanks path) := by
  unfold flaw? at h
  cases hpath : choice.path with
  | none =>
    rw [hkind, hpath] at h
    cases h
  | some path =>
    rw [hkind, hpath] at h
    exact ⟨path, rfl, limited_of_pathFlaw? h⟩

end StoreChoice

/-- What the check of an audit log in a file ensures for its path. -/
theorem AuditChoice.exists_limited_path {choice : AuditChoice} (h : choice.flaw? = none)
    (htarget : choice.target = .file) :
    ∃ path, choice.path = some path ∧ Path.Limited (Text.trim path) 0 ∧
      Path.Limited path (Text.endBlanks path) := by
  unfold flaw? at h
  cases hpath : choice.path with
  | none =>
    rw [htarget, hpath] at h
    cases h
  | some path =>
    rw [htarget, hpath] at h
    exact ⟨path, rfl, limited_of_pathFlaw? h⟩

namespace Config

variable {config : Config}

/-- A configuration is valid if none of its sections has a flaw. -/
theorem validate_eq_ok_iff : config.validate = .ok () ↔
    config.transmitter.flaw? = none ∧ config.summarizer.flaw? = none ∧
      config.store.flaw? = none ∧ config.audit.flaw? = none ∧ config.bounds.flaw? = none := by
  have hflaw : config.validate = .ok () ↔ config.flaw? = none := by
    unfold validate
    split
    · rename_i hsome
      rw [hsome]
      exact ⟨nofun, nofun⟩
    · rename_i hnone
      exact ⟨fun _ => hnone, fun _ => rfl⟩
  rw [hflaw]
  simp only [flaw?, Option.orElse_eq_none]

/-- The audit log and the durable store of a valid configuration are opened at the paths that it
gives. Without the blanks at their ends they keep to the limits, and as they are they exceed them by
no more than these blanks. No store is refused for an empty path, and one is refused for a length
exactly if its path, as it is, exceeds a limit. -/
theorem path_limits (h : config.validate = .ok ()) :
    (config.audit.target = .file → ∃ path, config.audit.path = some path ∧
      config.audit.openLog = some <$> Files.openLog .io path ∧
      Path.Limited (Text.trim path) 0 ∧ Path.Limited path (Text.endBlanks path)) ∧
    (config.store.kind = .durable → ∃ path, config.store.path = some path ∧
      Path.Limited (Text.trim path) 0 ∧ Path.Limited path (Text.endBlanks path) ∧
      ∀ files,
        let opened := (config.store.openStore.run files).1
        opened = (((config.store.options path).openStore.run files).1.map
          OpenStore.durable).mapError .store ∧
        opened ≠ .error (.store (.invalid "store path must not be empty")) ∧
        (opened = .error (.store (.invalid "store path exceeds length limit")) ↔
          Path.maxLength < path.utf8ByteSize) ∧
        (opened = .error (.store (.invalid "store path contains an overlong component")) ↔
          path.utf8ByteSize ≤ Path.maxLength ∧
            ∃ name ∈ Path.components path, Path.maxNameLength < name.utf8ByteSize)) := by
  obtain ⟨-, -, hstore, haudit, -⟩ := validate_eq_ok_iff.1 h
  constructor
  · intro htarget
    obtain ⟨path, hpath, hlimited⟩ := AuditChoice.exists_limited_path haudit htarget
    refine ⟨path, hpath, ?_, hlimited⟩
    unfold AuditChoice.openLog
    rw [htarget, hpath]
  · intro hkind
    obtain ⟨path, hpath, htrimmed, hlimited⟩ := StoreChoice.exists_limited_path hstore hkind
    refine ⟨path, hpath, htrimmed, hlimited, fun files => ?_⟩
    simp only [StoreChoice.openStore_eq_invalid_iff hkind hpath, ne_eq]
    exact ⟨StoreChoice.openStore_durable hkind hpath files,
      fun hempty => hlimited.nonempty (StoreOptions.pathError?_eq_empty_iff.1 hempty),
      StoreOptions.pathError?_eq_length_iff hlimited.nonempty,
      StoreOptions.pathError?_eq_name_iff hlimited.nonempty⟩

/-- A path of one name with blanks behind it. -/
def paddedPath (blanks : ℕ) : String := String.ofList (['d', 'b'] ++ List.replicate blanks ' ')

/-- A durable store at such a path. -/
def paddedStore (blanks : ℕ) : Config :=
  { store := { kind := .durable, path := some (paddedPath blanks) } }

theorem trim_paddedPath (blanks : ℕ) : Text.trim (paddedPath blanks) = "db" := by
  have hfront : (['d', 'b'] ++ List.replicate blanks ' ').dropWhile Text.isBlank =
      ['d', 'b'] ++ List.replicate blanks ' ' := rfl
  have hback : (List.replicate blanks ' ' ++ ['b', 'd']).dropWhile Text.isBlank = ['b', 'd'] := by
    rw [List.dropWhile_append_of_pos fun c hc => by rw [List.eq_of_mem_replicate hc]; rfl]
    rfl
  rw [Text.trim, paddedPath, String.toList_ofList, hfront, List.reverse_append,
    List.reverse_replicate]
  exact congrArg (fun chars => String.ofList chars.reverse) hback

theorem utf8ByteSize_paddedPath (blanks : ℕ) : (paddedPath blanks).utf8ByteSize = 2 + blanks := by
  have hblanks : Path.size (List.replicate blanks ' ') = blanks := by
    induction blanks with
    | zero => rfl
    | succ blanks ih =>
      have hone : Path.size [' '] = 1 := rfl
      rw [List.replicate_succ', Path.size_append, ih, hone]
  have hname : Path.size ['d', 'b'] = 2 := rfl
  rw [paddedPath, ← Path.size, Path.size_append, hname, hblanks]

theorem components_paddedPath (blanks : ℕ) :
    Path.components (paddedPath blanks) = [paddedPath blanks] := by
  have hslash : '/' ∉ ['d', 'b'] ++ List.replicate blanks ' ' := by
    rw [List.mem_append, not_or]
    exact ⟨by decide, fun hmem => absurd (List.eq_of_mem_replicate hmem) (by decide)⟩
  have hsteps : Path.steps (paddedPath blanks) = [paddedPath blanks] := by
    have hsplit := Path.splitSlashes_append_left hslash []
    rw [List.append_nil] at hsplit
    rw [Path.steps, paddedPath, String.toList_ofList, hsplit]
    simp [Path.splitSlashes]
  -- The name is longer than those that lead nowhere.
  have hne {short : String} (hshort : short.utf8ByteSize < 2) : paddedPath blanks ≠ short := by
    rintro rfl
    rw [utf8ByteSize_paddedPath] at hshort
    omega
  have hempty : paddedPath blanks ≠ "" := hne (by decide)
  have hdot : paddedPath blanks ≠ "." := hne (by decide)
  rw [Path.components, hsteps]
  simp [hempty, hdot]

/-- However many blanks there are, the configuration is valid. -/
theorem validate_paddedStore (blanks : ℕ) : (paddedStore blanks).validate = .ok () := by
  have hlimited : Path.Limited (Text.trim (paddedPath blanks)) 0 := by
    rw [trim_paddedPath]
    exact ⟨by decide, by decide, by decide +kernel⟩
  have hstore : (paddedStore blanks).store.flaw? = none := by
    show (pathFlaw? (paddedPath blanks)).map ConfigFlaw.storePath = none
    rw [pathFlaw?_eq_none_iff.2 hlimited]
    rfl
  -- The other sections are those of the default configuration.
  have hdefault : ({} : Config).validate = .ok () := by decide +kernel
  obtain ⟨htransmitter, hsummarizer, -, haudit, hbounds⟩ := validate_eq_ok_iff.1 hdefault
  exact validate_eq_ok_iff.2 ⟨htransmitter, hsummarizer, hstore, haudit, hbounds⟩

/-- The path of a valid configuration is too long by no more than the blanks behind it. -/
theorem path_limits_padded : (paddedStore 254).validate = .ok () ∧
    ∃ path, (paddedStore 254).store.path = some path ∧ Path.Limited (Text.trim path) 0 ∧
      Path.Limited path (Text.endBlanks path) := by
  have hvalid := validate_paddedStore 254
  obtain ⟨path, hpath, htrimmed, hlimited, -⟩ := (path_limits hvalid).2 rfl
  exact ⟨hvalid, path, hpath, htrimmed, hlimited⟩

/-- The store that a valid configuration asks for is not opened, for a name in its path is too
long. -/
theorem valid_path_refused : (paddedStore 254).validate = .ok () ∧
    ((paddedStore 254).store.openStore.run .fresh).1 =
      .error (.store (.invalid "store path contains an overlong component")) := by
  have hsize := utf8ByteSize_paddedPath 254
  have hempty : paddedPath 254 ≠ "" := by
    intro h
    rw [h] at hsize
    cases hsize
  have hlength : (paddedPath 254).utf8ByteSize ≤ Path.maxLength := by
    rw [hsize]
    decide
  have hname : Path.maxNameLength < (paddedPath 254).utf8ByteSize := by
    rw [hsize]
    decide
  have hmem : paddedPath 254 ∈ Path.components (paddedPath 254) := by
    rw [components_paddedPath]
    exact List.mem_singleton_self _
  have hpath : (paddedStore 254).store.path = some (paddedPath 254) := rfl
  exact ⟨validate_paddedStore 254, (StoreChoice.openStore_eq_invalid_iff rfl hpath).2
    ((StoreOptions.pathError?_eq_name_iff hempty).2 ⟨hlength, _, hmem, hname⟩)⟩

end Config

end RevisionLedger
