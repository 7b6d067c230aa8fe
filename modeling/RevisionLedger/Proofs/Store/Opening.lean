import RevisionLedger.Store.Open

/-!
# Why a store is not opened

A path is checked before anything is done about a store, and a path that is refused is refused for
its length, for that of a name, or for being empty or a directory. No later step of opening a store
fails in this way (`StoreOptions.openStore_eq_invalid_iff`), so each of these errors says something
about the path (`StoreOptions.pathError?_eq_length_iff`, `StoreOptions.pathError?_eq_name_iff`).
-/

namespace RevisionLedger

/-! ## 1. Errors of an action -/

/-- Every error of an action has a property. -/
def FileAction.FailsOnly {ε α : Type} (p : ε → Prop) (action : FileAction ε α) : Prop :=
  ∀ files error, (action.run files).1 = .error error → p error

namespace FileAction.FailsOnly

variable {ε α β : Type} {p : ε → Prop}

theorem pure (a : α) : FailsOnly p (Pure.pure a : FileAction ε α) := nofun

theorem get : FailsOnly p (MonadState.get : FileAction ε Files) := nofun

theorem set (files : Files) : FailsOnly p (MonadStateOf.set files : FileAction ε PUnit) := nofun

theorem throw {error : ε} (h : p error) : FailsOnly p (throw error : FileAction ε α) := by
  intro files other hother
  cases hother
  exact h

theorem imp {q : ε → Prop} {action : FileAction ε α} (h : FailsOnly p action)
    (hpq : ∀ error, p error → q error) : FailsOnly q action := fun files error herror =>
  hpq error (h files error herror)

theorem lift {result : Except ε α} (h : ∀ error, result = .error error → p error) :
    FailsOnly p (liftM result : FileAction ε α) := by
  intro files error herror
  cases result with
  | ok a => cases herror
  | error other =>
    cases herror
    exact h _ rfl

theorem bind {action : FileAction ε α} {next : α → FileAction ε β} (h : FailsOnly p action)
    (hnext : ∀ a, FailsOnly p (next a)) : FailsOnly p (action >>= next) := by
  intro files error herror
  have hbind : (action >>= next).run files =
      match action.run files with
      | (.ok a, files) => (next a).run files
      | (.error error, files) => (.error error, files) := by
    show (ExceptT.bindCont next (action.run files).1) (action.run files).2 = _
    rcases action.run files with ⟨_ | _, _⟩ <;> rfl
  rw [hbind] at herror
  split at herror
  · exact hnext _ _ _ herror
  · rename_i hrun
    cases herror
    exact h files error (congrArg Prod.fst hrun)

theorem foldlM {γ : Type} {step : α → γ → FileAction ε α} (h : ∀ a c, FailsOnly p (step a c))
    (list : List γ) (start : α) : FailsOnly p (list.foldlM step start) := by
  induction list generalizing start with
  | nil => exact pure start
  | cons c list ih => exact bind (h start c) fun a => ih a

end FileAction.FailsOnly

namespace Files

open FileAction (FailsOnly)

theorem failsOnly_enter {ε : Type} (failed : ε) (location : Location) (name : String) :
    FailsOnly (· = failed) (enter failed location name) := by
  refine FailsOnly.bind FailsOnly.get fun files => ?_
  dsimp only
  split
  · split
    · exact FailsOnly.pure _
    · exact FailsOnly.throw rfl
  · exact FailsOnly.bind (FailsOnly.set _) fun _ => FailsOnly.pure _

theorem failsOnly_makeParents {ε : Type} (failed : ε) (path : String) :
    FailsOnly (· = failed) (makeParents failed path) := by
  have hmake (start : Location) (names : List String) :
      FailsOnly (· = failed) (makeDirectories failed start names) := by
    have hfold := FailsOnly.foldlM (failsOnly_enter failed) names start
    unfold makeDirectories
    split
    · exact FailsOnly.bind (FailsOnly.throw rfl) fun _ => hfold
    · exact hfold
  refine FailsOnly.bind FailsOnly.get fun files => ?_
  exact FailsOnly.bind (hmake _ _) fun _ => FailsOnly.pure _

end Files

/-! ## 2. Opening a store -/

namespace StoreOptions

open FileAction (FailsOnly)

theorem failsOnly_atCurrentVersion (database : Database) (detail : String) :
    FailsOnly (· ≠ DatabaseError.invalid detail) (liftM database.atCurrentVersion) := by
  apply FailsOnly.lift
  unfold Database.atCurrentVersion
  intro error h
  split at h
  · cases h
  · split at h <;> cases h
    exact nofun

/-- The engine finds a database of the current version at a place, or makes it one. -/
theorem failsOnly_place (files : Files) (location : Location) (detail : String) :
    FailsOnly (· ≠ DatabaseError.invalid detail) do
      let contents ← (← contentsAt files location).atCurrentVersion
      set (files.put location (.database contents))
      return (⟨contents, some location⟩ : OpenDatabase) := by
  have hcontents : FailsOnly (· ≠ DatabaseError.invalid detail)
      (liftM (contentsAt files location)) := by
    apply FailsOnly.lift
    unfold contentsAt
    intro error h
    split at h
    · cases h
    · cases h
    · split at h <;> cases h
      exact nofun
    · cases h
      exact nofun
  exact hcontents.bind fun _ => (failsOnly_atCurrentVersion _ detail).bind fun _ =>
    (FailsOnly.set _).bind fun _ => FailsOnly.pure _

theorem run_get_bind {ε α : Type} (next : Files → FileAction ε α) (files : Files) :
    (MonadState.get >>= next).run files = (next files).run files := rfl

theorem openStore_of_pathError {options : StoreOptions} {files : Files} {error : DatabaseError}
    (h : pathError? files options.path = some error) :
    (options.openStore.run files).1 = .error error := by
  unfold openStore
  dsimp only
  rw [run_get_bind, h]
  rfl

/-- Past the check of the path, the store has no more objections of this kind. -/
theorem openStore_ne_invalid {options : StoreOptions} {files : Files}
    (h : pathError? files options.path = none) (detail : String) :
    (options.openStore.run files).1 ≠ .error (.invalid detail) := by
  unfold openStore
  dsimp only
  rw [run_get_bind, h]
  suffices hrest : FailsOnly (· ≠ DatabaseError.invalid detail) _ from
    fun hopened => hrest _ _ hopened rfl
  have hparents : FailsOnly (· ≠ DatabaseError.invalid detail)
      (Files.makeParents (.io DatabaseError.engineDetail) options.path) :=
    (Files.failsOnly_makeParents _ _).imp fun _ heq => heq ▸ nofun
  refine hparents.bind fun _ => FailsOnly.get.bind fun files => ?_
  -- A database in memory, a place that the engine refuses, and one that it takes.
  split
  · exact (failsOnly_atCurrentVersion _ detail).bind fun _ => FailsOnly.pure _
  · split
    · exact (FailsOnly.throw nofun).bind fun _ => failsOnly_place files _ detail
    · exact failsOnly_place files _ detail

/-- The errors of this kind come from the check of the path, and from nothing behind it. -/
theorem openStore_eq_invalid_iff {options : StoreOptions} {files : Files} {detail : String} :
    (options.openStore.run files).1 = .error (.invalid detail) ↔
      pathError? files options.path = some (.invalid detail) := by
  refine ⟨fun h => ?_, openStore_of_pathError⟩
  cases hpath : pathError? files options.path with
  | none => exact absurd h (openStore_ne_invalid hpath detail)
  | some error =>
    rw [openStore_of_pathError hpath] at h
    cases h
    rfl

section PathErrors

variable {files : Files} {path : String}

theorem pathError?_eq_empty_iff :
    pathError? files path = some (.invalid "store path must not be empty") ↔ path = "" := by
  fun_cases pathError? files path with
  | case1 hempty => exact iff_of_true rfl hempty
  | case2 hempty => exact iff_of_false (by decide) hempty
  | case3 hempty => exact iff_of_false (by decide) hempty
  | case4 hempty => exact iff_of_false (by decide) hempty
  | case5 hempty => exact iff_of_false nofun hempty

theorem pathError?_eq_length_iff (hpath : path ≠ "") :
    pathError? files path = some (.invalid "store path exceeds length limit") ↔
      Path.maxLength < path.utf8ByteSize := by
  rw [← Path.isLong_iff]
  fun_cases pathError? files path with
  | case1 hempty => exact absurd hempty hpath
  | case2 _ hlong => exact iff_of_true rfl hlong
  | case3 _ hlong => exact iff_of_false (by decide) hlong
  | case4 _ hlong => exact iff_of_false (by decide) hlong
  | case5 _ hlong => exact iff_of_false nofun hlong

theorem pathError?_eq_name_iff (hpath : path ≠ "") :
    pathError? files path = some (.invalid "store path contains an overlong component") ↔
      path.utf8ByteSize ≤ Path.maxLength ∧
        ∃ name ∈ Path.components path, Path.maxNameLength < name.utf8ByteSize := by
  rw [← Nat.not_lt, ← Path.isLong_iff, ← Path.hasLongName_iff]
  fun_cases pathError? files path with
  | case1 hempty => exact absurd hempty hpath
  | case2 _ hlong => exact iff_of_false (by decide) fun h => h.1 hlong
  | case3 _ hlong hname => exact iff_of_true rfl ⟨hlong, hname⟩
  | case4 _ _ hname => exact iff_of_false (by decide) fun h => hname h.2
  | case5 _ _ hname => exact iff_of_false nofun fun h => hname h.2

end PathErrors

end StoreOptions

end RevisionLedger
