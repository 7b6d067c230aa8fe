/-!
# Maps held in the order of their keys

A `SortedMap` is a list of entries whose keys ascend strictly. Two maps with the same look-ups are
equal (`SortedMap.ext_find?`), so a map has one form, and whatever lists its entries lists them in
key order.

The main statements say what each operation does to a look-up: `find?_insert`,
`find?_insertIfAbsent` and `find?_mapValues`.
-/

namespace RevisionLedger

universe u v w

/-- A finite map whose entries stand in ascending order of their keys. -/
structure SortedMap (α : Type u) (β : Type v) [Ord α] where
  /-- The entries, first the one with the least key. -/
  entries : List (α × β)
  /-- Keys ascend strictly. -/
  ascending : entries.Pairwise fun a b => compare a.1 b.1 = .lt

namespace SortedMap

variable {α : Type u} {β : Type v} {γ : Type w}

/-! ## 1. Operations on entry lists -/

/-- Sets the value of one key in an ascending entry list. -/
def insertEntry [Ord α] (key : α) (value : β) : List (α × β) → List (α × β)
  | [] => [(key, value)]
  | entry :: rest =>
    match compare key entry.1 with
    | .lt => (key, value) :: entry :: rest
    | .eq => (key, value) :: rest
    | .gt => entry :: insertEntry key value rest

/-- The value under a key: the first entry whose key compares equal. -/
def lookupEntry [Ord α] (key : α) : List (α × β) → Option β
  | [] => none
  | entry :: rest => if compare key entry.1 = .eq then some entry.2 else lookupEntry key rest

theorem mem_insertEntry [Ord α] {key : α} {value : β} {entries : List (α × β)} {entry : α × β}
    (h : entry ∈ insertEntry key value entries) : entry = (key, value) ∨ entry ∈ entries := by
  induction entries with
  | nil => simpa [insertEntry] using h
  | cons first rest ih =>
    simp only [insertEntry] at h
    split at h
    · simpa using h
    · rcases List.mem_cons.1 h with h | h
      · exact Or.inl h
      · exact Or.inr (List.mem_cons_of_mem _ h)
    · rcases List.mem_cons.1 h with h | h
      · exact Or.inr (h ▸ List.mem_cons_self)
      · exact (ih h).imp_right (List.mem_cons_of_mem _)

theorem pairwise_insertEntry [Ord α] [Std.TransOrd α] (key : α) (value : β)
    {entries : List (α × β)}
    (h : entries.Pairwise fun a b => compare a.1 b.1 = .lt) :
    (insertEntry key value entries).Pairwise fun a b => compare a.1 b.1 = .lt := by
  induction entries with
  | nil => simp [insertEntry]
  | cons first rest ih =>
    obtain ⟨hfirst, hrest⟩ := List.pairwise_cons.1 h
    simp only [insertEntry]
    split
    · rename_i hlt
      refine List.pairwise_cons.2 ⟨fun entry hentry => ?_, h⟩
      rcases List.mem_cons.1 hentry with rfl | hentry
      · exact hlt
      · exact Std.TransCmp.lt_trans hlt (hfirst entry hentry)
    · rename_i heq
      exact List.pairwise_cons.2
        ⟨fun entry hentry => Std.TransCmp.lt_of_eq_of_lt heq (hfirst entry hentry), hrest⟩
    · rename_i hgt
      refine List.pairwise_cons.2 ⟨fun entry hentry => ?_, ih hrest⟩
      rcases mem_insertEntry hentry with rfl | hentry
      · exact Std.OrientedCmp.lt_of_gt hgt
      · exact hfirst entry hentry

/-! ## 2. Operations on maps -/

section Operations

variable [Ord α]

def empty : SortedMap α β := ⟨[], List.Pairwise.nil⟩

instance : Inhabited (SortedMap α β) := ⟨empty⟩

instance [DecidableEq α] [DecidableEq β] : DecidableEq (SortedMap α β) := fun a b =>
  decidable_of_iff (a.entries = b.entries) (by cases a; cases b; simp)

def toList (map : SortedMap α β) : List (α × β) := map.entries

def keys (map : SortedMap α β) : List α := map.entries.map Prod.fst

def size (map : SortedMap α β) : Nat := map.entries.length

def isEmpty (map : SortedMap α β) : Bool := map.entries.isEmpty

def find? (map : SortedMap α β) (key : α) : Option β := lookupEntry key map.entries

def contains (map : SortedMap α β) (key : α) : Bool := (map.find? key).isSome

/-- Sets the value of a key, in place of the one it may have. -/
def insert [Std.TransOrd α] (map : SortedMap α β) (key : α) (value : β) : SortedMap α β :=
  ⟨insertEntry key value map.entries, pairwise_insertEntry key value map.ascending⟩

/-- Sets the value of a key that has none; a key that has one keeps it. -/
def insertIfAbsent [Std.TransOrd α] (map : SortedMap α β) (key : α) (value : β) : SortedMap α β :=
  if map.contains key then map else map.insert key value

/-- The map of a list of entries, in which a later entry replaces an earlier one of its key. -/
def ofList [Std.TransOrd α] (entries : List (α × β)) : SortedMap α β :=
  entries.foldl (fun map entry => map.insert entry.1 entry.2) empty

def mapValues (f : β → γ) (map : SortedMap α β) : SortedMap α γ :=
  ⟨map.entries.map fun entry => (entry.1, f entry.2),
    List.pairwise_map.2 (map.ascending.imp fun h => h)⟩

end Operations

/-! ## 3. What each operation does to a look-up -/

section Lookups

variable [Ord α] [Std.LawfulEqOrd α]

theorem lookupEntry_insertEntry (key other : α) (value : β) (entries : List (α × β)) :
    lookupEntry other (insertEntry key value entries) =
      if compare other key = .eq then some value else lookupEntry other entries := by
  induction entries with
  | nil => simp [insertEntry, lookupEntry]
  | cons first rest ih =>
    simp only [insertEntry]
    split
    · simp [lookupEntry]
    · rename_i heq
      obtain rfl : key = first.1 := Std.LawfulEqOrd.eq_of_compare heq
      by_cases h : compare other first.1 = .eq <;> simp [lookupEntry, h]
    · rename_i hgt
      by_cases h : compare other first.1 = .eq
      · have hkey : compare other key ≠ .eq := by
          intro hkey
          obtain rfl : other = key := Std.LawfulEqOrd.eq_of_compare hkey
          rw [hgt] at h
          exact absurd h (by decide)
        simp [lookupEntry, h, hkey]
      · simp [lookupEntry, h, ih]

omit [Std.LawfulEqOrd α] in
@[simp] theorem find?_empty (key : α) : (empty : SortedMap α β).find? key = none := rfl

omit [Std.LawfulEqOrd α] in
theorem contains_eq_false_iff {map : SortedMap α β} {key : α} :
    map.contains key = false ↔ map.find? key = none := by
  rw [contains, Option.isSome_eq_false_iff, Option.isNone_iff_eq_none]

/-- A set key has its new value, every other key what it had. -/
theorem find?_insert [Std.TransOrd α] (map : SortedMap α β) (key other : α) (value : β) :
    (map.insert key value).find? other =
      if compare other key = .eq then some value else map.find? other :=
  lookupEntry_insertEntry key other value map.entries

@[simp] theorem find?_insert_self [Std.TransOrd α] (map : SortedMap α β) (key : α) (value : β) :
    (map.insert key value).find? key = some value := by
  rw [find?_insert, if_pos Std.ReflCmp.compare_self]

theorem find?_insert_of_ne [Std.TransOrd α] (map : SortedMap α β) {key other : α} (value : β)
    (h : other ≠ key) : (map.insert key value).find? other = map.find? other := by
  rw [find?_insert, if_neg fun heq => h (Std.LawfulEqOrd.eq_of_compare heq)]

/-- A key that had a value keeps it. -/
theorem find?_insertIfAbsent [Std.TransOrd α] (map : SortedMap α β) (key other : α) (value : β) :
    (map.insertIfAbsent key value).find? other =
      if compare other key = .eq then some ((map.find? key).getD value) else map.find? other := by
  unfold insertIfAbsent contains
  split
  · rename_i hsome
    obtain ⟨found, hfound⟩ := Option.isSome_iff_exists.1 hsome
    split
    · rename_i heq
      obtain rfl : other = key := Std.LawfulEqOrd.eq_of_compare heq
      simp [hfound]
    · rfl
  · rename_i hnone
    rw [find?_insert, Option.not_isSome_iff_eq_none.1 hnone]
    rfl

omit [Std.LawfulEqOrd α] in
theorem lookupEntry_append (key : α) (a b : List (α × β)) :
    lookupEntry key (a ++ b) = (lookupEntry key a).or (lookupEntry key b) := by
  induction a with
  | nil => rfl
  | cons first rest ih =>
    rw [List.cons_append, lookupEntry, lookupEntry]
    split
    · rfl
    · exact ih

theorem find?_foldl_insert_reverse [Std.TransOrd α] (entries : List (α × β)) (map : SortedMap α β)
    (key : α) : (entries.foldl (fun map entry => map.insert entry.1 entry.2) map).find? key =
      (lookupEntry key entries.reverse).or (map.find? key) := by
  induction entries generalizing map with
  | nil => rfl
  | cons entry entries ih =>
    rw [List.foldl_cons, ih, find?_insert, List.reverse_cons, lookupEntry_append, Option.or_assoc,
      lookupEntry]
    split <;> rfl

/-- Of the entries of a key the last one is found. -/
theorem find?_ofList [Std.TransOrd α] (entries : List (α × β)) (key : α) :
    (ofList entries).find? key = lookupEntry key entries.reverse := by
  rw [ofList, find?_foldl_insert_reverse, find?_empty, Option.or_none]

omit [Std.LawfulEqOrd α] in
theorem lookupEntry_map (f : β → γ) (key : α) (entries : List (α × β)) :
    lookupEntry key (entries.map fun entry => (entry.1, f entry.2)) =
      (lookupEntry key entries).map f := by
  induction entries with
  | nil => rfl
  | cons first rest ih =>
    rw [List.map_cons, lookupEntry, lookupEntry]
    split
    · rfl
    · exact ih

omit [Std.LawfulEqOrd α] in
/-- A key has the image of what it had. -/
theorem find?_mapValues (f : β → γ) (map : SortedMap α β) (key : α) :
    (map.mapValues f).find? key = (map.find? key).map f :=
  lookupEntry_map f key map.entries

theorem lookupEntry_eq_some_iff_of_nodup {entries : List (α × β)}
    (h : (entries.map Prod.fst).Nodup) {key : α} {value : β} :
    lookupEntry key entries = some value ↔ (key, value) ∈ entries := by
  induction entries with
  | nil => simp [lookupEntry]
  | cons first rest ih =>
    obtain ⟨hfirst, hrest⟩ := List.nodup_cons.1 h
    by_cases hkey : compare key first.1 = .eq
    · obtain rfl : key = first.1 := Std.LawfulEqOrd.eq_of_compare hkey
      have hnot : (first.1, value) ∉ rest := fun hmem =>
        hfirst (List.mem_map.2 ⟨_, hmem, rfl⟩)
      simp only [lookupEntry, hkey, if_true, List.mem_cons, hnot, or_false, Option.some.injEq]
      exact ⟨fun h => by rw [← h], fun h => by rw [← h]⟩
    · have hne : (key, value) ≠ first := fun heq =>
        hkey (by rw [← heq]; exact Std.ReflCmp.compare_self)
      simp [lookupEntry, hkey, ih hrest, hne]

theorem nodup_of_ascending {entries : List (α × β)}
    (h : entries.Pairwise fun a b => compare a.1 b.1 = .lt) : (entries.map Prod.fst).Nodup :=
  List.pairwise_map.2 (h.imp fun hlt heq => by
    rw [heq] at hlt
    exact absurd (hlt.symm.trans Std.ReflCmp.compare_self) (by decide))

theorem lookupEntry_eq_some_iff {entries : List (α × β)}
    (h : entries.Pairwise fun a b => compare a.1 b.1 = .lt) {key : α} {value : β} :
    lookupEntry key entries = some value ↔ (key, value) ∈ entries :=
  lookupEntry_eq_some_iff_of_nodup (nodup_of_ascending h)

/-- A look-up finds exactly the entries of the map. -/
theorem find?_eq_some_iff (map : SortedMap α β) {key : α} {value : β} :
    map.find? key = some value ↔ (key, value) ∈ map.toList :=
  lookupEntry_eq_some_iff map.ascending

/-- Ascending entry lists with the same members are the same list. -/
theorem eq_of_forall_mem_iff [Std.TransOrd α] {a b : List (α × β)}
    (ha : a.Pairwise fun x y => compare x.1 y.1 = .lt)
    (hb : b.Pairwise fun x y => compare x.1 y.1 = .lt) (h : ∀ entry, entry ∈ a ↔ entry ∈ b) :
    a = b := by
  induction a generalizing b with
  | nil =>
    exact (List.eq_nil_iff_forall_not_mem.2 fun entry hmem => by
      simpa using (h entry).2 hmem).symm
  | cons first rest ih =>
    cases b with
    | nil => exact absurd ((h first).1 List.mem_cons_self) (by simp)
    | cons first' rest' =>
      obtain ⟨hfirst, hrest⟩ := List.pairwise_cons.1 ha
      obtain ⟨hfirst', hrest'⟩ := List.pairwise_cons.1 hb
      have irrefl (x : α) : compare x x ≠ .lt := fun hlt =>
        absurd (hlt.symm.trans Std.ReflCmp.compare_self) (by decide)
      have heq : first = first' := by
        rcases List.mem_cons.1 ((h first).1 List.mem_cons_self) with heq | hmem
        · exact heq
        · rcases List.mem_cons.1 ((h first').2 List.mem_cons_self) with heq | hmem'
          · exact heq.symm
          · exact absurd (Std.TransCmp.lt_trans (hfirst _ hmem') (hfirst' _ hmem)) (irrefl _)
      subst heq
      refine congrArg (first :: ·) (ih hrest hrest' fun entry => ?_)
      have hiff := h entry
      simp only [List.mem_cons] at hiff
      constructor
      · intro hmem
        rcases hiff.1 (Or.inr hmem) with rfl | hmem'
        · exact absurd (hfirst _ hmem) (irrefl _)
        · exact hmem'
      · intro hmem
        rcases hiff.2 (Or.inr hmem) with rfl | hmem'
        · exact absurd (hfirst' _ hmem) (irrefl _)
        · exact hmem'

/-- Maps with the same look-ups are equal. -/
theorem ext_find? [Std.TransOrd α] {a b : SortedMap α β} (h : ∀ key, a.find? key = b.find? key) :
    a = b := by
  have hentries : a.entries = b.entries :=
    eq_of_forall_mem_iff a.ascending b.ascending fun entry => by
      rw [← lookupEntry_eq_some_iff a.ascending, ← lookupEntry_eq_some_iff b.ascending]
      exact iff_of_eq (congrArg (· = some entry.2) (h entry.1))
  cases a
  cases b
  cases hentries
  rfl

theorem find?_foldl_insert [Std.TransOrd α] (f : β → γ) {entries : List (α × β)}
    (hkeys : (entries.map Prod.fst).Nodup) (map : SortedMap α γ) (key : α) :
    (entries.foldl (fun map entry => map.insert entry.1 (f entry.2)) map).find? key =
      ((lookupEntry key entries).map f).or (map.find? key) := by
  induction entries generalizing map with
  | nil => rfl
  | cons entry entries ih =>
    obtain ⟨hentry, hentries⟩ := List.nodup_cons.1 hkeys
    rw [List.foldl_cons, ih hentries, lookupEntry]
    by_cases hkey : compare key entry.1 = .eq
    · obtain rfl : key = entry.1 := Std.LawfulEqOrd.eq_of_compare hkey
      have hnone : lookupEntry entry.1 entries = none := by
        rw [Option.eq_none_iff_forall_ne_some]
        intro value hvalue
        have hmem := (lookupEntry_eq_some_iff_of_nodup hentries).1 hvalue
        exact hentry (List.mem_map.2 ⟨_, hmem, rfl⟩)
      rw [hnone, if_pos hkey, find?_insert_self]
      rfl
    · rw [if_neg hkey, find?_insert, if_neg hkey]

/-- Setting the entries of a map one after another, in whatever order, yields the map. -/
theorem foldl_insert_of_perm [Std.TransOrd α] (f : β → γ) {entries : List (α × β)}
    {map : SortedMap α β} (h : entries.Perm map.toList) :
    entries.foldl (fun map entry => map.insert entry.1 (f entry.2)) empty = map.mapValues f := by
  have hkeys : (entries.map Prod.fst).Nodup :=
    (h.map Prod.fst).nodup_iff.2 (nodup_of_ascending map.ascending)
  apply ext_find?
  intro key
  have hlookup : lookupEntry key entries = map.find? key := by
    apply Option.ext
    intro value
    rw [lookupEntry_eq_some_iff_of_nodup hkeys, find?_eq_some_iff, h.mem_iff]
  rw [find?_foldl_insert f hkeys, hlookup, find?_mapValues, find?_empty, Option.or_none]

omit [Std.LawfulEqOrd α] in
theorem insertEntry_perm_of_none {key : α} {entries : List (α × β)}
    (h : lookupEntry key entries = none) (value : β) :
    (insertEntry key value entries).Perm ((key, value) :: entries) := by
  induction entries with
  | nil => exact List.Perm.refl _
  | cons first rest ih =>
    rw [lookupEntry] at h
    rw [insertEntry]
    split
    · exact List.Perm.refl _
    · rename_i heq
      rw [if_pos heq] at h
      cases h
    · rename_i hgt
      rw [if_neg (by rw [hgt]; decide)] at h
      exact ((ih h).cons first).trans (List.Perm.swap _ _ _)

omit [Std.LawfulEqOrd α] in
/-- A new key adds one entry. -/
theorem toList_insert_of_none [Std.TransOrd α] {map : SortedMap α β} {key : α}
    (h : map.find? key = none) (value : β) :
    (map.insert key value).toList.Perm ((key, value) :: map.toList) :=
  insertEntry_perm_of_none h value

theorem insertEntry_eq_map_of_some [Std.TransOrd α] {key : α} {old : β} {entries : List (α × β)}
    (hascending : entries.Pairwise fun a b => compare a.1 b.1 = .lt)
    (h : lookupEntry key entries = some old) (value : β) :
    insertEntry key value entries =
      entries.map fun entry => if compare key entry.1 = .eq then (key, value) else entry := by
  induction entries with
  | nil => cases h
  | cons first rest ih =>
    obtain ⟨hfirst, hrest⟩ := List.pairwise_cons.1 hascending
    have habove (hle : compare key first.1 ≠ .gt) (entry : α × β) (hentry : entry ∈ rest) :
        compare key entry.1 = .lt := by
      cases hkey : compare key first.1 with
      | lt => exact Std.TransCmp.lt_trans hkey (hfirst entry hentry)
      | eq => exact Std.TransCmp.lt_of_eq_of_lt hkey (hfirst entry hentry)
      | gt => exact absurd hkey hle
    rw [insertEntry, List.map_cons]
    split
    · -- The key would stand before all others, so it has no value.
      rename_i hlt
      rw [lookupEntry, if_neg (by rw [hlt]; decide)] at h
      have hmem := (lookupEntry_eq_some_iff hrest).1 h
      have hself := habove (by rw [hlt]; decide) _ hmem
      exact absurd (hself.symm.trans Std.ReflCmp.compare_self) (by decide)
    · rename_i heq
      rw [if_pos heq]
      have hsame : rest.map (fun entry => if compare key entry.1 = .eq then (key, value)
          else entry) = rest := by
        refine (List.map_congr_left fun entry hentry => ?_).trans (List.map_id rest)
        rw [if_neg (by rw [habove (by rw [heq]; decide) entry hentry]; decide)]
        rfl
      rw [hsame]
    · rename_i hgt
      rw [lookupEntry, if_neg (by rw [hgt]; decide)] at h
      rw [if_neg (by rw [hgt]; decide), ih hrest h]

/-- A key that has a value keeps its place. -/
theorem toList_insert_of_some [Std.TransOrd α] {map : SortedMap α β} {key : α} {old : β}
    (h : map.find? key = some old) (value : β) :
    (map.insert key value).toList =
      map.toList.map fun entry => if compare key entry.1 = .eq then (key, value) else entry :=
  insertEntry_eq_map_of_some map.ascending h value

end Lookups

end SortedMap

end RevisionLedger
