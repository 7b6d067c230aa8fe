import Mathlib.Data.List.Forall2
import RevisionLedger.Proofs.Json.Strings

/-!
# Objects are read back

The reader of an object takes its members in the order in which they stand in the text. The writer
may have sorted them. So what is said of an object must hold for every order of its members: a
structure with distinct fields, and a map, come out the same whatever the order is.
-/

namespace RevisionLedger.Json

variable {α β γ : Type}

/-! ## 1. The text of an object -/

/-- A member of an object before its name is quoted: the name and the text of the value. -/
abbrev Member := String × String

/-- The bytes of members up to the brace behind them. -/
def membersBytes : Bool → List Member → List UInt8
  | _, [] => [byte '\x7d']
  | first, (name, text) :: members =>
    (if first then [] else [byte ',']) ++
      (bytes (quoted name) ++ byte ':' :: (bytes text ++ membersBytes false members))

theorem exists_arrange (style : Style) (member : γ → Member) (list : List γ) :
    ∃ arranged : List γ, arranged.Perm list ∧ style.arrange (list.map member) =
      arranged.map fun a => (quoted (member a).1, (member a).2) := by
  have hlist : (list.map member).map (fun member => (quoted member.1, member.2)) =
      list.map fun a => (quoted (member a).1, (member a).2) := List.map_map
  unfold Style.arrange
  rw [hlist]
  by_cases hsorted : style.sorted
  · refine ⟨list.mergeSort fun a b => (compare (quoted (member a).1) (quoted (member b).1)).isLE,
      List.mergeSort_perm _ _, ?_⟩
    simp only [if_pos hsorted]
    exact (List.map_mergeSort (f := fun a => (quoted (member a).1, (member a).2))
      fun _ _ _ _ => rfl).symm
  · exact ⟨list, List.Perm.refl _, by simp only [if_neg hsorted]⟩

theorem bytes_intercalate_brace (list : List Member) :
    bytes (String.intercalate "," (list.map fun member => quoted member.1 ++ ":" ++ member.2)) ++
      bytes "\x7d" = membersBytes true list := by
  have hbrace : bytes "\x7d" = [byte '\x7d'] := rfl
  have hcomma : bytes "," = [byte ','] := rfl
  have hcolon : bytes ":" = [byte ':'] := rfl
  induction list with
  | nil => rw [List.map_nil, String.intercalate_nil, hbrace]; rfl
  | cons member list ih =>
    cases list with
    | nil =>
      rw [List.map_singleton, String.intercalate_singleton, bytes_append, bytes_append, hbrace,
        hcolon, List.append_assoc, List.append_assoc]
      rfl
    | cons other list =>
      rw [List.map_cons] at ih
      rw [List.map_cons, List.map_cons, String.intercalate_cons_cons, bytes_append,
        List.append_assoc, ih, bytes_append, bytes_append, bytes_append, hcolon, hcomma]
      simp only [membersBytes, List.append_assoc, List.cons_append, List.nil_append,
        Bool.false_eq_true, if_true, if_false]

/-- An object is written as its members in some order. -/
theorem bytes_object (style : Style) (member : γ → Member) (list : List γ) :
    ∃ arranged : List γ, arranged.Perm list ∧
      bytes (style.object (list.map member)) =
        byte '\x7b' :: membersBytes true (arranged.map member) := by
  obtain ⟨arranged, hperm, harrange⟩ := exists_arrange style member list
  have hmembers := bytes_intercalate_brace (arranged.map member)
  rw [List.map_map] at hmembers
  refine ⟨arranged, hperm, ?_⟩
  rw [Style.object, harrange, List.map_map, bytes_append, bytes_append, List.append_assoc]
  exact congrArg (byte '\x7b' :: ·) hmembers

theorem head?_object (style : Style) (member : γ → Member) (list : List γ) :
    (bytes (style.object (list.map member))).head? = some (byte '\x7b') := by
  obtain ⟨arranged, -, hbytes⟩ := bytes_object style member list
  rw [hbytes]
  rfl

theorem length_lt_membersBytes (first : Bool) (list : List Member) :
    list.length < (membersBytes first list).length := by
  induction list generalizing first with
  | nil => exact Nat.zero_lt_one
  | cons member list ih =>
    have hrest := ih false
    simp only [membersBytes, List.length_append, List.length_cons]
    omega

/-- The bytes of members, each with its colon and what separates it from the next one. -/
def membersSize : List Member → Nat
  | [] => 0
  | (name, text) :: members =>
    (bytes (quoted name)).length + (bytes text).length + 2 + membersSize members

theorem membersSize_of_perm {a b : List Member} (h : a.Perm b) : membersSize a = membersSize b := by
  induction h with
  | nil => rfl
  | cons member _ ih => rw [membersSize, membersSize, ih]
  | swap first second members =>
    simp only [membersSize]
    omega
  | trans _ _ ihFirst ihSecond => rw [ihFirst, ihSecond]

theorem length_membersBytes_le (first : Bool) (list : List Member) :
    (membersBytes first list).length ≤ membersSize list + 1 := by
  induction list generalizing first with
  | nil => exact Nat.le_refl 1
  | cons member list ih =>
    have hrest := ih false
    have hcomma : (if first then [] else [byte ',']).length ≤ 1 := by cases first <;> decide
    simp only [membersBytes, membersSize, List.length_append, List.length_cons]
    omega

/-- How long an object is at most does not depend on the order of its members. -/
theorem length_object_le (style : Style) (list : List Member) :
    (bytes (style.object list)).length ≤ membersSize list + 2 := by
  obtain ⟨arranged, hperm, hbytes⟩ := bytes_object style id list
  rw [List.map_id, List.map_id] at hbytes
  rw [hbytes, List.length_cons, ← membersSize_of_perm hperm]
  exact Nat.succ_le_succ (length_membersBytes_le true arranged)

/-! ## 2. Members one after another -/

namespace Reader

variable (member : α → String → Reader α)

/-- Members, one after another, make one state of another. -/
inductive Steps : List Member → α → α → Prop
  | done (state : α) : Steps [] state state
  | more {name text : String} {members : List Member} {state between last : α}
      (head : ∀ bound rest, (bytes text).length < bound → Ends rest →
        member state name bound (byte ':' :: (bytes text ++ rest)) = .ok (between, rest))
      (tail : Steps members between last) : Steps ((name, text) :: members) state last

variable {member}

theorem ends_membersBytes (list : List Member) (rest : List UInt8) :
    Ends (membersBytes false list ++ rest) := by
  cases list with
  | nil => exact ends_brace _
  | cons other list => exact ends_comma _

/-- The name of a member is taken, then its value, then the members behind it. Only a member that
is not the first has a comma before it. -/
theorem members_cons {name text : String} {list : List Member} {count bound : Nat} (first : Bool)
    (state : α) (rest : List UInt8)
    (hbound : (membersBytes first ((name, text) :: list)).length ≤ bound) :
    members member (count + 1) first state bound
        (membersBytes first ((name, text) :: list) ++ rest) =
      (member state name >>= members member count false) bound
        (byte ':' :: (bytes text ++ (membersBytes false list ++ rest))) := by
  have hquoted : bytes (quoted name) =
      byte '"' :: (escapedBytes name.toList ++ [byte '"']) := bytes_quoted name
  have hname : stringBody bound (escapedBytes name.toList ++ byte '"' :: (byte ':' ::
      (bytes text ++ (membersBytes false list ++ rest)))) =
        .ok (name, byte ':' :: (bytes text ++ (membersBytes false list ++ rest))) := by
    refine stringBody_escapedBytes name _ ?_
    simp only [membersBytes, List.length_append, List.length_cons, hquoted] at hbound
    omega
  unfold members
  cases first with
  | true =>
    simp only [membersBytes, if_true, List.nil_append, List.append_assoc, List.cons_append, hquoted]
    rw [bind_of_ok (peek_cons (by decide)), if_neg (by decide)]
    simp only [Bool.not_true, Bool.false_eq_true, if_false]
    rw [bind_of_ok (peek_cons (by decide)), if_neg (by decide),
      bind_of_ok (discard_next_cons _ _ _), bind_of_ok hname]
  | false =>
    simp only [membersBytes, Bool.false_eq_true, if_false, List.append_assoc, List.cons_append,
      List.nil_append, hquoted]
    rw [bind_of_ok (peek_cons (by decide)), if_neg (by decide)]
    simp only [Bool.not_false, if_true]
    rw [bind_of_ok (mark_cons _ _ (by decide)), bind_of_ok (peek_cons (by decide)),
      if_neg (by decide), bind_of_ok (discard_next_cons _ _ _), bind_of_ok hname]

theorem members_of_steps {list : List Member} {state last : α} (h : Steps member list state last)
    {count bound : Nat} (hcount : list.length < count) (first : Bool) (rest : List UInt8)
    (hbound : (membersBytes first list).length ≤ bound) :
    members member count first state bound (membersBytes first list ++ rest) =
      .ok (last, rest) := by
  -- A step for each member.
  induction h generalizing count first with
  | done state =>
    obtain ⟨count, rfl⟩ := Nat.exists_eq_add_of_le' (Nat.succ_le_of_lt hcount)
    show members member (count + 1) first state bound _ = _
    unfold members
    rw [membersBytes, bind_of_ok (peek_append rfl (by decide) rest), if_pos rfl]
    rfl
  | @more name text list state between last head tail ih =>
    obtain ⟨count, rfl⟩ := Nat.exists_eq_add_of_le' (Nat.succ_le_of_lt (Nat.zero_lt_of_lt hcount))
    have hlength : (bytes text).length < bound ∧ (membersBytes false list).length ≤ bound := by
      simp only [membersBytes, List.length_append, List.length_cons] at hbound
      omega
    rw [members_cons first state rest hbound,
      bind_of_ok (head bound _ hlength.1 (ends_membersBytes list rest))]
    exact ih (Nat.lt_of_succ_lt_succ hcount) false hlength.2

/-- The members of an object are taken behind its opening brace. -/
theorem object_of_bytes_eq {text : String} {list : List Member}
    (hbytes : bytes text = byte '\x7b' :: membersBytes true list) (state : α) (bound : Nat)
    (rest : List UInt8) : object member state bound (bytes text ++ rest) =
      members member bound true state bound (membersBytes true list ++ rest) := by
  rw [hbytes, List.cons_append, object, bind_of_ok (mark_cons _ _ (by decide)),
    bind_of_ok (rfl : Reader.bound bound _ = .ok (bound, _))]

/-- An object is read as far as its members, in the order in which they are written, can be
taken. -/
theorem exists_object (style : Style) (write : γ → Member) (list : List γ) :
    ∃ arranged : List γ, arranged.Perm list ∧
      ∀ {state last : α}, Steps member (arranged.map write) state last →
        Reads (object member state) (style.object (list.map write)) last := by
  obtain ⟨arranged, hperm, hbytes⟩ := bytes_object style write list
  refine ⟨arranged, hperm, fun hsteps bound rest hbound _ => ?_⟩
  have hcount := length_lt_membersBytes true (arranged.map write)
  rw [object_of_bytes_eq hbytes]
  rw [hbytes, List.length_cons] at hbound
  exact members_of_steps hsteps (by omega) true rest (by omega)

end Reader

/-! ## 3. Maps -/

namespace Reader

variable [Ord α] [Std.TransOrd α]

/-- A member of a map sets the value of its name. -/
theorem steps_entries {key : String → α} {name : α → String} (hkey : ∀ a, key (name a) = a)
    {value : Reader γ} {write : β → String} {f : β → γ} {entries : List (α × β)}
    (h : ∀ entry ∈ entries, Reads value (write entry.2) (f entry.2)) (state : SortedMap α γ) :
    Steps (fun entries name => do
        mark ':'
        return entries.insert (key name) (← value))
      (entries.map fun entry => (name entry.1, write entry.2)) state
      (entries.foldl (fun map entry => map.insert entry.1 (f entry.2)) state) := by
  induction entries generalizing state with
  | nil => exact Steps.done state
  | cons entry entries ih =>
    refine Steps.more (fun bound rest hbound hends => ?_) (ih
      (fun other hother => h other (List.mem_cons_of_mem _ hother))
      (state.insert entry.1 (f entry.2)))
    rw [bind_of_ok (mark_cons _ _ (by decide)),
      bind_of_ok (h entry List.mem_cons_self bound rest hbound hends), hkey]
    rfl

end Reader

/-- A map whose values are read is read, whatever the order of its members. -/
theorem reads_map [Ord α] [Std.TransOrd α] [Std.LawfulEqOrd α] {style : Style} {key : String → α}
    {name : α → String} (hkey : ∀ a, key (name a) = a) {value : Reader γ} {write : β → String}
    {f : β → γ} {map : SortedMap α β}
    (h : ∀ entry ∈ map.toList, Reads value (write entry.2) (f entry.2)) :
    Reads (Reader.map key value)
      (style.object (map.toList.map fun entry => (name entry.1, write entry.2)))
      (map.mapValues f) := by
  obtain ⟨arranged, hperm, hobject⟩ := Reader.exists_object style
    (fun entry : α × β => (name entry.1, write entry.2)) map.toList
  -- The names of a map are distinct, so the order in which they are set does not matter.
  have hsteps := Reader.steps_entries hkey
    (fun entry hentry => h entry (hperm.mem_iff.1 hentry)) (.empty : SortedMap α γ)
  rw [SortedMap.foldl_insert_of_perm f hperm] at hsteps
  intro bound rest hbound hends
  rw [Reader.map, Reader.bind_of_ok
    (Reader.peek_append (head?_object style _ _) (by decide) rest), if_pos rfl]
  exact hobject hsteps bound rest hbound hends

/-! ## 4. Structures -/

/-- A member that a structure is written with: its name, its text, and the function that setting
its field comes to. -/
structure Written (α : Type) where
  name : String
  text : String
  set : α → α

namespace Shape

variable {shape : Shape α}

/-- A member is read by the field of its name. -/
def Accepts (shape : Shape α) (written : Written α) : Prop :=
  ∃ field, shape.fields.find? (·.name == written.name) = some field ∧
    Reads field.read written.text written.set

/-- A member is of the name of a field and is read by it. -/
def Lists (field : Field α) (written : Written α) : Prop :=
  field.name = written.name ∧ Reads field.read written.text written.set

theorem names_eq_of_forall₂ {R : Field α → Written α → Prop}
    (hR : ∀ field written, R field written → field.name = written.name)
    {fields : List (Field α)} {members : List (Written α)} (h : List.Forall₂ R fields members) :
    fields.map Field.name = members.map Written.name := by
  induction h with
  | nil => rfl
  | cons hhead _ ih => rw [List.map_cons, List.map_cons, hR _ _ hhead, ih]

/-- The field of the name of a member is the one that it is listed for. -/
theorem exists_field {R : Field α → Written α → Prop}
    (hR : ∀ field written, R field written → field.name = written.name)
    {fields : List (Field α)} {members : List (Written α)}
    (hnames : (fields.map Field.name).Nodup) (h : List.Forall₂ R fields members)
    {written : Written α} (hwritten : written ∈ members) :
    ∃ field, fields.find? (·.name == written.name) = some field ∧ R field written := by
  induction h with
  | nil => cases hwritten
  | @cons field other fields members hhead htail ih =>
    rw [List.map_cons, List.nodup_cons] at hnames
    rcases List.mem_cons.1 hwritten with rfl | hmem
    · exact ⟨field, List.find?_cons_of_pos (beq_iff_eq.2 (hR _ _ hhead)), hhead⟩
    · obtain ⟨found, hfind, hfound⟩ := ih hnames.2 hmem
      -- The first field of the name is not before it, for then the name would stand there twice.
      have hne : field.name ≠ written.name := fun heq => by
        have hname := List.find?_some hfind
        rw [heq, ← beq_iff_eq.1 hname] at hnames
        exact hnames.1 (List.mem_map.2 ⟨found, List.mem_of_find?_eq_some hfind, rfl⟩)
      exact ⟨found, by rw [List.find?_cons_of_neg (by rwa [beq_iff_eq])]; exact hfind, hfound⟩

/-- Members that list the fields of the shape in order are accepted. -/
theorem accepts_of_forall₂ {members : List (Written α)}
    (hnames : (shape.fields.map Field.name).Nodup)
    (h : List.Forall₂ Lists shape.fields members) {written : Written α}
    (hwritten : written ∈ members) : shape.Accepts written := by
  obtain ⟨field, hfind, hlists⟩ := exists_field (fun _ _ h => h.1) hnames h hwritten
  exact ⟨field, hfind, hlists.2⟩

theorem steps_member {members : List (Written α)} (h : ∀ written ∈ members, shape.Accepts written)
    (hnames : (members.map Written.name).Nodup) (value : α) {seen : List String}
    (hseen : ∀ written ∈ members, written.name ∉ seen) :
    Reader.Steps shape.member (members.map fun written => (written.name, written.text))
      (value, seen) (members.foldl (fun value written => written.set value) value,
        (members.map Written.name).reverse ++ seen) := by
  induction members generalizing value seen with
  | nil => exact Reader.Steps.done _
  | cons written members ih =>
    rw [List.map_cons, List.nodup_cons] at hnames
    have hfresh (other : Written α) (hother : other ∈ members) :
        other.name ∉ written.name :: seen := by
      rw [List.mem_cons, not_or]
      refine ⟨fun heq => hnames.1 ?_, hseen other (List.mem_cons_of_mem _ hother)⟩
      exact List.mem_map.2 ⟨other, hother, heq⟩
    have htail := ih (fun other hother => h other (List.mem_cons_of_mem _ hother)) hnames.2
      (written.set value) hfresh
    rw [List.map_cons, List.map_cons, List.reverse_cons, List.append_assoc]
    refine Reader.Steps.more (fun bound rest hbound hends => ?_) htail
    obtain ⟨field, hfind, hread⟩ := h written List.mem_cons_self
    have hunseen : seen.contains written.name = false := by
      rw [← Bool.not_eq_true, List.contains_iff_mem]
      exact hseen written List.mem_cons_self
    rw [member, hfind]
    simp only [hunseen, Bool.false_eq_true, if_false]
    rw [Reader.bind_of_ok (Reader.mark_cons _ _ (by decide)),
      Reader.bind_of_ok (hread bound rest hbound hends)]
    rfl

/-- A structure is read if its members list its fields, and setting one of them leaves the others
alone. The members may be written in any order. -/
theorem reads_written {style : Style} (members : List (Written α)) {value : α}
    (hnames : (shape.fields.map Field.name).Nodup)
    (h : List.Forall₂ Lists shape.fields members)
    (hcomm : ∀ a ∈ members, ∀ b ∈ members, ∀ value, b.set (a.set value) = a.set (b.set value))
    (hvalue : members.foldl (fun value written => written.set value) shape.blank = value) :
    Reads shape.reader (style.object (members.map fun written => (written.name, written.text)))
      value := by
  have hlisted := names_eq_of_forall₂ (fun _ _ h => h.1) h
  obtain ⟨arranged, hperm, hobject⟩ := Reader.exists_object style
    (fun written : Written α => (written.name, written.text)) members
  have hsteps := steps_member
    (fun written hwritten => accepts_of_forall₂ hnames h (hperm.mem_iff.1 hwritten))
    ((hperm.map Written.name).nodup_iff.2 (hlisted ▸ hnames)) shape.blank
    fun written _ hmem => absurd hmem List.not_mem_nil
  -- Members that commute set the same fields in any order.
  have hset : arranged.foldl (fun value written => written.set value) shape.blank = value := by
    rw [← hvalue]
    refine hperm.foldl_eq' (fun a ha b hb value => ?_) _
    exact hcomm a (hperm.mem_iff.1 ha) b (hperm.mem_iff.1 hb) value
  rw [hset, List.append_nil] at hsteps
  -- Every name has been seen, whatever the order was.
  have hall : shape.fields.all fun field => field.presence != .required ||
      (arranged.map Written.name).reverse.contains field.name := by
    rw [List.all_eq_true]
    intro field hfield
    have hname : field.name ∈ members.map Written.name :=
      hlisted ▸ List.mem_map.2 ⟨field, hfield, rfl⟩
    have hseen : (arranged.map Written.name).reverse.contains field.name :=
      List.contains_iff_mem.2 (List.mem_reverse.2 ((hperm.map Written.name).mem_iff.2 hname))
    rw [hseen, Bool.or_true]
  intro bound rest hbound hends
  rw [reader, Reader.bind_of_ok (Reader.peek_append (head?_object style _ _) (by decide) rest),
    if_pos rfl, Reader.bind_of_ok (hobject hsteps bound rest hbound hends)]
  simp only [hall, if_true]
  rfl

end Shape

end RevisionLedger.Json
