import RevisionLedger.Proofs.Json.Objects

/-!
# What a reader refuses

`Refuses reader text` says that a reader, given the bytes of a text before any others that can end a
value, takes no value off them. An object is refused if one of its members is, provided that those
written before it can be read. Which members these are depends on the order in which the writer has
put them, so each member is known either to be read or to be refused.
-/

namespace RevisionLedger.Json

variable {α β γ : Type}

/-- The reader takes no value off the text. Its bound is past the length of the text. -/
def Refuses (reader : Reader α) (text : String) : Prop :=
  ∀ bound rest, (bytes text).length < bound → Ends rest →
    ∃ fault, reader bound (bytes text ++ rest) = .error fault

namespace Refuses

variable {reader : Reader α} {text : String}

theorem bind (h : Refuses reader text) (next : α → Reader β) : Refuses (reader >>= next) text := by
  intro bound rest hbound hends
  obtain ⟨fault, hfault⟩ := h bound rest hbound hends
  exact ⟨fault, Reader.bind_of_error hfault⟩

theorem decode (h : Refuses reader text) : ∃ fault, decode reader (bytes text) = .error fault := by
  obtain ⟨fault, hfault⟩ := h ((bytes text).length + 1) [] (Nat.lt_succ_self _) ends_nil
  rw [List.append_nil] at hfault
  refine ⟨fault, ?_⟩
  rw [Json.decode, hfault]
  rfl

end Refuses

/-- The word for a missing value is no number. -/
theorem refuses_null : Refuses Reader.real "null" := by
  apply Refuses.bind
  intro bound rest _ _
  refine ⟨.mismatch, ?_⟩
  show Reader.anyNumber bound (['n', 'u', 'l', 'l'].map byte ++ rest) = _
  rw [Reader.anyNumber, Reader.bind_of_ok (Reader.peek_append rfl (by decide) rest),
    if_neg (by decide), Reader.wrongKind, if_pos rfl,
    Reader.bind_of_ok (Reader.word_append _ _ _)]
  rfl

/-! ## 1. Members -/

theorem exists_first_refused {P Q : γ → Prop} {list : List γ} (h : ∀ a ∈ list, P a ∨ Q a)
    (hrefused : ∃ a ∈ list, Q a) :
    ∃ before refused after, list = before ++ refused :: after ∧ (∀ a ∈ before, P a) ∧
      Q refused := by
  classical
  obtain ⟨refused, hfind⟩ : ∃ refused, list.find? (fun a => decide (Q a)) = some refused := by
    rw [← Option.isSome_iff_exists, List.find?_isSome]
    simpa using hrefused
  obtain ⟨hQ, before, after, rfl, hbefore⟩ := List.find?_eq_some_iff_append.1 hfind
  refine ⟨before, refused, after, rfl, fun a ha => ?_, of_decide_eq_true hQ⟩
  have hnot : ¬Q a := by simpa using hbefore a ha
  exact (h a (List.mem_append_left _ ha)).resolve_right hnot

namespace Reader

variable {member : α → String → Reader α}

/-- A member is refused after its name. -/
def RefusesMember (member : α → String → Reader α) (state : α) (refused : Member) : Prop :=
  ∀ bound rest, (bytes refused.2).length < bound → Ends rest →
    ∃ fault, member state refused.1 bound (byte ':' :: (bytes refused.2 ++ rest)) = .error fault

theorem members_of_refused {before after : List Member} {refused : Member} {state between : α}
    (hsteps : Steps member before state between) (hrefused : RefusesMember member between refused)
    {count bound : Nat} (hcount : before.length < count) (first : Bool) (rest : List UInt8)
    (hbound : (membersBytes first (before ++ refused :: after)).length ≤ bound) :
    ∃ fault, members member count first state bound
      (membersBytes first (before ++ refused :: after) ++ rest) = .error fault := by
  induction hsteps generalizing count first with
  | done state =>
    obtain ⟨count, rfl⟩ := Nat.exists_eq_add_of_le' (Nat.succ_le_of_lt hcount)
    obtain ⟨name, text⟩ := refused
    have hlength : (bytes text).length < bound := by
      simp only [List.nil_append, membersBytes, List.length_append, List.length_cons] at hbound
      omega
    obtain ⟨fault, hfault⟩ := hrefused bound _ hlength (ends_membersBytes after rest)
    refine ⟨fault, ?_⟩
    rw [List.nil_append] at hbound ⊢
    exact (members_cons first state rest hbound).trans (bind_of_error hfault)
  | @more name text list state between last head tail ih =>
    obtain ⟨count, rfl⟩ := Nat.exists_eq_add_of_le' (Nat.succ_le_of_lt (Nat.zero_lt_of_lt hcount))
    rw [List.cons_append] at hbound ⊢
    have hlength : (bytes text).length < bound ∧
        (membersBytes false (list ++ refused :: after)).length ≤ bound := by
      simp only [membersBytes, List.length_append, List.length_cons] at hbound ⊢
      omega
    rw [members_cons first state rest hbound,
      bind_of_ok (head bound _ hlength.1 (ends_membersBytes _ rest))]
    exact ih hrefused (Nat.lt_of_succ_lt_succ hcount) false hlength.2

/-- An object is refused if, in whatever order its members are written, those before some refused
one can be taken. -/
theorem refuses_object {style : Style} {write : γ → Member} {list : List γ} {state : α}
    (h : ∀ arranged : List γ, arranged.Perm list → ∃ before refused after between,
      arranged = before ++ refused :: after ∧ Steps member (before.map write) state between ∧
        RefusesMember member between (write refused)) :
    Refuses (object member state) (style.object (list.map write)) := by
  intro bound rest hbound _
  obtain ⟨arranged, hperm, hbytes⟩ := bytes_object style write list
  obtain ⟨before, refused, after, between, rfl, hsteps, hrefused⟩ := h arranged hperm
  have hcount := length_lt_membersBytes true ((before ++ refused :: after).map write)
  rw [object_of_bytes_eq hbytes]
  rw [hbytes, List.length_cons] at hbound
  rw [List.map_append, List.map_cons] at hbound hcount ⊢
  rw [List.length_append] at hcount
  exact members_of_refused hsteps hrefused (by omega) true rest (by omega)

end Reader

/-! ## 2. Maps and structures -/

/-- A map is refused if one of its values is, and every other one is read or refused as well. -/
theorem refuses_map [Ord α] [Std.TransOrd α] {style : Style} {key : String → α} {name : α → String}
    (hkey : ∀ a, key (name a) = a) {value : Reader γ} {write : β → String} {f : β → γ}
    {map : SortedMap α β}
    (h : ∀ entry ∈ map.toList, Reads value (write entry.2) (f entry.2) ∨
      Refuses value (write entry.2))
    (hrefused : ∃ entry ∈ map.toList, Refuses value (write entry.2)) :
    Refuses (Reader.map key value)
      (style.object (map.toList.map fun entry => (name entry.1, write entry.2))) := by
  intro bound rest hbound hends
  rw [Reader.map, Reader.bind_of_ok
    (Reader.peek_append (head?_object style _ _) (by decide) rest), if_pos rfl]
  refine Reader.refuses_object (fun arranged hperm => ?_) bound rest hbound hends
  obtain ⟨before, refused, after, rfl, hbefore, hvalue⟩ := exists_first_refused
    (fun entry hentry => h entry (hperm.mem_iff.1 hentry))
    (by simpa only [hperm.mem_iff] using hrefused)
  refine ⟨before, refused, after, _, rfl, Reader.steps_entries hkey hbefore .empty, ?_⟩
  intro bound rest hbound hends
  obtain ⟨fault, hfault⟩ := hvalue bound rest hbound hends
  refine ⟨fault, ?_⟩
  exact (Reader.bind_of_ok (Reader.mark_cons _ _ (by decide))).trans (Reader.bind_of_error hfault)

namespace Shape

variable {shape : Shape α}

/-- A member is of the name of a field, and is read by it or refused. -/
def Meets (field : Field α) (written : Written α) : Prop :=
  field.name = written.name ∧
    (Reads field.read written.text written.set ∨ Refuses field.read written.text)

/-- A member is refused by the field of its name. -/
def Rejects (shape : Shape α) (written : Written α) : Prop :=
  ∃ field, shape.fields.find? (·.name == written.name) = some field ∧
    Refuses field.read written.text

theorem refuses_written {style : Style} (members : List (Written α))
    (hnames : (shape.fields.map Field.name).Nodup) (h : List.Forall₂ Meets shape.fields members)
    (hrefused : ∃ written ∈ members, shape.Rejects written) :
    Refuses shape.reader
      (style.object (members.map fun written => (written.name, written.text))) := by
  intro bound rest hbound hends
  have hlisted := names_eq_of_forall₂ (fun _ _ h => h.1) h
  rw [reader, Reader.bind_of_ok (Reader.peek_append (head?_object style _ _) (by decide) rest),
    if_pos rfl]
  refine Refuses.bind (Reader.refuses_object fun arranged hperm => ?_) _ bound rest hbound hends
  have heach : ∀ written ∈ arranged, shape.Accepts written ∨ shape.Rejects written := by
    intro written hwritten
    obtain ⟨field, hfind, -, hread | hrefuse⟩ :=
      exists_field (fun _ _ h => h.1) hnames h (hperm.mem_iff.1 hwritten)
    · exact Or.inl ⟨field, hfind, hread⟩
    · exact Or.inr ⟨field, hfind, hrefuse⟩
  have hnodup : (arranged.map Written.name).Nodup :=
    (hperm.map Written.name).nodup_iff.2 (hlisted ▸ hnames)
  obtain ⟨before, refused, after, rfl, hbefore, field, hfind, hrefuse⟩ :=
    exists_first_refused heach (by simpa only [hperm.mem_iff] using hrefused)
  rw [List.map_append, List.map_cons] at hnodup
  have hbeforeNodup := (List.nodup_append.1 hnodup).1
  have hunseen : (before.map Written.name).reverse.contains refused.name = false := by
    rw [← Bool.not_eq_true, List.contains_iff_mem, List.mem_reverse]
    intro hmem
    exact (List.nodup_append.1 hnodup).2.2 _ hmem _ List.mem_cons_self rfl
  refine ⟨before, refused, after, _, rfl,
    steps_member hbefore hbeforeNodup shape.blank fun _ _ hmem => absurd hmem List.not_mem_nil, ?_⟩
  intro bound rest hbound hends
  obtain ⟨fault, hfault⟩ := hrefuse bound rest hbound hends
  refine ⟨fault, ?_⟩
  rw [member, hfind, List.append_nil]
  simp only [hunseen, Bool.false_eq_true, if_false]
  exact (Reader.bind_of_ok (Reader.mark_cons _ _ (by decide))).trans (Reader.bind_of_error hfault)

end Shape

end RevisionLedger.Json
