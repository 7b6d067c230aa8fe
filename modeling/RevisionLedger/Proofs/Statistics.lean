import Mathlib.Data.List.Forall2
import RevisionLedger.Proofs.Binary64.Order
import RevisionLedger.Statistics

/-!
# Summaries of samples

A property that goes down with the total order holds of the sample at a place of the sorted ones
exactly if it holds of more samples than stand before that place (`holds_iff_lt_countP`). All that is
said of the least sample, the 99th percentile and the greatest comes from this count, which does not
know of the sorting (`order_statistics`).

Samples in another order are the same sorted samples, since the order tells all bit patterns apart.
So no part of a summary depends on the order in which the samples came, and the summaries of named
series depend only on the last series of each name (`summaries_unordered`).
-/

namespace RevisionLedger

namespace Statistics

/-! ## 1. Sorted samples -/

theorem sortSamples_perm (samples : List Binary64) : (sortSamples samples).Perm samples :=
  List.mergeSort_perm _ _

theorem pairwise_sortSamples (samples : List Binary64) :
    (sortSamples samples).Pairwise fun a b => a.totalLe b := by
  have hkeys : (fun a b : Binary64 => decide (a.orderKey ≤ b.orderKey)) = Binary64.totalLe := by
    funext a b
    rw [Bool.eq_iff_iff, decide_eq_true_eq, Binary64.totalLe_iff]
  have htotal (a b : Binary64) : a.totalLe b || b.totalLe a := by
    rw [Bool.or_eq_true]
    exact Binary64.totalLe_total a b
  have htrans (a b c : Binary64) (hab : a.totalLe b) (hbc : b.totalLe c) : a.totalLe c :=
    Binary64.totalLe_trans hab hbc
  rw [sortSamples, hkeys]
  exact List.pairwise_mergeSort htrans htotal samples

/-- There is one way to sort samples, for the order tells all bit patterns apart. -/
theorem sortSamples_eq {samples sorted : List Binary64} (hperm : sorted.Perm samples)
    (hsorted : sorted.Pairwise fun a b => a.totalLe b) : sortSamples samples = sorted :=
  ((sortSamples_perm samples).trans hperm.symm).eq_of_pairwise
    (fun _ _ _ _ => Binary64.totalLe_antisymm) (pairwise_sortSamples samples) hsorted

theorem sortSamples_congr {samples others : List Binary64} (h : samples.Perm others) :
    sortSamples samples = sortSamples others :=
  sortSamples_eq ((sortSamples_perm others).trans h.symm) (pairwise_sortSamples others)

/-! ## 2. Ranks -/

theorem holds_iff_lt_countP {sorted : List Binary64} {p : Binary64 → Bool}
    (hp : sorted.Pairwise fun a b => p b → p a) {k : ℕ} {x : Binary64} (hx : sorted[k]? = some x) :
    p x ↔ k < sorted.countP p := by
  induction sorted generalizing k with
  | nil => cases hx
  | cons first rest ih =>
    obtain ⟨hfirst, hrest⟩ := List.pairwise_cons.1 hp
    by_cases h : p first
    · rw [List.countP_cons_of_pos h]
      cases k with
      | zero =>
        cases hx
        exact iff_of_true h (Nat.succ_pos _)
      | succ k =>
        rw [ih hrest hx]
        omega
    · -- If the first one does not have the property, then none has it.
      have hnone : ∀ y ∈ first :: rest, ¬p y := by
        intro y hy hpy
        rcases List.mem_cons.1 hy with rfl | hy
        · exact h hpy
        · exact h (hfirst y hy hpy)
      rw [List.countP_eq_zero.2 hnone]
      exact iff_of_false (hnone x (List.mem_of_getElem? hx)) (Nat.not_lt_zero k)

section Ranks

variable {samples : List Binary64} {k : ℕ} {x : Binary64} (hx : (sortSamples samples)[k]? = some x)

include hx

theorem mem_of_rank : x ∈ samples :=
  (sortSamples_perm samples).mem_iff.1 (List.mem_of_getElem? hx)

theorem rank_iff {p : Binary64 → Bool} (hp : ∀ a b : Binary64, a.totalLe b → p b → p a) :
    p x ↔ k < samples.countP p := by
  rw [← (sortSamples_perm samples).countP_eq p]
  exact holds_iff_lt_countP ((pairwise_sortSamples samples).imp (hp _ _)) hx

theorem totalLe_rank_iff (bound : Binary64) :
    x.totalLe bound ↔ k < samples.countP (·.totalLe bound) :=
  rank_iff (p := (·.totalLe bound)) hx fun _ _ hab hb => Binary64.totalLe_trans hab hb

/-- The sample at a place and those before it are at most this sample. -/
theorem succ_le_countP_totalLe : k + 1 ≤ samples.countP (·.totalLe x) :=
  (totalLe_rank_iff hx x).1 (Binary64.totalLe_refl x)

/-- The sample at a place and those after it are at least this sample. -/
theorem length_sub_le_countP_totalLe : samples.length - k ≤ samples.countP (x.totalLe ·) := by
  have hbelow : ¬k < samples.countP fun y => !x.totalLe y := by
    rw [← rank_iff (p := fun y => !x.totalLe y) hx]
    · rw [Binary64.totalLe_refl]
      exact Bool.false_ne_true
    · intro a b hab hb
      rw [Bool.not_eq_true'] at hb ⊢
      rw [← Bool.not_eq_true] at hb ⊢
      exact fun ha => hb (Binary64.totalLe_trans ha hab)
  have hsplit := List.length_eq_countP_add_countP (x.totalLe ·) (l := samples)
  have hnot : (samples.countP fun y => decide ¬x.totalLe y = true) =
      samples.countP fun y => !x.totalLe y := by
    congr 1
    funext y
    cases x.totalLe y <;> rfl
  omega

/-- Raising samples raises the one at every place of the sorted samples, or leaves it. -/
theorem totalLe_of_raised {raised : List Binary64} {y : Binary64}
    (h : List.Forall₂ (fun a b => a.totalLe b) samples raised)
    (hy : (sortSamples raised)[k]? = some y) : x.totalLe y := by
  rw [totalLe_rank_iff hx]
  refine (succ_le_countP_totalLe hy).trans ?_
  clear hx hy
  induction h with
  | nil => exact Nat.le_refl _
  | @cons a b samples raised hab _ ih =>
    let p (z : Binary64) : Bool := z.totalLe y
    by_cases hb : p b
    · have ha : p a := Binary64.totalLe_trans hab hb
      rw [List.countP_cons_of_pos (p := p) hb, List.countP_cons_of_pos (p := p) ha]
      exact Nat.succ_le_succ ih
    · rw [List.countP_cons_of_neg (p := p) hb]
      exact ih.trans (List.sublist_cons_self a samples).countP_le

end Ranks

/-! ## 3. Order statistics -/

theorem p99Index_eq {n : ℕ} (hpos : 0 < n) (h : n < 2 ^ 57) :
    p99Index n = Max.max 1 (99 * n / 100) - 1 := by
  have hsize : UInt64.size = 2 ^ 64 := rfl
  have hproduct : (n * 99).min (UInt64.size - 1) = 99 * n := by
    rw [hsize, Nat.mul_comm]
    exact Nat.min_eq_left (by omega)
  have hle : 99 * n / 100 - 1 ≤ n - 1 := by omega
  have hone : Max.max 1 (99 * n / 100) - 1 = 99 * n / 100 - 1 := by omega
  rw [p99Index, hproduct, hone]
  exact Nat.min_eq_left hle

/-- All three are read from places of the sorted samples. -/
theorem summarize_reads {samples : List Binary64} (hne : samples ≠ []) (windowSecs : UInt64) :
    (sortSamples samples)[0]? = some (summarize samples windowSecs).min ∧
      (sortSamples samples)[p99Index samples.length]? = some (summarize samples windowSecs).p99 ∧
        (sortSamples samples)[samples.length - 1]? = some (summarize samples windowSecs).max := by
  rw [summarize, ← (sortSamples_perm samples).length_eq]
  have hsorted : sortSamples samples ≠ [] := fun h =>
    hne ((sortSamples_perm samples).symm.trans (h ▸ List.Perm.refl _)).eq_nil
  generalize sortSamples samples = sorted at hsorted
  cases sorted with
  | nil => exact absurd rfl hsorted
  | cons least others =>
    have hlt : p99Index (least :: others).length < (least :: others).length :=
      p99Index_lt (Nat.succ_pos _)
    refine ⟨rfl, List.getElem?_eq_getElem hlt, ?_⟩
    · rw [← List.getLast?_eq_getElem?]
      exact List.getLast?_eq_some_getLast (List.cons_ne_nil _ _)

/-- The samples at the last two places of the sorted ones, before all others. -/
theorem exists_perm_of_last_two {samples : List Binary64} {x y : Binary64}
    (hlength : 2 ≤ samples.length) (hx : (sortSamples samples)[samples.length - 2]? = some x)
    (hy : (sortSamples samples)[samples.length - 1]? = some y) :
    ∃ others, samples.Perm (y :: x :: others) ∧ ∀ a ∈ others, a.totalLe x := by
  have hperm := sortSamples_perm samples
  have hsorted := pairwise_sortSamples samples
  rw [← hperm.length_eq] at hlength hx hy
  generalize sortSamples samples = sorted at hperm hsorted hlength hx hy
  obtain ⟨hk, hx⟩ := List.getElem?_eq_some_iff.1 hx
  obtain ⟨hk', hy⟩ := List.getElem?_eq_some_iff.1 hy
  have hplace : sorted.length - 2 + 1 = sorted.length - 1 := by omega
  have hend : sorted.length - 2 + 1 + 1 = sorted.length := by omega
  have hsplit : sorted = sorted.take (sorted.length - 2) ++ [x, y] := by
    have hdrop := List.take_append_drop (sorted.length - 2) sorted
    rw [List.drop_eq_getElem_cons hk, List.drop_eq_getElem_cons (by omega), hend,
      List.drop_length] at hdrop
    simp only [hplace, hx, hy] at hdrop
    exact hdrop.symm
  rw [hsplit] at hperm hsorted
  obtain ⟨-, -, hbefore⟩ := List.pairwise_append.1 hsorted
  refine ⟨sorted.take (sorted.length - 2), ?_, fun a ha => hbefore a ha x List.mem_cons_self⟩
  refine hperm.symm.trans (List.perm_append_comm.trans ?_)
  exact List.Perm.swap y x _

/-- What the least, the greatest and the 99th percentile of samples are, by counting samples in the
total order. Raised samples have none of them lower. -/
theorem order_statistics {samples : List Binary64} (hne : samples ≠ [])
    (hlength : samples.length < 2 ^ 57) (windowSecs : UInt64) :
    let n := samples.length
    let i := Max.max 1 (99 * n / 100) - 1
    let found := summarize samples windowSecs
    ((sortSamples samples)[0]? = some found.min ∧ (sortSamples samples)[i]? = some found.p99 ∧
        (sortSamples samples)[n - 1]? = some found.max) ∧
      (found.min ∈ samples ∧ found.p99 ∈ samples ∧ found.max ∈ samples) ∧
      (∀ x ∈ samples, found.min.totalLe x ∧ x.totalLe found.max) ∧
      i + 1 ≤ samples.countP (·.totalLe found.p99) ∧
      n - i ≤ samples.countP (found.p99.totalLe ·) ∧
      found.min.totalLe found.p99 ∧ found.p99.totalLe found.max ∧
      (2 ≤ n → n ≤ 100 → ∃ others, samples.Perm (found.max :: found.p99 :: others) ∧
        ∀ x ∈ others, x.totalLe found.p99) ∧
      ∀ raised otherSecs, List.Forall₂ (fun x y => x.totalLe y) samples raised →
        found.min.totalLe (summarize raised otherSecs).min ∧
          found.p99.totalLe (summarize raised otherSecs).p99 ∧
            found.max.totalLe (summarize raised otherSecs).max := by
  intro n i found
  have hpos : 0 < n := List.length_pos_iff.2 hne
  have hindex : p99Index n = i := p99Index_eq hpos hlength
  obtain ⟨hmin, hp99, hmax⟩ := summarize_reads hne windowSecs
  rw [hindex] at hp99
  have hbetween : ∀ x ∈ samples, found.min.totalLe x ∧ x.totalLe found.max := by
    have hleast := length_sub_le_countP_totalLe hmin
    have hgreatest := succ_le_countP_totalLe hmax
    have hall : n ≤ samples.countP (·.totalLe found.max) := by
      rwa [Nat.sub_add_cancel hpos] at hgreatest
    intro x hx
    exact ⟨List.countP_eq_length.1 (List.countP_le_length.antisymm hleast) x hx,
      List.countP_eq_length.1 (List.countP_le_length.antisymm hall) x hx⟩
  have hmem := mem_of_rank hp99
  refine ⟨⟨hmin, hp99, hmax⟩, ⟨mem_of_rank hmin, hmem, mem_of_rank hmax⟩, hbetween,
    succ_le_countP_totalLe hp99, length_sub_le_countP_totalLe hp99, (hbetween _ hmem).1,
    (hbetween _ hmem).2, fun hfew hmany => ?_, fun raised otherSecs hraised => ?_⟩
  · -- From two to a hundred samples the percentile stands right before the greatest one.
    have hplace : i = n - 2 := by
      show Max.max 1 (99 * n / 100) - 1 = n - 2
      omega
    rw [hplace] at hp99
    exact exists_perm_of_last_two hfew hp99 hmax
  · have hlength' : raised.length = n := hraised.length_eq.symm
    have hne' : raised ≠ [] := List.length_pos_iff.1 (hlength' ▸ hpos)
    obtain ⟨hmin', hp99', hmax'⟩ := summarize_reads hne' otherSecs
    rw [hlength'] at hp99' hmax'
    rw [hindex] at hp99'
    exact ⟨totalLe_of_raised hmin hraised hmin', totalLe_of_raised hp99 hraised hp99',
      totalLe_of_raised hmax hraised hmax'⟩

/-- Among samples with NaNs of both signs and both zeros, one is the 99th percentile. -/
theorem order_statistics_undefined :
    let samples : List Binary64 := [.one, .nan, .zero, Binary64.zero.neg, .invalid]
    let found := summarize samples 300
    samples ≠ [] ∧ samples.length < 2 ^ 57 ∧
      found.min = .invalid ∧ found.p99 = .one ∧ found.max = .nan := by
  intro samples found
  have hne : samples ≠ [] := by decide
  have hlength : samples.length < 2 ^ 57 := by decide
  have hsorted : sortSamples samples = [.invalid, Binary64.zero.neg, .zero, .one, .nan] := by
    exact sortSamples_eq (by decide) (by decide)
  obtain ⟨⟨hmin, hp99, hmax⟩, -⟩ := order_statistics hne hlength 300
  have hplace : Max.max 1 (99 * samples.length / 100) - 1 = 3 := by decide
  rw [hsorted] at hmin hp99 hmax
  rw [hplace] at hp99
  exact ⟨hne, hlength, (Option.some.inj hmin).symm, (Option.some.inj hp99).symm,
    (Option.some.inj hmax).symm⟩

end Statistics

/-! ## 4. Summaries in another order -/

theorem Statistics.summarize_congr {samples others : List Binary64} (h : samples.Perm others)
    (windowSecs : UInt64) : summarize samples windowSecs = summarize others windowSecs := by
  rw [summarize, summarize, sortSamples_congr h]

namespace SortedMap

variable {α β : Type} [Ord α] [Std.TransOrd α] [Std.LawfulEqOrd α]

/-- The order of entries does not matter where no two have one key. -/
theorem ofList_congr {entries others : List (α × β)} (hkeys : (entries.map Prod.fst).Nodup)
    (h : entries.Perm others) : ofList entries = ofList others := by
  have hentries : (entries.reverse.map Prod.fst).Nodup :=
    (entries.reverse_perm.map Prod.fst).nodup_iff.2 hkeys
  have hothers : (others.reverse.map Prod.fst).Nodup :=
    ((others.reverse_perm.trans h.symm).map Prod.fst).nodup_iff.2 hkeys
  apply ext_find?
  intro key
  apply Option.ext
  intro value
  rw [find?_ofList, find?_ofList, lookupEntry_eq_some_iff_of_nodup hentries,
    lookupEntry_eq_some_iff_of_nodup hothers, List.mem_reverse, List.mem_reverse, h.mem_iff]

omit [Std.TransOrd α] in
theorem lookupEntry_eq_none_iff {key : α} {entries : List (α × β)} :
    lookupEntry key entries = none ↔ key ∉ entries.map Prod.fst := by
  induction entries with
  | nil => exact iff_of_true rfl List.not_mem_nil
  | cons first rest ih =>
    rw [lookupEntry, List.map_cons, List.mem_cons, not_or]
    by_cases h : compare key first.1 = .eq
    · rw [if_pos h]
      exact iff_of_false (Option.some_ne_none _) fun hnot =>
        hnot.1 (Std.LawfulEqOrd.eq_of_compare h)
    · have hne : key ≠ first.1 := fun heq => h (heq ▸ Std.ReflCmp.compare_self)
      rw [if_neg h, ih]
      exact (and_iff_right hne).symm

/-- The entries without those that have a later one of their key. -/
def lastOfEachKey {α β : Type} [DecidableEq α] : List (α × β) → List (α × β)
  | [] => []
  | entry :: later =>
    if entry.1 ∈ later.map Prod.fst then lastOfEachKey later else entry :: lastOfEachKey later

theorem lastOfEachKey_map {α β γ : Type} [DecidableEq α] (f : α → β → γ) (entries : List (α × β)) :
    lastOfEachKey (entries.map fun entry => (entry.1, f entry.1 entry.2)) =
      (lastOfEachKey entries).map fun entry => (entry.1, f entry.1 entry.2) := by
  induction entries with
  | nil => rfl
  | cons entry later ih =>
    have hkeys : (later.map fun entry => (entry.1, f entry.1 entry.2)).map Prod.fst =
        later.map Prod.fst := List.map_map
    rw [List.map_cons, lastOfEachKey, lastOfEachKey, hkeys, ih]
    split <;> rfl

/-- Entries that a later one of their key replaces leave no trace. -/
theorem ofList_lastOfEachKey [DecidableEq α] (entries : List (α × β)) :
    ofList (lastOfEachKey entries) = ofList entries := by
  apply ext_find?
  intro key
  rw [find?_ofList, find?_ofList]
  induction entries with
  | nil => rfl
  | cons entry later ih =>
    rw [lastOfEachKey, List.reverse_cons, lookupEntry_append]
    split
    · rename_i hmem
      rw [ih]
      cases hlookup : lookupEntry key later.reverse with
      | some value => rfl
      | none =>
        -- The key is not that of the entry, for that one stands in the rest again.
        rw [lookupEntry_eq_none_iff, List.map_reverse, List.mem_reverse] at hlookup
        have hne : compare key entry.1 ≠ .eq := fun heq =>
          hlookup (Std.LawfulEqOrd.eq_of_compare heq ▸ hmem)
        rw [Option.none_or, lookupEntry, if_neg hne]
        rfl
    · rw [List.reverse_cons, lookupEntry_append, ih]

end SortedMap

namespace Summarizer

variable (summarizer : Summarizer)

theorem summarize_congr (metric : String) {samples others : List Binary64}
    (h : samples.Perm others) :
    summarizer.summarize metric samples = summarizer.summarize metric others := by
  unfold summarize
  split
  · exact Statistics.summarize_congr (h.map _) _
  · exact Statistics.summarize_congr h _

theorem summarizeSeries_congr {series others : List (String × List Binary64)}
    (h : List.Forall₂ (fun x y => x.1 = y.1 ∧ x.2.Perm y.2) series others) :
    summarizer.summarizeSeries series = summarizer.summarizeSeries others := by
  have hentries : series.map (fun entry => (entry.1, summarizer.summarize entry.1 entry.2)) =
      others.map fun entry => (entry.1, summarizer.summarize entry.1 entry.2) := by
    induction h with
    | nil => rfl
    | cons hentry _ ih =>
      rw [List.map_cons, List.map_cons, ih, hentry.1, summarize_congr summarizer _ hentry.2]
  rw [summarizeSeries, summarizeSeries, hentries]

/-- A summary does not depend on the order of the samples, bit by bit. The summaries of named series
do not depend on it either, nor on the order of the series if their names are different. Where names
are repeated, the last series of each name is all that counts. -/
theorem summaries_unordered :
    (∀ samples others windowSecs, samples.Perm others →
      Statistics.summarize samples windowSecs = Statistics.summarize others windowSecs) ∧
    ∀ series : List (String × List Binary64),
      (∀ others, List.Forall₂ (fun x y => x.1 = y.1 ∧ x.2.Perm y.2) series others →
        summarizer.summarizeSeries series = summarizer.summarizeSeries others) ∧
      (∀ others, (series.map Prod.fst).Nodup → series.Perm others →
        summarizer.summarizeSeries series = summarizer.summarizeSeries others) ∧
      summarizer.summarizeSeries series =
        summarizer.summarizeSeries (SortedMap.lastOfEachKey series) := by
  refine ⟨fun samples others windowSecs h => Statistics.summarize_congr h windowSecs,
    fun series => ⟨fun others h => summarizeSeries_congr summarizer h,
      fun others hnames h => ?_, ?_⟩⟩
  · have hkeys : ((series.map fun entry => (entry.1, summarizer.summarize entry.1 entry.2)).map
        Prod.fst).Nodup := by
      rw [List.map_map]
      exact hnames
    exact SortedMap.ofList_congr hkeys (h.map _)
  · rw [summarizeSeries, summarizeSeries, ← SortedMap.lastOfEachKey_map,
      SortedMap.ofList_lastOfEachKey]

/-- A repeated name, samples in two orders, and series in two orders. -/
theorem summaries_unordered_repeated :
    let summarizer : Summarizer := { scale := SortedMap.empty.insert "latency" Binary64.nan }
    let samples : List Binary64 := [.one, .invalid, .zero]
    let others : List Binary64 := [.zero, .one, .invalid]
    Statistics.summarize samples 300 = Statistics.summarize others 300 ∧
      summarizer.summarizeSeries [("latency", []), ("cpu", samples), ("latency", samples)] =
        summarizer.summarizeSeries [("latency", others), ("cpu", samples)] := by
  intro summarizer samples others
  have hperm : samples.Perm others := by decide
  obtain ⟨hsamples, hseries⟩ := summarizer.summaries_unordered
  obtain ⟨-, -, hlast⟩ := hseries [("latency", []), ("cpu", samples), ("latency", samples)]
  obtain ⟨-, hswap, -⟩ := hseries [("cpu", samples), ("latency", samples)]
  obtain ⟨hinside, -, -⟩ := hseries [("latency", samples), ("cpu", samples)]
  refine ⟨hsamples _ _ 300 hperm, ?_⟩
  calc summarizer.summarizeSeries [("latency", []), ("cpu", samples), ("latency", samples)]
    _ = summarizer.summarizeSeries [("cpu", samples), ("latency", samples)] := hlast
    _ = summarizer.summarizeSeries [("latency", samples), ("cpu", samples)] :=
      hswap _ (by decide) (List.Perm.swap _ _ _)
    _ = summarizer.summarizeSeries [("latency", others), ("cpu", samples)] :=
      hinside _ (.cons ⟨rfl, hperm⟩ (.cons ⟨rfl, List.Perm.refl _⟩ .nil))

end Summarizer

end RevisionLedger
