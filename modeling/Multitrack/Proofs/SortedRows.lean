import Mathlib.Data.List.Duplicate
import Mathlib.Tactic
import Multitrack.Proofs.Signatures

/-! # Rows by state and letter

A table shows its rows by state, and those of a state sorted by letter. Sorting leaves rows for one
letter in the order of the table. A search by state, and then for the first letter that is not below
the one sought, therefore finds what a scan of the table finds. And the check of a table, which goes
from each letter of a state straight to the next greater one, passes over no letter. -/
namespace Multitrack

/-! ## Sorted lists -/

/-- Sorting leaves elements that are equal in the order in the places they had among themselves. -/
theorem filter_mergeSort {α : Type} {le : α → α → Bool} {p : α → Bool}
    (trans : ∀ a b c, le a b = true → le b c = true → le a c = true)
    (total : ∀ a b, (le a b || le b a) = true)
    (heq : ∀ a b, p a = true → p b = true → le a b = true) (l : List α) :
    (l.mergeSort le).filter p = l.filter p := by
  have hsorted : (l.filter p).Pairwise fun a b => le a b = true :=
    List.pairwise_of_forall_mem_list fun a ha b hb =>
      heq a b (List.mem_filter.mp ha).2 (List.mem_filter.mp hb).2
  have hsub := (List.sublist_mergeSort trans total hsorted List.filter_sublist).filter p
  simp only [List.filter_filter, Bool.and_self] at hsub
  exact (hsub.eq_of_length ((List.mergeSort_perm l le).filter p).length_eq.symm).symm

/-- In a sorted list the first element that is not below a key has the key, or no element has. -/
theorem lowerBound_eq_find? {α κ : Type} [Ord κ] [Std.TransOrd κ] [Std.LawfulEqOrd κ] [DecidableEq κ]
    {key : α → κ} {items : List α}
    (h : items.Pairwise fun a b => (compare (key a) (key b)).isLE = true) (k : κ) :
    (items.find? fun a => (compare k (key a)).isLE).filter (fun a => key a = k) =
      items.find? fun a => key a = k := by
  induction items with
  | nil => rfl
  | cons a rest ih =>
    obtain ⟨hleast, hrest⟩ := List.pairwise_cons.mp h
    cases hk : compare k (key a) with
    | eq =>
      have heq : key a = k := (Std.LawfulEqOrd.eq_of_compare hk).symm
      simp [heq]
    | gt =>
      have hne : key a ≠ k := by
        rintro rfl
        simp at hk
      simpa [hk, hne] using ih hrest
    | lt =>
      -- everything from here on is above the key
      have hne : ∀ b ∈ a :: rest, key b ≠ k := by
        intro b hb he
        rcases List.mem_cons.mp hb with rfl | hb
        · simp [he] at hk
        · have hle := hleast b hb
          rw [he, Std.OrientedOrd.eq_swap, hk] at hle
          cases hle
      have hnone : ((a :: rest).find? fun b => key b = k) = none := by simpa using hne
      rw [hnone, List.find?_cons_of_pos (by simp [hk])]
      simp [hne a List.mem_cons_self]

/-! ## The rows of a state -/

namespace Table

theorem isLE_read_trans (r r' r'' : Row) (h : (compare r.read r'.read).isLE = true)
    (h' : (compare r'.read r''.read).isLE = true) : (compare r.read r''.read).isLE = true :=
  Std.TransCmp.isLE_trans h h'

theorem isLE_read_total (r r' : Row) :
    ((compare r.read r'.read).isLE || (compare r'.read r.read).isLE) = true := by
  rw [Std.OrientedOrd.eq_swap (a := r'.read)]
  cases compare r.read r'.read <;> rfl

theorem pairwise_rowsFrom (t : Table) (q : StateName) :
    (t.rowsFrom q).Pairwise fun r r' => (compare r.read r'.read).isLE = true :=
  List.pairwise_mergeSort isLE_read_trans isLE_read_total _

/-- Rows for one state and letter stand by each other in the order of the table. -/
theorem filter_rowsFrom (t : Table) (q : StateName) (s : Letter) :
    (t.rowsFrom q).filter (fun r => r.read = s) = t.rows.filter fun r => r.key = ⟨q, s⟩ := by
  have hsort := filter_mergeSort (p := fun r : Row => r.read = s)
    isLE_read_trans isLE_read_total
    (fun r r' hr hr' => by simp [of_decide_eq_true hr, of_decide_eq_true hr'])
    (t.rows.filter fun r => r.state = q)
  rw [rowsFrom, hsort, List.filter_filter]
  refine List.filter_congr fun r _ => ?_
  rw [decide_eq_decide.mpr Row.key_eq_iff, Bool.decide_and, Bool.and_comm]

theorem find?_rowsByState (t : Table) (q : StateName) :
    (t.rowsByState.find? fun x => x.1 = q) =
      if q ∈ sortedNames (t.rows.map Row.state) then some (q, t.rowsFrom q) else none := by
  rw [rowsByState, List.find?_map]
  cases hfind : (sortedNames (t.rows.map Row.state)).find?
      ((fun x : StateName × List Row => decide (x.1 = q)) ∘ fun q' => (q', t.rowsFrom q')) with
  | none =>
    rw [if_neg fun hq => List.find?_eq_none.mp hfind q hq (by simp)]
    rfl
  | some q' =>
    obtain rfl : q' = q := by simpa using List.find?_some hfind
    rw [if_pos (List.mem_of_find?_eq_some hfind)]
    rfl

/-- **A search among the sorted rows finds what a scan of the table finds.** -/
theorem search_eq_find? (t : Table) (q : StateName) (s : Letter) :
    t.search q s = t.rows.find? fun r => r.key = ⟨q, s⟩ := by
  rw [search, find?_rowsByState]
  split
  · rw [Option.bind_some, lowerBound_eq_find? (t.pairwise_rowsFrom q), ← List.head?_filter,
      filter_rowsFrom, List.head?_filter]
  · rename_i hq
    rw [Option.bind_none, eq_comm, List.find?_eq_none]
    intro r hr hkey
    obtain ⟨rfl, -⟩ := Row.key_eq_iff.mp (of_decide_eq_true hkey)
    exact hq (mem_sortedNames.mpr (List.mem_map_of_mem hr))

/-- Every row is counted with its state. -/
theorem sum_rowsByState (t : Table) : (t.rowsByState.map fun x => x.2.length).sum = t.size := by
  have hlength : ∀ q, (t.rowsFrom q).length = (t.rows.map Row.state).count q := by
    intro q
    rw [rowsFrom, List.length_mergeSort, ← List.countP_eq_length_filter, List.count, List.countP_map]
    rfl
  have hperm : (sortedNames (t.rows.map Row.state)).Perm (t.rows.map Row.state).dedup :=
    (List.perm_ext_iff_of_nodup (nodup_sortedNames _) (List.nodup_dedup _)).mpr fun q => by
      rw [mem_sortedNames, List.mem_dedup]
  calc (t.rowsByState.map fun x => x.2.length).sum
      = ((sortedNames (t.rows.map Row.state)).map fun q => (t.rows.map Row.state).count q).sum := by
        simp only [rowsByState, List.map_map, Function.comp_def, hlength]
    _ = ((t.rows.map Row.state).dedup.map fun q => (t.rows.map Row.state).count q).sum :=
        (hperm.map _).sum_eq
    _ = t.size := by rw [List.sum_map_count_dedup_eq_length, List.length_map, size]

/-! ## From letter to letter -/

variable {t : Table} {q : StateName} {s : Letter}

/-- More than one of a state's rows is for a letter exactly when the table has their key twice. -/
theorem one_lt_countP_rowsFrom_iff : 1 < (t.rowsFrom q).countP (fun r => r.read = s) ↔
    List.Duplicate ⟨q, s⟩ (t.rows.map Row.key) := by
  have hcount : (t.rowsFrom q).countP (fun r => r.read = s) = (t.rows.map Row.key).count ⟨q, s⟩ := by
    rw [List.countP_eq_length_filter, filter_rowsFrom, ← List.countP_eq_length_filter, List.count,
      List.countP_map]
    rfl
  rw [List.duplicate_iff_two_le_count, hcount]
  rfl

theorem mem_reads_of_duplicate (h : List.Duplicate ⟨q, s⟩ (t.rows.map Row.key)) :
    s ∈ (t.rowsFrom q).map Row.read := by
  have hpos := Nat.zero_lt_of_lt (one_lt_countP_rowsFrom_iff.mpr h)
  obtain ⟨r, hr, hread⟩ := List.countP_pos_iff.mp hpos
  exact List.mem_map.mpr ⟨r, hr, of_decide_eq_true hread⟩

/-- The rows that are skipped are for the letter that was just looked at. -/
theorem find?_upperBound {p : Letter → Bool} {rows : List Row}
    (habove : ∀ r ∈ rows, (compare s r.read).isLE = true) (hs : p s = false) :
    ((upperBound rows s).map Row.read).find? p = (rows.map Row.read).find? p := by
  induction rows with
  | nil => rfl
  | cons r rest ih =>
    unfold upperBound
    rw [List.dropWhile_cons]
    split
    · rename_i hle
      obtain rfl : s = r.read := Std.LawfulEqOrd.eq_of_compare
        (Std.OrientedCmp.isLE_antisymm (habove r List.mem_cons_self) hle)
      rw [List.map_cons, List.find?_cons_of_neg (by simp [hs])]
      exact ih fun r' hr' => habove r' (List.mem_cons_of_mem r hr')
    · rfl

/-- **Going from each letter to the next greater one passes over no letter.** -/
theorem repeatedFrom_eq_find? (rows : List Row) {place : List Row}
    (h : place.Pairwise fun r r' => (compare r.read r'.read).isLE = true) :
    repeatedFrom rows place =
      (place.map Row.read).find? fun s => 1 < rows.countP (fun r => r.read = s) := by
  fun_induction repeatedFrom rows place with
  | case1 => rfl
  | case2 r rest hmore => simp [hmore]
  | case3 r rest hone ih =>
    obtain ⟨hleast, hrest⟩ := List.pairwise_cons.mp h
    rw [ih (hrest.sublist (List.dropWhile_sublist _)), find?_upperBound hleast (by simpa using hone)]
    simp [hone]

theorem stateFault?_eq_none_iff : stateFault? q (t.rowsFrom q) = none ↔
    isHalting q = false ∧ ∀ s, ¬ List.Duplicate ⟨q, s⟩ (t.rows.map Row.key) := by
  have hrepeats : repeatedFrom (t.rowsFrom q) (t.rowsFrom q) = none ↔
      ∀ s, ¬ List.Duplicate ⟨q, s⟩ (t.rows.map Row.key) := by
    rw [repeatedFrom_eq_find? _ (t.pairwise_rowsFrom q), List.find?_eq_none]
    simp only [decide_eq_true_eq, one_lt_countP_rowsFrom_iff]
    constructor
    · intro h s hs
      exact h s (mem_reads_of_duplicate hs) hs
    · intro h s _
      exact h s
  unfold stateFault?
  split
  · rename_i hhalts
    simp [hhalts]
  · rename_i hruns
    rw [Option.map_eq_none_iff, hrepeats]
    simp [hruns]

theorem fault?_eq_findSome? (t : Table) : t.fault? =
    (sortedNames (t.rows.map Row.state)).findSome? fun q => stateFault? q (t.rowsFrom q) := by
  unfold fault? rowsByState
  rw [List.findSome?_map]
  rfl

/-- A table has no fault exactly when no row leaves a halting state and no key is repeated. -/
theorem fault?_eq_none_iff (t : Table) : t.fault? = none ↔
    (∀ r ∈ t.rows, isHalting r.state = false) ∧ (t.rows.map Row.key).Nodup := by
  rw [fault?_eq_findSome?, List.findSome?_eq_none_iff, List.nodup_iff_forall_not_duplicate]
  simp only [mem_sortedNames, stateFault?_eq_none_iff, List.forall_mem_map]
  constructor
  · intro h
    refine ⟨fun r hr => (h r hr).1, fun k hk => ?_⟩
    obtain ⟨r, hr, rfl⟩ := List.mem_map.mp hk.mem
    exact (h r hr).2 r.read hk
  · intro h r hr
    exact ⟨h.1 r hr, fun s => h.2 ⟨r.state, s⟩⟩

theorem fault?_ofRows_eq_none_iff (rows : List Row) : (ofRows rows).fault? = none ↔
    (∀ r ∈ rows, isHalting r.state = false) ∧ (rows.map Row.key).Nodup :=
  fault?_eq_none_iff (ofRows rows)

end Table

end Multitrack
