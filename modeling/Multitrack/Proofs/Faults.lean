import Mathlib.Tactic
import Multitrack.Proofs.NameOrder
import Multitrack.Proofs.SortedRows

/-! # What the check of a table reports

A state offends against soundness if it halts and has rows, or if two of its rows are for one letter.
The check goes through the states in order, and through the letters of each, and stops at the first
offence. So it passes exactly when no state offends, and otherwise reports the least state that does,
in the order of bytes: as a halting state if it is one, and else with the least letter that more than
one of its rows is for. -/
namespace Multitrack.Table

variable {rows : List Row} {q : StateName} {s : Letter}

/-- Rows at two places are for the state and the letter; the rows may be equal. -/
def Repeated (rows : List Row) (q : StateName) (s : Letter) : Prop :=
  ∃ i j : Fin rows.length, i < j ∧ rows[i].key = ⟨q, s⟩ ∧ rows[j].key = ⟨q, s⟩

/-- The state halts and has rows, or has more than one row for some letter. -/
def Offends (rows : List Row) (q : StateName) : Prop :=
  (isHalting q = true ∧ ∃ r ∈ rows, r.state = q) ∨ ∃ s, Repeated rows q s

/-- The fault that there is to report. -/
inductive Blames (rows : List Row) : Fault → Prop
  | halting {q : StateName} (least : LeastName (Offends rows) q) (halts : isHalting q = true) :
      Blames rows (.halting q)
  | repeated {q : StateName} {s : Letter} (least : LeastName (Offends rows) q)
      (runs : isHalting q = false) (letter : LeastName (Repeated rows q) s) :
      Blames rows (.repeated q s)

theorem Blames.unique {fault fault' : Fault} (h : Blames rows fault) (h' : Blames rows fault') :
    fault = fault' := by
  cases h with
  | halting least halts =>
    cases h' with
    | halting least' _ => rw [least.unique least']
    | repeated least' runs _ =>
      rw [least.unique least', runs] at halts
      cases halts
  | repeated least runs letter =>
    cases h' with
    | halting least' halts =>
      rw [least.unique least', halts] at runs
      cases runs
    | repeated least' _ letter' =>
      obtain rfl := least.unique least'
      rw [letter.unique letter']

theorem Blames.exists_offends {fault : Fault} (h : Blames rows fault) : ∃ q, Offends rows q := by
  cases h with
  | halting least _ => exact ⟨_, least.holds⟩
  | repeated least _ _ => exact ⟨_, least.holds⟩

theorem repeated_iff_duplicate :
    Repeated rows q s ↔ List.Duplicate ⟨q, s⟩ (rows.map Row.key) := by
  rw [List.duplicate_iff_exists_distinct_get]
  constructor
  · intro h
    obtain ⟨i, j, hij, hi, hj⟩ := h
    refine ⟨i.cast (by simp), j.cast (by simp), hij, ?_, ?_⟩
    · simpa using hi.symm
    · simpa using hj.symm
  · intro h
    obtain ⟨i, j, hij, hi, hj⟩ := h
    refine ⟨i.cast (by simp), j.cast (by simp), hij, ?_, ?_⟩
    · simpa using hi.symm
    · simpa using hj.symm

/-- The states at which the walk stops are those that offend. -/
theorem stops_iff_offends : q ∈ sortedNames (rows.map Row.state) ∧
    stateFault? q ((ofRows rows).rowsFrom q) ≠ none ↔ Offends rows q := by
  have hstops : stateFault? q ((ofRows rows).rowsFrom q) ≠ none ↔
      isHalting q = true ∨ ∃ s, Repeated rows q s := by
    rw [Ne, stateFault?_eq_none_iff, not_and_or, Bool.not_eq_false, not_forall_not]
    exact or_congr_right (exists_congr fun _ => repeated_iff_duplicate.symm)
  -- a state with two rows for a letter has rows
  have hmem : ∀ s, Repeated rows q s → ∃ r ∈ rows, r.state = q := by
    intro s hs
    obtain ⟨i, -, -, hi, -⟩ := hs
    exact ⟨rows[i], List.getElem_mem i.isLt, (Row.key_eq_iff.mp hi).1⟩
  rw [hstops, mem_sortedNames, List.mem_map, and_or_left, Offends]
  refine or_congr and_comm ⟨And.right, fun h => ?_⟩
  obtain ⟨s, hs⟩ := h
  exact ⟨hmem s hs, s, hs⟩

/-- The letter at which the walk through a state stops is the least that is repeated. -/
theorem leastName_of_repeatedFrom
    (h : repeatedFrom ((ofRows rows).rowsFrom q) ((ofRows rows).rowsFrom q) = some s) :
    LeastName (Repeated rows q) s := by
  have hsorted := (ofRows rows).pairwise_rowsFrom q
  rw [repeatedFrom_eq_find? _ hsorted, List.find?_eq_findSome?_guard] at h
  have hnames : (((ofRows rows).rowsFrom q).map Row.read).Pairwise (· ≤ ·) :=
    List.pairwise_map.mpr (hsorted.imp fun hle => isLE_compare_iff.mp hle)
  obtain ⟨s', hs', hstops⟩ := leastName_of_findSome? hnames h
  obtain ⟨rfl, -⟩ := Option.guard_eq_some_iff.mp hs'
  refine hstops.congr fun s => ?_
  rw [Ne, Option.guard_eq_none_iff, Bool.not_eq_false, decide_eq_true_eq, one_lt_countP_rowsFrom_iff,
    repeated_iff_duplicate]
  exact ⟨And.right, fun hs => ⟨mem_reads_of_duplicate hs, hs⟩⟩

/-- What is reported is there to report. -/
theorem blames_of_fault? {fault : Fault} (h : (ofRows rows).fault? = some fault) :
    Blames rows fault := by
  rw [fault?_eq_findSome?] at h
  obtain ⟨q, hq, hstops⟩ := leastName_of_findSome? ((pairwise_sortedNames _).imp le_of_lt) h
  have hoffends : LeastName (Offends rows) q := hstops.congr fun _ => stops_iff_offends
  unfold stateFault? at hq
  split at hq
  · rename_i hhalts
    cases hq
    exact .halting hoffends hhalts
  · rename_i hruns
    obtain ⟨s, hs, rfl⟩ := Option.map_eq_some_iff.mp hq
    exact .repeated hoffends (Bool.eq_false_iff.mpr hruns) (leastName_of_repeatedFrom hs)

theorem fault?_ne_none_of_offends (h : Offends rows q) : (ofRows rows).fault? ≠ none := by
  rw [fault?_eq_findSome?, Ne, List.findSome?_eq_none_iff]
  intro hnone
  obtain ⟨hmem, hstops⟩ := stops_iff_offends.mpr h
  exact hstops (hnone q hmem)

theorem nodup_keys_iff : (rows.map Row.key).Nodup ↔ ∀ i j : Fin rows.length, i ≠ j →
    ¬ (rows[i].state = rows[j].state ∧ rows[i].read = rows[j].read) := by
  rw [List.nodup_iff_pairwise_ne, List.pairwise_map, List.pairwise_iff_getElem]
  constructor
  · intro h i j hne heq
    have hkey : rows[i].key = rows[j].key := Row.key_eq_iff.mpr heq
    rcases lt_or_gt_of_ne hne with hlt | hlt
    · exact h i j i.isLt j.isLt hlt hkey
    · exact h j i j.isLt i.isLt hlt hkey.symm
  · intro h i j hi hj hij heq
    exact h ⟨i, hi⟩ ⟨j, hj⟩ (Fin.ne_of_lt hij) (Row.key_eq_iff.mp heq)

/-- **The check of a table is exact.** It passes if and only if no row is for a halting state and no two
places of the list have rows for the same state and letter, not even equal rows. If it does not pass, it
reports the least state that offends, in the order of bytes: as a halting state that has rows if it
halts, and otherwise with the least letter for which it has more than one row. -/
theorem fault?_exact (rows : List Row) :
    ((ofRows rows).fault? = none ↔
      (∀ r ∈ rows, r.state ≠ acceptState ∧ r.state ≠ rejectState) ∧
      ∀ i j : Fin rows.length, i ≠ j →
        ¬ (rows[i].state = rows[j].state ∧ rows[i].read = rows[j].read)) ∧
    ∀ fault, (ofRows rows).fault? = some fault ↔ Blames rows fault := by
  refine ⟨?_, fun fault => ⟨blames_of_fault?, fun h => ?_⟩⟩
  · rw [fault?_ofRows_eq_none_iff, nodup_keys_iff]
    simp only [isHalting, Bool.or_eq_false_iff, beq_eq_false_iff_ne]
  · obtain ⟨q, hq⟩ := h.exists_offends
    obtain ⟨fault', hfault'⟩ := Option.ne_none_iff_exists'.mp (fault?_ne_none_of_offends hq)
    rw [hfault', (blames_of_fault? hfault').unique h]

/-- The state `a` comes before the halting states, and the blank before `b`. -/
example : (ofRows [⟨acceptState, blank, "a", blank, .stay⟩, ⟨"a", "b", "a", "b", .left⟩,
    ⟨"a", blank, "a", "b", .left⟩, ⟨"a", "b", "a", "b", .left⟩,
    ⟨"a", blank, acceptState, "b", .left⟩]).fault? = some (.repeated "a" blank) := by
  cbv

end Multitrack.Table
