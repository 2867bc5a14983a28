import Mathlib.Tactic
import Multitrack.Proofs.Execution
import Multitrack.Proofs.Sizes

/-! # Rearranged listings

The reduction of a list of transitions depends on which transitions occur in it. Its signature is
canonical, repeated transitions enter no new rule, and their order shows only in the order of the
rules that fire. Where transitions that match the same are equal, a search by key finds the same in
every order, so that the machines of two such lists, and those of their reductions, are the same. -/
namespace Multitrack

/-! ## Searching -/

/-- Where at most one member passes a test, a search finds the same in every order. -/
theorem find?_congr_of_mem_iff {α : Type} {l l' : List α} {p : α → Bool}
    (hmem : ∀ a, a ∈ l ↔ a ∈ l')
    (hunique : ∀ a ∈ l, ∀ b ∈ l, p a = true → p b = true → a = b) : l.find? p = l'.find? p := by
  cases h : l.find? p with
  | none =>
    rw [List.find?_eq_none] at h
    exact (List.find?_eq_none.mpr fun a ha => h a ((hmem a).mpr ha)).symm
  | some a =>
    have ha := List.mem_of_find?_eq_some h
    have hp := List.find?_some h
    cases h' : l'.find? p with
    | none => exact absurd hp (List.find?_eq_none.mp h' a ((hmem a).mp ha))
    | some b =>
      have hb := (hmem b).mpr (List.mem_of_find?_eq_some h')
      rw [hunique a ha b hb hp (List.find?_some h')]

/-- Rows among which every key finds the same are one machine. -/
theorem Table.machine_ofRows_congr {rows rows' : List Row}
    (h : ∀ k, (rows.find? fun r => r.key = k) = rows'.find? fun r => r.key = k) :
    (ofRows rows).machine = (ofRows rows').machine := by
  have hnext : (ofRows rows).index.next? = (ofRows rows').index.next? := by
    funext q tape
    rw [next?_index, next?_index, ofRows, ofRows, h]
  rw [machine, Index.machine, hnext, machine, Index.machine]

/-- Lists in which every key finds the same transition are one machine. -/
theorem TwoTape.machine_congr {ts ts' : List Transition}
    (h : ∀ k, (ts.find? fun t => t.key = k) = ts'.find? fun t => t.key = k) :
    machine ts = machine ts' := by
  have hnext : (index ts).next? = (index ts').next? := by
    funext q tapes
    rw [next?_index, next?_index, h]
  rw [machine, Index.machine, hnext, machine, Index.machine]

/-! ## The rows of a reduction -/

def fireRows (ts : List Transition) : List Row :=
  (fireRules ts).map (Signature.ofTransitions ts).guard.row

theorem reduce_eq_parts (ts : List Transition) :
    reduce ts = ((Signature.ofTransitions ts).layoutRules ++
        (Signature.ofTransitions ts).locateRules).map (Signature.ofTransitions ts).guard.row
      ++ fireRows ts
      ++ (Signature.ofTransitions ts).moveRules.map (Signature.ofTransitions ts).guard.row := by
  rw [reduce_eq_map, toList_rules_bookOf, List.map_append, List.map_append, fireRows]

/-- Repeating a transition changes nothing. -/
theorem reduce_eraseDups (ts : List Transition) : reduce ts.eraseDups = reduce ts := by
  have hsig : Signature.ofTransitions ts.eraseDups = Signature.ofTransitions ts :=
    ofTransitions_eq_of_mem_iff fun _ => List.mem_eraseDups
  have hfire : fireRules ts.eraseDups = fireRules ts := eraseDups_filterMap_eraseDups _ ts
  rw [reduce_eq_parts, reduce_eq_parts, fireRows, fireRows, hsig, hfire]

section SameTransitions

variable {ts ts' : List Transition} (h : ∀ t, t ∈ ts ↔ t ∈ ts')
include h

theorem perm_fireRules : (fireRules ts).Perm (fireRules ts') := by
  refine (List.perm_ext_iff_of_nodup (nodup_fireRules ts) (nodup_fireRules ts')).mpr fun r => ?_
  simp only [mem_fireRules, h]

theorem perm_fireRows : (fireRows ts).Perm (fireRows ts') := by
  rw [fireRows, fireRows, ← ofTransitions_eq_of_mem_iff h]
  exact (perm_fireRules h).map _

/-- The order of the transitions shows in the rows that fire and nowhere else. -/
theorem reduce_eq_parts_of_mem_iff :
    reduce ts' = ((Signature.ofTransitions ts).layoutRules ++
        (Signature.ofTransitions ts).locateRules).map (Signature.ofTransitions ts).guard.row
      ++ fireRows ts'
      ++ (Signature.ofTransitions ts).moveRules.map (Signature.ofTransitions ts).guard.row := by
  rw [reduce_eq_parts, ← ofTransitions_eq_of_mem_iff h]

theorem perm_reduce : (reduce ts).Perm (reduce ts') := by
  rw [reduce_eq_parts, reduce_eq_parts_of_mem_iff h]
  exact ((perm_fireRows h).append_left _).append_right _

/-- Without a conflict the order does not matter to the machine. -/
theorem TwoTape.machine_eq_of_mem_iff (hconflict : TwoTape.conflict? ts = none) :
    TwoTape.machine ts = TwoTape.machine ts' := by
  refine TwoTape.machine_congr fun k => find?_congr_of_mem_iff h fun t ht u hu htk huk => ?_
  rw [decide_eq_true_eq] at htk huk
  exact TwoTape.eq_of_conflict?_eq_none hconflict ht hu (htk.trans huk.symm)

/-- Nor does it to the machine of the reduction, as its rows have keys of their own. -/
theorem emulator_eq_of_mem_iff (hconflict : TwoTape.conflict? ts = none) :
    emulator ts = emulator ts' := by
  have hkeys : ((reduce ts).map Row.key).Nodup :=
    ((Table.fault?_ofRows_eq_none_iff _).mp (fault?_reduce_eq_none hconflict)).2
  have hfind : ∀ k, ((reduce ts).find? fun row => row.key = k) =
      (reduce ts').find? fun row => row.key = k := by
    intro k
    refine find?_congr_of_mem_iff (fun row => (perm_reduce h).mem_iff) fun row hrow row' hrow' hk hk' => ?_
    rw [decide_eq_true_eq] at hk hk'
    exact List.inj_on_of_nodup_map hkeys hrow hrow' (hk.trans hk'.symm)
  rw [emulator, emulator, Table.machine_ofRows_congr hfind]

end SameTransitions

/-- **The reduction depends on the set of transitions.** Leaving out later repetitions changes no row.
Two lists with the same transitions have reductions that differ in the order of the rows that fire,
and the same statistics but for repetitions and transitions that are skipped. If the transitions
have no conflict, runs of the two lists have the same outcomes, and so have runs of their
reductions. -/
theorem reduce_depends_on_set :
    (∀ ts : List Transition, reduce ts.eraseDups = reduce ts) ∧
    ∀ ts ts' : List Transition, (∀ t, t ∈ ts ↔ t ∈ ts') →
      (reduce ts).Perm (reduce ts') ∧
      (∃ before fire fire' after : List Row, reduce ts = before ++ fire ++ after ∧
        reduce ts' = before ++ fire' ++ after ∧ fire.Perm fire' ∧
        ∀ row ∈ fire, ∃ t ∈ ts, ∃ r, t.fireRule? = some r ∧
          row = (Signature.ofTransitions ts).guard.row r) ∧
      (Reduction.ofTransitions ts').statistics =
        { (Reduction.ofTransitions ts).statistics with
          duplicates := (Reduction.ofTransitions ts').statistics.duplicates
          skipped := (Reduction.ofTransitions ts').statistics.skipped } ∧
      (TwoTape.conflict? ts = none → ∀ (limit : Int) (input : List Letter),
        (emulator ts).run limit input = (emulator ts').run limit input ∧
        (TwoTape.machine ts).run limit input = (TwoTape.machine ts').run limit input) := by
  refine ⟨reduce_eraseDups, fun ts ts' h => ⟨perm_reduce h, ?_, ?_, fun hconflict limit input => ?_⟩⟩
  · refine ⟨_, _, _, _, reduce_eq_parts ts, reduce_eq_parts_of_mem_iff h, perm_fireRows h, ?_⟩
    intro row hrow
    obtain ⟨r, hr, rfl⟩ := List.mem_map.mp hrow
    obtain ⟨t, ht, hfire⟩ := mem_fireRules.mp hr
    exact ⟨t, ht, r, hfire, rfl⟩
  · rw [statistics_ofTransitions ts', statistics_ofTransitions ts, ofTransitions_eq_of_mem_iff h,
      (perm_fireRules h).length_eq]
  · rw [emulator_eq_of_mem_iff h hconflict, TwoTape.machine_eq_of_mem_iff h hconflict]
    exact ⟨rfl, rfl⟩

def marking : List Transition :=
  [⟨startState, "a", blank, "marked", "b", "a", .right, .stay⟩,
    ⟨"marked", blank, "a", acceptState, blank, "a", .left, .left⟩,
    ⟨acceptState, "a", "a", startState, "a", "a", .stay, .stay⟩]

theorem reduce_depends_on_set_marking :
    (∀ t, t ∈ marking ↔ t ∈ marking.reverse ++ marking) ∧ TwoTape.conflict? marking = none ∧
      (emulator marking).run 100 ["a"] = (emulator (marking.reverse ++ marking)).run 100 ["a"] := by
  have hmem : ∀ t, t ∈ marking ↔ t ∈ marking.reverse ++ marking := by
    intro t
    rw [List.mem_append, List.mem_reverse, or_self]
  have hconflict : TwoTape.conflict? marking = none := by decide +kernel
  exact ⟨hmem, hconflict, ((reduce_depends_on_set.2 _ _ hmem).2.2.2 hconflict 100 ["a"]).1⟩

end Multitrack
