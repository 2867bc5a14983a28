import Mathlib.Data.List.Sort
import Mathlib.Data.String.Basic
import Mathlib.Tactic
import Multitrack.Proofs.Lookup

/-! # Signatures are canonical

The names of a signature are increasing lists, so that each of them is listed once and the list is
known when its members are. The guard is known when the tokens are that it stands above. A signature
therefore depends on the letters and states that occur in the transitions, and neither on their
order nor on how often they occur. -/
namespace Multitrack

/-! ## Increasing names -/

theorem isLE_compare_iff {s t : String} : (compare s t).isLE = true ↔ s ≤ t :=
  Ordering.isLE_iff_ne_gt.trans compare_le_iff_le

theorem pairwise_insertName (s : String) {names : List String} (h : names.Pairwise (· < ·)) :
    (insertName s names).Pairwise (· < ·) := by
  induction names with
  | nil => exact List.pairwise_singleton _ s
  | cons t rest ih =>
    obtain ⟨hleast, hrest⟩ := List.pairwise_cons.mp h
    rw [insertName]
    split
    · rename_i hlt
      refine List.pairwise_cons.mpr ⟨fun u hu => ?_, h⟩
      rcases List.mem_cons.mp hu with rfl | hu
      · exact hlt
      · exact lt_trans hlt (hleast u hu)
    · rename_i hge
      split
      · exact h
      · rename_i hne
        refine List.pairwise_cons.mpr ⟨fun u hu => ?_, ih hrest⟩
        rcases mem_insertName.mp hu with rfl | hu
        · exact lt_of_le_of_ne (not_lt.mp hge) (Ne.symm hne)
        · exact hleast u hu

theorem pairwise_sortedNames (names : List String) : (sortedNames names).Pairwise (· < ·) := by
  induction names with
  | nil => exact List.Pairwise.nil
  | cons s rest ih => exact pairwise_insertName s ih

theorem nodup_sortedNames (names : List String) : (sortedNames names).Nodup :=
  (pairwise_sortedNames names).imp ne_of_lt

/-- Sorted names are known by their members. -/
theorem sortedNames_congr {names names' : List String} (h : ∀ s, s ∈ names ↔ s ∈ names') :
    sortedNames names = sortedNames names' := by
  refine (pairwise_sortedNames names).eq_of_mem_iff (pairwise_sortedNames names') fun s => ?_
  rw [mem_sortedNames, mem_sortedNames, h]

/-- A guard is known by the tokens that it stands above. -/
theorem Guard.above_congr {tokens tokens' : List String} (h : ∀ s, s ∈ tokens ↔ s ∈ tokens') :
    Guard.above tokens = Guard.above tokens' := by
  have hle : ∀ {tokens tokens' : List String}, (∀ s ∈ tokens, s ∈ tokens') →
      (Guard.above tokens).depth ≤ (Guard.above tokens').depth := by
    intro tokens tokens' hsub
    refine depth_above_le_iff.mpr fun s hs => ?_
    exact Nat.le_of_lt_succ (openParens_lt_above (hsub s hs))
  have hdepth := Nat.le_antisymm (hle fun s hs => (h s).mp hs) (hle fun s hs => (h s).mpr hs)
  exact Guard.mk.injEq .. ▸ hdepth

/-! ## Signatures of listings -/

namespace Signature

structure Distinct (sig : Signature) : Prop where
  alphabet : sig.alphabet.Nodup
  states : sig.states.Nodup

theorem distinct_ofTransitions (ts : List Transition) : (ofTransitions ts).Distinct where
  alphabet := List.nodup_cons.mpr ⟨(proper_ofTransitions ts).blank_not_mem, nodup_sortedNames _⟩
  states := nodup_sortedNames _

/-- A signature is known by the letters and the states that occur. -/
theorem ofTransitions_congr {ts ts' : List Transition}
    (hletters : ∀ s, (∃ t ∈ ts, s ∈ t.letters) ↔ ∃ t ∈ ts', s ∈ t.letters)
    (hstates : ∀ q, (∃ t ∈ ts, q ∈ t.states) ↔ ∃ t ∈ ts', q ∈ t.states) :
    ofTransitions ts = ofTransitions ts' := by
  have hnonBlank : (ofTransitions ts).nonBlank = (ofTransitions ts').nonBlank := by
    refine sortedNames_congr fun s => ?_
    simp only [List.mem_filter, List.mem_flatMap, hletters]
  have hall : (ofTransitions ts).states = (ofTransitions ts').states := by
    refine sortedNames_congr fun q => ?_
    simp only [List.mem_cons, List.mem_flatMap, hstates]
  have hguard : (ofTransitions ts).guard = (ofTransitions ts').guard := by
    refine Guard.above_congr fun s => ?_
    simp only [List.mem_append, List.mem_flatMap, hletters, hstates]
  exact Signature.mk.injEq .. ▸ ⟨congrArg (blank :: ·) hnonBlank, hnonBlank, hall, hguard⟩

end Signature

/-- Listings with the same transitions have the same signature. -/
theorem ofTransitions_eq_of_mem_iff {ts ts' : List Transition} (h : ∀ t, t ∈ ts ↔ t ∈ ts') :
    Signature.ofTransitions ts = Signature.ofTransitions ts' :=
  Signature.ofTransitions_congr (fun s => by simp only [h]) (fun q => by simp only [h])

end Multitrack
