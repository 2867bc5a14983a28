import Mathlib.Tactic
import Multitrack.Proofs.NameOrder

/-! # What a signature says of a listing

The signature of a listing has the letters and the states that the transitions name, each of them once
and in the order of bytes, and a guard that is one deeper than the most opening parentheses in a name.
Only one signature is like that. It is therefore known when the letters and states are, whatever the
transitions that name them, their order and how often they occur. -/
namespace Multitrack

/-- The letter stands in a read or write field of a transition. -/
def NamesLetter (ts : List Transition) (s : Letter) : Prop :=
  ∃ t ∈ ts, s = t.read1 ∨ s = t.read2 ∨ s = t.write1 ∨ s = t.write2

/-- The state is that of a transition or its target. -/
def NamesState (ts : List Transition) (q : StateName) : Prop :=
  ∃ t ∈ ts, q = t.state ∨ q = t.next

theorem namesLetter_iff {ts : List Transition} {s : Letter} :
    NamesLetter ts s ↔ ∃ t ∈ ts, s ∈ t.letters := by
  simp only [NamesLetter, Transition.letters, List.mem_cons, List.not_mem_nil, or_false]

theorem namesState_iff {ts : List Transition} {q : StateName} :
    NamesState ts q ↔ ∃ t ∈ ts, q ∈ t.states := by
  simp only [NamesState, Transition.states, List.mem_cons, List.not_mem_nil, or_false]

/-! ## Guards -/

namespace Guard

theorem eq_of_depth_eq {g g' : Guard} (h : g.depth = g'.depth) : g = g' := by
  obtain ⟨depth, positive⟩ := g
  subst h
  rfl

/-- A guard is not deeper than some token asks for. -/
theorem depth_above_eq (tokens : List String) :
    (above tokens).depth = 1 ∨ ∃ s ∈ tokens, (above tokens).depth = openParens s + 1 := by
  cases h : (above tokens).depth - 1 with
  | zero =>
    have hpositive := (above tokens).positive
    exact .inl (by omega)
  | succ n =>
    have hdeep : ¬ (above tokens).depth ≤ n + 1 := by omega
    rw [depth_above_le_iff] at hdeep
    push Not at hdeep
    obtain ⟨s, hs, hlt⟩ := hdeep
    have hle := openParens_lt_above hs
    exact .inr ⟨s, hs, by omega⟩

end Guard

/-! ## Signatures -/

namespace Signature

/-- The signature has what the transitions name, each name once and in the order of bytes. The blank
comes before the other letters, and the guard is one deeper than any name asks for. -/
structure Describes (sig : Signature) (ts : List Transition) : Prop where
  alphabet_eq : sig.alphabet = blank :: sig.nonBlank
  nonBlank_increasing : sig.nonBlank.Pairwise fun s s' => nameBytes s < nameBytes s'
  mem_nonBlank : ∀ s, s ∈ sig.nonBlank ↔ NamesLetter ts s ∧ s ≠ blank
  states_increasing : sig.states.Pairwise fun q q' => nameBytes q < nameBytes q'
  mem_states : ∀ q, q ∈ sig.states ↔ q = startState ∨ NamesState ts q
  depth_above : ∀ s, NamesLetter ts s ∨ NamesState ts s → openParens s + 1 ≤ sig.guard.depth
  depth_reached : sig.guard.depth = 1 ∨
    ∃ s, (NamesLetter ts s ∨ NamesState ts s) ∧ sig.guard.depth = openParens s + 1

theorem describes_ofTransitions (ts : List Transition) : (ofTransitions ts).Describes ts := by
  have htoken : ∀ s, s ∈ ts.flatMap Transition.letters ++ ts.flatMap Transition.states ↔
      NamesLetter ts s ∨ NamesState ts s := by
    intro s
    rw [List.mem_append, List.mem_flatMap, List.mem_flatMap, namesLetter_iff, namesState_iff]
  refine ⟨rfl, ?_, fun s => ?_, ?_, fun q => ?_, fun s hs => ?_, ?_⟩
  · exact (pairwise_sortedNames _).imp fun h => strictMono_nameBytes h
  · rw [Signature.mem_nonBlank, namesLetter_iff]
  · exact (pairwise_sortedNames _).imp fun h => strictMono_nameBytes h
  · rw [Signature.mem_states, namesState_iff]
  · exact Guard.openParens_lt_above ((htoken s).mpr hs)
  · rcases Guard.depth_above_eq (ts.flatMap Transition.letters ++ ts.flatMap Transition.states) with
      hone | ⟨s, hs, hdepth⟩
    · exact .inl hone
    · exact .inr ⟨s, (htoken s).mp hs, hdepth⟩

/-- Names in the order of bytes are known by their members. -/
theorem eq_of_increasing {names names' : List String}
    (h : names.Pairwise fun s s' => nameBytes s < nameBytes s')
    (h' : names'.Pairwise fun s s' => nameBytes s < nameBytes s')
    (hmem : ∀ s, s ∈ names ↔ s ∈ names') : names = names' := by
  have hlt : ∀ {s s' : String}, nameBytes s < nameBytes s' → s < s' :=
    strictMono_nameBytes.lt_iff_lt.mp
  exact (h.imp hlt).eq_of_mem_iff (h'.imp hlt) hmem

theorem Describes.depth_le {sig sig' : Signature} {ts : List Transition} (h : sig.Describes ts)
    (h' : sig'.Describes ts) : sig.guard.depth ≤ sig'.guard.depth := by
  rcases h.depth_reached with hone | ⟨s, hs, hdepth⟩
  · rw [hone]
    exact sig'.guard.positive
  · rw [hdepth]
    exact h'.depth_above s hs

/-- No two signatures describe the same listing. -/
theorem Describes.unique {sig sig' : Signature} {ts : List Transition} (h : sig.Describes ts)
    (h' : sig'.Describes ts) : sig = sig' := by
  have hnonBlank : sig.nonBlank = sig'.nonBlank :=
    eq_of_increasing h.nonBlank_increasing h'.nonBlank_increasing fun s => by
      rw [h.mem_nonBlank, h'.mem_nonBlank]
  have hstates : sig.states = sig'.states :=
    eq_of_increasing h.states_increasing h'.states_increasing fun q => by
      rw [h.mem_states, h'.mem_states]
  have hguard : sig.guard = sig'.guard :=
    Guard.eq_of_depth_eq (le_antisymm (h.depth_le h') (h'.depth_le h))
  have halphabet : sig.alphabet = sig'.alphabet := by
    rw [h.alphabet_eq, h'.alphabet_eq, hnonBlank]
  exact Signature.mk.injEq .. ▸ ⟨halphabet, hnonBlank, hstates, hguard⟩

/-- **Signatures are canonical.** The signature of a listing is the only one that has the blank before
the other letters that the transitions read and write, these once each and in the order of bytes, the
start state and the named states in the same way, and a guard that is one deeper than the largest number
of opening parentheses in a name. It is the same for listings that name the same letters and states, and
so it does not depend on the order of the transitions or on how often they are repeated. -/
theorem ofTransitions_canonical :
    (∀ (ts : List Transition) (sig : Signature), ofTransitions ts = sig ↔ sig.Describes ts) ∧
    (∀ ts ts' : List Transition, (∀ s, NamesLetter ts s ↔ NamesLetter ts' s) →
      (∀ q, NamesState ts q ↔ NamesState ts' q) → ofTransitions ts = ofTransitions ts') ∧
    ∀ ts ts' : List Transition, (∀ t, t ∈ ts ↔ t ∈ ts') → ofTransitions ts = ofTransitions ts' := by
  refine ⟨fun ts sig => ⟨?_, fun h => (describes_ofTransitions ts).unique h⟩, ?_,
    fun ts ts' h => ofTransitions_eq_of_mem_iff h⟩
  · rintro rfl
    exact describes_ofTransitions ts
  · intro ts ts' hletters hstates
    simp only [namesLetter_iff, namesState_iff] at hletters hstates
    exact ofTransitions_congr hletters hstates

/-- A transition, and another one that names the same letters and states in other fields. The letter
`(a` comes before the blank in the order of bytes, and `é` after every ASCII character. -/
def crossed : Transition × Transition :=
  (⟨startState, "(a", blank, "é", "b", "b", .left, .stay⟩,
    ⟨"é", "b", "(a", startState, blank, "(a", .right, .right⟩)

theorem ofTransitions_canonical_crossed :
    (∀ s, NamesLetter [crossed.1] s ↔ NamesLetter [crossed.2, crossed.2] s) ∧
    (∀ q, NamesState [crossed.1] q ↔ NamesState [crossed.2, crossed.2] q) ∧
    ofTransitions [crossed.1] = ofTransitions [crossed.2, crossed.2] ∧
    Describes ⟨[blank, "(a", "b"], ["(a", "b"], [startState, "é"], ⟨2, Nat.two_pos⟩⟩ [crossed.1] := by
  have hletters : ∀ s, NamesLetter [crossed.1] s ↔ NamesLetter [crossed.2, crossed.2] s := by
    intro s
    simp only [NamesLetter, crossed, List.mem_cons, List.not_mem_nil, or_false, or_self,
      exists_eq_left]
    grind
  have hstates : ∀ q, NamesState [crossed.1] q ↔ NamesState [crossed.2, crossed.2] q := by
    intro q
    simp only [NamesState, crossed, List.mem_cons, List.not_mem_nil, or_false, or_self,
      exists_eq_left]
    exact or_comm
  obtain ⟨hexact, hsame, -⟩ := ofTransitions_canonical
  exact ⟨hletters, hstates, hsame _ _ hletters hstates, (hexact _ _).mp (by decide +kernel)⟩

end Signature

end Multitrack
