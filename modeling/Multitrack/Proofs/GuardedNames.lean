import Mathlib.Tactic
import Multitrack.Proofs.Lookup
import Multitrack.TwoTape.Listing

/-! # Names and tokens stay apart

The names that the construction makes up are counted against the texts that have a meaning already:
the tokens of the machine, the blank and the three fixed states. A guard stands above all of these,
and a name holds at least the parentheses of its guard, so no name is mistaken for a token. Among
themselves names are told apart by what they are wrapped around, under a guard of any depth. -/
namespace Multitrack

namespace Guard

variable (g : Guard)

/-- Every cell but a plain one has a guarded name. -/
theorem depth_le_openParens_cell {c : Cell} (h : c.kind ≠ .plain) :
    g.depth ≤ openParens (g.cell c) := by
  unfold cell
  split
  · rename_i hk
    exact absurd hk h
  · exact g.depth_le_openParens_wrap _ _
  · split <;> exact g.depth_le_openParens_wrap _ _

/-- Every control state but a fixed one has a guarded name. -/
theorem depth_le_openParens_control {c : Control} (h : c.phase.fixed = false) :
    g.depth ≤ openParens (g.control c) := by
  rw [g.control_eq_wrap h]
  exact g.depth_le_openParens_wrap _ _

end Guard

/-- A text that has a meaning before any name is made up: a field of a transition, the blank, or a
fixed state. -/
def Taken (ts : List Transition) (s : String) : Prop :=
  (∃ t ∈ ts, s ∈ t.fields) ∨ s ∈ [blank, startState, acceptState, rejectState]

/-- The guard of a machine stands above every text that is taken. -/
theorem Taken.openParens_lt {ts : List Transition} {s : String} (h : Taken ts s) :
    openParens s < (Signature.ofTransitions ts).guard.depth := by
  have hnone : ∀ {s : String}, openParens s = 0 →
      openParens s < (Signature.ofTransitions ts).guard.depth := by
    intro s hs
    rw [hs]
    exact (Signature.ofTransitions ts).guard.positive
  have hdir : ∀ d : Dir, openParens d.letter = 0 := by
    intro d
    cases d <;> decide
  rcases h with ⟨t, ht, hs⟩ | hs
  · rcases Transition.mem_fields.mp hs with hs | hs | rfl | rfl
    · exact Guard.openParens_lt_above
        (List.mem_append_left _ (List.mem_flatMap.mpr ⟨t, ht, hs⟩))
    · exact Guard.openParens_lt_above
        (List.mem_append_right _ (List.mem_flatMap.mpr ⟨t, ht, hs⟩))
    · exact hnone (hdir t.dir1)
    · exact hnone (hdir t.dir2)
  · simp only [List.mem_cons, List.not_mem_nil, or_false] at hs
    rcases hs with rfl | rfl | rfl | rfl <;> exact hnone (by decide)

/-- **Names are told apart and never taken.** Under a guard of any depth, cells have equal names
only if they are equal, as long as the letters of plain cells stay below the guard, and so have
control states of the construction. A made-up name holds at least as many parentheses as the guard
is deep. With the guard of a machine it is therefore no field of a transition, nor the blank, nor a
fixed state. -/
theorem names_distinct_and_fresh (g : Guard) :
    (∀ c c' : Cell, g.Covers c → g.Covers c' → (g.cell c = g.cell c' ↔ c = c')) ∧
    (∀ c c' : Control, c.Regular → c'.Regular → (g.control c = g.control c' ↔ c = c')) ∧
    (∀ c : Cell, c.kind ≠ .plain → g.depth ≤ openParens (g.cell c)) ∧
    (∀ c : Control, c.phase.fixed = false → g.depth ≤ openParens (g.control c)) ∧
    ∀ ts : List Transition, g = (Signature.ofTransitions ts).guard → ∀ s, Taken ts s →
      (∀ c : Cell, c.kind ≠ .plain → g.cell c ≠ s) ∧
        ∀ c : Control, c.phase.fixed = false → g.control c ≠ s := by
  refine ⟨?_, ?_, fun c => g.depth_le_openParens_cell, fun c => g.depth_le_openParens_control, ?_⟩
  · intro c c' hc hc'
    exact ⟨g.cell_injective hc hc', congrArg g.cell⟩
  · intro c c' hc hc'
    exact ⟨g.control_injective hc hc', congrArg g.control⟩
  · rintro ts rfl s hs
    have hlt := hs.openParens_lt
    refine ⟨fun c hc he => ?_, fun c hc he => ?_⟩
    · exact absurd (he ▸ Guard.depth_le_openParens_cell _ hc) (Nat.not_le.mpr hlt)
    · exact absurd (he ▸ Guard.depth_le_openParens_control _ hc) (Nat.not_le.mpr hlt)

/-- A machine whose tokens are the names that a guard of depth one would give. -/
def impostor : List Transition :=
  [⟨startState, "(sentinel)", "a,b", "(locate)", "(cell:a,b,-)", "a\\", .right, .stay⟩]

theorem names_distinct_and_fresh_impostor :
    let g := (Signature.ofTransitions impostor).guard
    g.cell (.tracked "a,b" "a" .none) ≠ g.cell (.tracked "a" "b,a" .none) ∧
      g.control (.locating (-1) ["a\\", "b"]) ≠ g.control (.locating (-1) ["a\\,b"]) ∧
      g.cell .sentinel ≠ "(sentinel)" ∧ g.control (.locating 0 []) ≠ "(locate)" := by
  intro g
  obtain ⟨hcell, hcontrol, -, -, hfresh⟩ := names_distinct_and_fresh g
  refine ⟨fun h => ?_, fun h => ?_, ?_, ?_⟩
  · exact absurd ((hcell _ _ (.tracked ..) (.tracked ..)).mp h) (by decide)
  · have hregular : ∀ letters, (Control.locating (-1) letters).Regular := fun _ => rfl
    exact absurd ((hcontrol _ _ (hregular _) (hregular _)).mp h) (by decide)
  · exact (hfresh impostor rfl _ (.inl ⟨_, List.mem_cons_self, by decide⟩)).1 _ nofun
  · exact (hfresh impostor rfl _ (.inl ⟨_, List.mem_cons_self, by decide⟩)).2 _ rfl

end Multitrack
