import Mathlib.Tactic
import Multitrack.Proofs.TapeShape

/-! # Where an emulating run can get stuck

A running machine is stuck when it has no row for its state and the letter it reads. The layout of
an input is never stuck, since it ends in a configuration that is not halted, and a scene of the
emulation is never stuck while it has a turn to take. What is left is the anchor with both letters in
hand, and there a row is missing only if the emulated machine has no transition. -/
namespace Multitrack

def Configuration.Stuck {τ : Type} (m : Machine τ) (c : Configuration τ) : Prop :=
  c.halted = false ∧ m.next? c.state c.tapes = none

theorem Configuration.Stuck.halted_step {τ : Type} {m : Machine τ} {c : Configuration τ}
    (h : c.Stuck m) : (c.step m).halted = true := by
  rw [step_of_stuck h.1 h.2]
  rfl

theorem Configuration.not_stuck_of_running {τ : Type} {m : Machine τ} {c : Configuration τ}
    (h : (c.step m).halted = false) : ¬ c.Stuck m := by
  intro hstuck
  rw [hstuck.halted_step] at h
  cases h

/-- The head is on the anchor in the first cell and brings both letters, and no transition matches
them in the state that the anchor holds. -/
def DeadEnd (ts : List Transition) (c : Configuration Tape) : Prop :=
  ∃ q s s', c.state = (Signature.ofTransitions ts).guard.control (.delivering s s') ∧
    c.tapes.head = 0 ∧ c.tapes.letter 0 = (Signature.ofTransitions ts).guard.cell (.anchor q) ∧
    ∀ t ∈ ts, t.key ≠ ⟨q, s, s'⟩

variable {ts : List Transition}

/-- The emulation is stuck at a dead end only. -/
theorem Emulates.deadEnd {b : Board} {c : Configuration Tape} (h : Emulates ts b c)
    (hstuck : c.Stuck (emulator ts)) : DeadEnd ts c := by
  cases h with
  | ended sound placed halted head_eq onTape =>
    rw [hstuck.1] at halted
    cases halted
  | @running s c fits shown =>
    by_cases hfire : s.Firing
    · obtain ⟨i, j, -, -, hs⟩ := fits.shown_firing hfire shown
      have hrunning := (Signature.mem_anchorStates.mp fits.sound.state_mem).2
      exact ⟨_, _, _, hs.state_eq, hs.head_eq, hs.letter_eq 0,
        (hs.next?_firing_eq_none_iff rfl hrunning).mp hstuck.2⟩
    · obtain ⟨s', hturn⟩ := fits.exists_turn hfire
      exact absurd hstuck (Configuration.not_stuck_of_running (shown.step hturn.step).halted_eq)

namespace Ordinary

variable {input u : List Letter}

/-- The layout is never stuck. -/
theorem not_stuck_of_lt (h : Ordinary ts input u) {n : Nat} (hn : n < 4 * u.length + 4) :
    ¬ ((emulator ts).after input n).Stuck (emulator ts) := by
  refine Configuration.not_stuck_of_running ?_
  rw [← Machine.after_succ]
  exact Configuration.running_of_le hn h.represents_initial.halted_eq

theorem deadEnd (h : Ordinary ts input u) {n : Nat}
    (hstuck : ((emulator ts).after input n).Stuck (emulator ts)) :
    DeadEnd ts ((emulator ts).after input n) := by
  rcases Nat.lt_or_ge n (4 * u.length + 4) with hn | hn
  · exact absurd hstuck (h.not_stuck_of_lt hn)
  · obtain ⟨b, hb⟩ := h.emulates
    obtain ⟨b', hb'⟩ := hb.iterate (n - (4 * u.length + 4))
    rw [← Machine.after_add, Nat.sub_add_cancel hn] at hb'
    exact hb'.deadEnd hstuck

end Ordinary

/-- A state is halting only by the name of a halting phase. -/
theorem Guard.not_halting_of_phase (g : Guard) {c : Control} (ha : c.phase ≠ .accept)
    (hr : c.phase ≠ .reject) : isHalting (g.control c) = false := by
  simp only [isHalting, Bool.or_eq_false_iff, beq_eq_false_iff_ne]
  refine ⟨fun h => ha ?_, fun h => hr ?_⟩
  · exact g.phase_eq_of_name (show g.control c = g.control (.bare .accept) from h)
  · exact g.phase_eq_of_name (show g.control c = g.control (.bare .reject) from h)

/-- **Only firing can get stuck.** On an input of letters followed by blanks, a configuration of the
emulating run that is stuck has brought both letters to the anchor in the first cell, and the
emulated machine has no transition for the state on the anchor and these letters. In every other
phase, from the layout to the rewinding, a row applies. -/
theorem stuck_only_when_firing (ts : List Transition) (u : List Letter) (j : Nat)
    (hu : ∀ s ∈ u, s ∈ (Signature.ofTransitions ts).alphabet ∧ s ≠ blank) (n : Nat) :
    let c := (emulator ts).after (u ++ List.replicate j blank) n
    (c.Stuck (emulator ts) → DeadEnd ts c) ∧
    ∀ k : Control, k.phase ≠ .accept → k.phase ≠ .reject → k.phase ≠ .deliver →
      c.state = (Signature.ofTransitions ts).guard.control k →
        ∃ row ∈ reduce ts, row.key = ⟨c.state, c.tapes.read⟩ := by
  intro c
  have hinput := Ordinary.of_append hu j
  refine ⟨hinput.deadEnd, fun k ha hr hd hstate => ?_⟩
  by_contra hnone
  simp only [not_exists, not_and] at hnone
  have hstuck : c.Stuck (emulator ts) := by
    refine ⟨?_, ?_⟩
    · rw [Configuration.halted, hstate]
      exact Guard.not_halting_of_phase _ ha hr
    · rw [next?_emulator, Option.map_eq_none_iff, List.find?_eq_none]
      simpa using hnone
  obtain ⟨q, s, s', hdeliver, -⟩ := hinput.deadEnd hstuck
  exact hd (Guard.phase_eq_of_name _ (hstate.symm.trans hdeliver))

theorem stuck_only_when_firing_parting :
    (∀ s ∈ ["a"], s ∈ (Signature.ofTransitions parting).alphabet ∧ s ≠ blank) ∧
      ∃ n, ((emulator parting).after ["a", blank] n).Stuck (emulator parting) ∧
        DeadEnd parting ((emulator parting).after ["a", blank] n) := by
  have hu : ∀ s ∈ ["a"], s ∈ (Signature.ofTransitions parting).alphabet ∧ s ≠ blank := by decide
  -- after its only step the machine reads blanks, for which it has no transition
  have hrunning : ((TwoTape.machine parting).after ["a", blank] 1).halted = false := by
    decide +kernel
  have hnone : ((TwoTape.machine parting).after ["a", blank] 1).transition? parting = none := by
    decide +kernel
  obtain ⟨k, -, -, hrep⟩ := (Ordinary.of_append hu 1).exists_represents hrunning
  obtain ⟨i, hi, hrow, -⟩ := hrep.cycle_stuck hnone
  rw [← Machine.after_add] at hi hrow
  have hstuck : ((emulator parting).after ["a", blank] (i + k)).Stuck (emulator parting) :=
    ⟨hi, by rw [next?_emulator]; exact Option.map_eq_none_iff.mpr hrow⟩
  exact ⟨hu, i + k, hstuck, (stuck_only_when_firing parting ["a"] 1 hu (i + k)).1 hstuck⟩

end Multitrack
