import Mathlib.Tactic
import Multitrack.Proofs.Emulation

/-! # The length of an emulating run

A cycle of the emulation passes the tape as far as the farther head four times, and after `n` steps
no head of the emulated machine is farther than `n` cells from its first one. The cycles of a run
therefore add up to a square, and the layout adds four steps for every letter of the input. A limit
that leaves room for both is never hit. -/
namespace Multitrack

open Multitrack.Configuration

variable {ts : List Transition} {input u : List Letter}

/-- A two-tape run of `steps` steps on `letters` letters is emulated in this many steps. -/
def emulationBound (steps letters : Nat) : Nat := 2 * steps ^ 2 + 9 * steps + 4 * letters + 6

theorem emulationBound_mono {steps steps' letters letters' : Nat} (h : steps ≤ steps')
    (h' : letters ≤ letters') : emulationBound steps letters ≤ emulationBound steps' letters' := by
  have hsquare := Nat.pow_le_pow_left h 2
  unfold emulationBound
  omega

/-- Under a limit of at least the bound the emulating run ends as the emulated one did. -/
theorem Ordinary.run_emulator (h : Ordinary ts input u) {limit maxSteps : Int} {T : Nat}
    (hends : ((TwoTape.machine ts).run limit input).hitLimit = false)
    (hsteps : ((TwoTape.machine ts).run limit input).steps = T)
    (hmax : emulationBound T u.length ≤ maxSteps) :
    ((emulator ts).run maxSteps input).hitLimit = false ∧
      ((emulator ts).run maxSteps input).accepted = ((TwoTape.machine ts).run limit input).accepted ∧
      ((emulator ts).run maxSteps input).steps ≤ emulationBound T u.length := by
  rw [Machine.hitLimit_run, Bool.not_eq_eq_eq_not, Bool.not_false] at hends
  rw [Machine.run_eq_outcome] at hsteps
  obtain ⟨k, hk, hstate⟩ := h.exists_state_eq hends
  rw [show ((TwoTape.machine ts).after input limit.toNat).steps = T from hsteps] at hk
  have hhalted : ((emulator ts).after input k).halted = true := by
    rw [halted, hstate]
    exact hends
  -- the run is over after `k` steps, so the limit finds it where it ended
  have hafter : (emulator ts).after input maxSteps.toNat = (emulator ts).after input k := by
    refine iterate_eq_of_halted ?_ hhalted
    unfold emulationBound at hmax
    omega
  refine ⟨?_, ?_, ?_⟩
  · rw [Machine.hitLimit_run, hafter, hhalted]
    rfl
  · rw [Machine.accepted_run, Machine.accepted_run, hafter, accepted, accepted, halted, halted, hstate]
  · rw [Machine.run_eq_outcome, hafter]
    exact le_trans (steps_iterate_le _ _ k) ((Nat.zero_add k).trans_le hk)

/-- **An emulating run is at most quadratically longer.** If the two-tape run ends after `T` steps on
an input of `n` letters, then no limit of `2 * T ^ 2 + 9 * T + 4 * n + 6` or more is hit by the
emulating run, which ends with the same verdict and within so many steps. Two hundred steps on
twenty letters are emulated in less than a hundred thousand. -/
theorem run_emulator_within_bound (ts : List Transition) (u : List Letter) (j : Nat)
    (hu : ∀ s ∈ u, s ∈ (Signature.ofTransitions ts).alphabet ∧ s ≠ blank) (limit : Int) (T : Nat)
    (hends : ((TwoTape.machine ts).run limit (u ++ List.replicate j blank)).hitLimit = false)
    (hsteps : ((TwoTape.machine ts).run limit (u ++ List.replicate j blank)).steps = T) :
    (∀ maxSteps : Int, 2 * (T : Int) ^ 2 + 9 * T + 4 * u.length + 6 ≤ maxSteps →
      ((emulator ts).run maxSteps (u ++ List.replicate j blank)).hitLimit = false ∧
      ((emulator ts).run maxSteps (u ++ List.replicate j blank)).accepted =
        ((TwoTape.machine ts).run limit (u ++ List.replicate j blank)).accepted ∧
      ((emulator ts).run maxSteps (u ++ List.replicate j blank)).steps ≤
        2 * T ^ 2 + 9 * T + 4 * u.length + 6) ∧
    (T ≤ 200 → u.length ≤ 20 →
      ((emulator ts).run 100000 (u ++ List.replicate j blank)).hitLimit = false ∧
      ((emulator ts).run 100000 (u ++ List.replicate j blank)).accepted =
        ((TwoTape.machine ts).run limit (u ++ List.replicate j blank)).accepted ∧
      ((emulator ts).run 100000 (u ++ List.replicate j blank)).steps ≤ 81886) := by
  have hinput := Ordinary.of_append hu j
  refine ⟨fun maxSteps hmax => hinput.run_emulator hends hsteps ?_, fun hT hletters => ?_⟩
  · unfold emulationBound
    push_cast
    exact hmax
  · have hbound : emulationBound T u.length ≤ 81886 := emulationBound_mono hT hletters
    have hmax : (emulationBound T u.length : Int) ≤ 100000 := by omega
    obtain ⟨hlimit, haccepted, hle⟩ := hinput.run_emulator hends hsteps hmax
    exact ⟨hlimit, haccepted, le_trans hle hbound⟩

theorem run_emulator_within_bound_parting :
    (∀ s ∈ ["a"], s ∈ (Signature.ofTransitions parting).alphabet ∧ s ≠ blank) ∧
      ((TwoTape.machine parting).run 5 ["a", blank]).hitLimit = false ∧
      ((TwoTape.machine parting).run 5 ["a", blank]).steps = 1 ∧
      ((emulator parting).run 21 ["a", blank]).hitLimit = false ∧
      ((emulator parting).run 21 ["a", blank]).steps ≤ 21 := by
  have hu : ∀ s ∈ ["a"], s ∈ (Signature.ofTransitions parting).alphabet ∧ s ≠ blank := by decide
  have hends : ((TwoTape.machine parting).run 5 ["a", blank]).hitLimit = false := by decide +kernel
  have hsteps : ((TwoTape.machine parting).run 5 ["a", blank]).steps = 1 := by decide +kernel
  obtain ⟨hlimit, -, hle⟩ :=
    (run_emulator_within_bound parting ["a"] 1 hu 5 1 hends hsteps).1 21 (by decide)
  exact ⟨hu, hends, hsteps, hlimit, hle⟩

end Multitrack
