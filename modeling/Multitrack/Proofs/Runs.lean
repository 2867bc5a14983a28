import Mathlib.Tactic
import Multitrack.Run

/-! # Runs step by step

A run under a limit is the iterated step, stopped by the limit or by a halting state. A limit is hit
exactly when the run is not over by then, so that some limit lets a run end if and only if its
iterated steps reach a halting state. -/
namespace Multitrack

namespace Configuration

variable {τ : Type} {m : Machine τ}

theorem step_of_halted {c : Configuration τ} (h : c.halted = true) : c.step m = c := by
  rw [step, if_pos h]

theorem step_of_next {c : Configuration τ} (h : c.halted = false) {q : StateName} {tapes : τ}
    (hn : m.next? c.state c.tapes = some (q, tapes)) : c.step m = ⟨q, tapes, c.steps + 1⟩ := by
  rw [step, h, hn]
  rfl

theorem step_of_stuck {c : Configuration τ} (h : c.halted = false)
    (hn : m.next? c.state c.tapes = none) : c.step m = { c with state := rejectState } := by
  rw [step, h, hn]
  rfl

theorem iterate_of_halted {c : Configuration τ} (h : c.halted = true) (n : Nat) :
    (step m)^[n] c = c := by
  induction n with
  | zero => rfl
  | succ n ih => rw [Function.iterate_succ_apply, step_of_halted h, ih]

theorem iterate_eq_of_halted {c : Configuration τ} {n k : Nat} (hnk : n ≤ k)
    (h : ((step m)^[n] c).halted = true) : (step m)^[k] c = (step m)^[n] c := by
  obtain ⟨j, rfl⟩ := Nat.exists_eq_add_of_le' hnk
  rw [Function.iterate_add_apply, iterate_of_halted h]

/-- A run that is not over has not been over before. -/
theorem running_of_le {c : Configuration τ} {n k : Nat} (hkn : k ≤ n)
    (h : ((step m)^[n] c).halted = false) : ((step m)^[k] c).halted = false := by
  by_contra hk
  rw [Bool.not_eq_false] at hk
  rw [iterate_eq_of_halted hkn hk, hk] at h
  cases h

/-- A run that is over was not over before some step, and that step ended it. -/
theorem exists_last_step {c : Configuration τ} {n : Nat} (hc : c.halted = false)
    (hn : ((step m)^[n] c).halted = true) :
    ∃ k, ((step m)^[k] c).halted = false ∧ (step m)^[k + 1] c = (step m)^[n] c := by
  induction n with
  | zero => exact absurd (hc.symm.trans hn) nofun
  | succ n ih =>
    cases hlast : ((step m)^[n] c).halted with
    | false => exact ⟨n, hlast, rfl⟩
    | true =>
      obtain ⟨k, hk, heq⟩ := ih hlast
      exact ⟨k, hk, heq.trans (iterate_eq_of_halted (Nat.le_succ n) hlast).symm⟩

theorem advance_eq_iterate (n : Nat) (c : Configuration τ) : c.advance m n = (step m)^[n] c := by
  induction n generalizing c with
  | zero => rfl
  | succ n ih =>
    rw [advance]
    split
    · rename_i h
      rw [iterate_of_halted h]
    · rw [ih, Function.iterate_succ_apply]

/-- Only a step that leads to the end is not counted. -/
theorem steps_step {c : Configuration τ} (h : (c.step m).halted = false) :
    (c.step m).steps = c.steps + 1 := by
  unfold step at h ⊢
  split at h
  · rename_i hc
    rw [hc] at h
    cases h
  · rename_i hc
    rw [if_neg hc]
    cases hn : m.next? c.state c.tapes with
    | some p => rfl
    | none => rw [hn] at h; simp [halted, isHalting] at h

theorem steps_iterate {c : Configuration τ} {n : Nat} (h : ((step m)^[n] c).halted = false) :
    ((step m)^[n] c).steps = c.steps + n := by
  induction n with
  | zero => rfl
  | succ n ih =>
    rw [Function.iterate_succ_apply'] at h ⊢
    have hn : ((step m)^[n] c).halted = false :=
      running_of_le (Nat.le_succ n) (Function.iterate_succ_apply' (step m) n c ▸ h)
    rw [steps_step h, ih hn, Nat.add_assoc]

theorem le_steps_step (m : Machine τ) (c : Configuration τ) : c.steps ≤ (c.step m).steps := by
  unfold step
  split
  · exact Nat.le_refl _
  · split
    · exact Nat.le_succ _
    · exact Nat.le_refl _

theorem steps_step_le (m : Machine τ) (c : Configuration τ) : (c.step m).steps ≤ c.steps + 1 := by
  unfold step
  split
  · exact Nat.le_succ _
  · split
    · exact Nat.le_refl _
    · exact Nat.le_succ _

theorem steps_iterate_le (m : Machine τ) (c : Configuration τ) (n : Nat) :
    ((step m)^[n] c).steps ≤ c.steps + n := by
  induction n with
  | zero => exact Nat.le_refl _
  | succ n ih =>
    rw [Function.iterate_succ_apply']
    exact le_trans (steps_step_le m _) (Nat.succ_le_succ ih)

end Configuration

namespace Machine

open Multitrack.Configuration

variable {τ : Type} (m : Machine τ) (input : List Letter)

def after (n : Nat) : Configuration τ := (step m)^[n] (initial m input)

theorem after_succ (n : Nat) : m.after input (n + 1) = (m.after input n).step m :=
  Function.iterate_succ_apply' _ _ _

theorem after_add (n k : Nat) : m.after input (k + n) = (step m)^[k] (m.after input n) :=
  Function.iterate_add_apply _ _ _ _

/-- The run on an input under a limit stops where the iterated step does. -/
theorem run_eq_outcome (limit : Int) :
    m.run limit input = (m.after input limit.toNat).outcome m limit := by
  rw [after, ← advance_eq_iterate]
  rfl

/-- The limit is hit exactly when the run is not over by then. -/
theorem hitLimit_run (limit : Int) :
    (m.run limit input).hitLimit = !(m.after input limit.toNat).halted := by
  rw [run_eq_outcome]
  cases h : (m.after input limit.toNat).halted with
  | true => simp [outcome, h]
  | false =>
    have hsteps : (m.after input limit.toNat).steps = 0 + limit.toNat := steps_iterate h
    have hle : limit ≤ (m.after input limit.toNat).steps := by omega
    simp [outcome, h, hle]

theorem accepted_run (limit : Int) :
    (m.run limit input).accepted = (m.after input limit.toNat).accepted := by
  rw [run_eq_outcome]
  rfl

/-- Some limit lets the run end with a verdict if and only if the iterated steps reach it. -/
theorem exists_limit_iff (b : Bool) :
    (∃ limit : Int, (m.run limit input).hitLimit = false ∧ (m.run limit input).accepted = b) ↔
      ∃ n, (m.after input n).halted = true ∧ (m.after input n).accepted = b := by
  constructor
  · rintro ⟨limit, hl, hb⟩
    rw [hitLimit_run] at hl
    rw [accepted_run] at hb
    exact ⟨limit.toNat, by simpa using hl, hb⟩
  · rintro ⟨n, hh, hb⟩
    refine ⟨n, ?_, ?_⟩
    · rw [hitLimit_run, Int.toNat_natCast, hh]
      rfl
    · rw [accepted_run, Int.toNat_natCast, hb]

/-- Two halted configurations of one run are the same. -/
theorem after_eq_of_halted {n k : Nat} (hn : (m.after input n).halted = true)
    (hk : (m.after input k).halted = true) : m.after input n = m.after input k := by
  rcases Nat.le_total n k with h | h
  · exact (iterate_eq_of_halted h hn).symm
  · exact iterate_eq_of_halted h hk

end Machine

end Multitrack
