import Mathlib.Tactic
import Multitrack.Proofs.Runs
import Multitrack.Proofs.Scans

/-! # Step limits

A run under a limit goes on while it is not over and has taken fewer steps than the limit. What is not
over by then is cut off there, and under a higher limit goes on from where it was cut off; what is over
by then is over in the same way under every higher limit. A row that is missing ends a run without a
step, so a run that has used up its limit may have nothing left to do and has hit the limit all the
same. Since every run begins by loading its input, none of this depends on what was run before. -/
namespace Multitrack

namespace Configuration

variable {τ : Type} {m : Machine τ} {limit limit' : Int} {c : Configuration τ}

/-! ## The configurations of a run -/

/-- The configurations that a run under a limit goes through, from the first one on. -/
inductive Visits (m : Machine τ) (limit : Int) :
    Configuration τ → List (Configuration τ) → Prop
  | stop {c : Configuration τ} (done : c.halted = true ∨ limit ≤ c.steps) : Visits m limit c [c]
  | step {c : Configuration τ} {rest : List (Configuration τ)} (running : c.halted = false)
      (below : c.steps < limit) (next : Visits m limit (c.step m) rest) : Visits m limit c (c :: rest)

theorem advance_of_halted (h : c.halted = true) (n : Nat) : c.advance m n = c := by
  rw [advance_eq_iterate, iterate_of_halted h]

/-- What is visited ends where the steps that are left lead. -/
theorem exists_visits {n : Nat} (hn : (limit - c.steps).toNat = n) :
    ∃ visited, Visits m limit c visited ∧ visited.getLast? = some (c.advance m n) := by
  induction n generalizing c with
  | zero => exact ⟨[c], .stop (.inr (by omega)), rfl⟩
  | succ n ih =>
    cases hc : c.halted with
    | true =>
      rw [advance_of_halted hc]
      exact ⟨[c], .stop (.inl hc), rfl⟩
    | false =>
      have hbelow : c.steps < limit := by omega
      rw [advance, if_neg (Bool.eq_false_iff.mp hc)]
      cases hnext : (c.step m).halted with
      | true =>
        rw [advance_of_halted hnext]
        exact ⟨[c, c.step m], .step hc hbelow (.stop (.inl hnext)), rfl⟩
      | false =>
        have hsteps := steps_step hnext
        obtain ⟨visited, hvisits, hlast⟩ := ih (c := c.step m) (by omega)
        refine ⟨c :: visited, .step hc hbelow hvisits, ?_⟩
        rw [List.getLast?_cons, hlast]
        rfl

/-- Under a higher limit a run goes through the same configurations, and perhaps through more. -/
theorem Visits.prefix_of_le {visited visited' : List (Configuration τ)} (hle : limit ≤ limit')
    (h : Visits m limit c visited) (h' : Visits m limit' c visited') : visited <+: visited' := by
  induction h generalizing visited' with
  | stop done =>
    cases h' with
    | stop _ => exact List.prefix_rfl
    | step _ _ _ => exact List.prefix_append [_] _
  | step running below next ih =>
    cases h' with
    | stop done =>
      rcases done with hhalted | hlimit
      · rw [running] at hhalted
        cases hhalted
      · omega
    | step _ _ next' => exact List.cons_prefix_cons.mpr ⟨rfl, ih next'⟩

/-- The limit does not show in the report on a run that is over. -/
theorem outcome_of_halted (h : c.halted = true) (limit limit' : Int) :
    c.outcome m limit' = c.outcome m limit := by
  simp [outcome, h]

end Configuration

/-! ## Outcomes under two limits -/

namespace Machine

open Multitrack.Configuration

variable {τ : Type} (m : Machine τ) (input : List Letter) {limit limit' : Int}

theorem halted_of_hitLimit_eq_false (h : (m.run limit input).hitLimit = false) :
    (m.after input limit.toNat).halted = true := by
  rw [hitLimit_run] at h
  simpa using h

/-- A run that ends under a limit ends in the same way under every higher one. -/
theorem run_eq_of_le (hle : limit ≤ limit') (h : (m.run limit input).hitLimit = false) :
    m.run limit' input = m.run limit input := by
  have hhalted := m.halted_of_hitLimit_eq_false input h
  have hafter : m.after input limit'.toNat = m.after input limit.toNat :=
    iterate_eq_of_halted (Int.toNat_le_toNat hle) hhalted
  rw [run_eq_outcome, run_eq_outcome, hafter, outcome_of_halted hhalted]

theorem steps_run_le (limit : Int) : ((m.run limit input).steps : Int) ≤ max limit 0 := by
  have hsteps : (m.after input limit.toNat).steps ≤ 0 + limit.toNat := steps_iterate_le m _ _
  rw [run_eq_outcome]
  simp only [outcome]
  omega

/-- A run that hits its limit has used it up and has not succeeded. -/
theorem of_hitLimit (h : (m.run limit input).hitLimit = true) :
    ((m.run limit input).steps : Int) = max limit 0 ∧ (m.run limit input).accepted = false := by
  have hrunning : (m.after input limit.toNat).halted = false := by
    rw [hitLimit_run] at h
    simpa using h
  have hsteps : (m.after input limit.toNat).steps = 0 + limit.toNat := steps_iterate hrunning
  rw [run_eq_outcome]
  simp only [outcome, accepted, hrunning, Bool.false_and, and_true]
  omega

end Machine

/-- **Step limits are monotone.** For every machine, single-tape or two-tape, and whatever its sessions
were used for before: a run that does not hit its limit has the same outcome under every higher one; no
run takes more steps than its limit, or any step under a limit below zero; a run that hits its limit has
taken as many steps as it allows and is not accepted; and the configurations visited under a limit are
the first ones of those visited under a higher limit. -/
theorem step_limits_monotone {τ : Type} (m : Machine τ) (limit limit' : Int) (hle : limit ≤ limit')
    (now now' : Configuration τ) (input : List Letter) :
    let run := Session.run ⟨m, limit, now⟩ input
    let run' := Session.run ⟨m, limit', now'⟩ input
    (run.outcome.hitLimit = false → run'.outcome = run.outcome) ∧
    (run.outcome.steps : Int) ≤ max limit 0 ∧
    (run.outcome.hitLimit = true →
      (run.outcome.steps : Int) = max limit 0 ∧ run.outcome.accepted = false) ∧
    ∃ visited visited',
      Configuration.Visits m limit (.initial m input) visited ∧ visited.getLast? = some run.now ∧
      Configuration.Visits m limit' (.initial m input) visited' ∧ visited'.getLast? = some run'.now ∧
      visited <+: visited' := by
  intro run run'
  have hrun : run.outcome = m.run limit input := rfl
  have hrun' : run'.outcome = m.run limit' input := rfl
  rw [hrun, hrun']
  refine ⟨m.run_eq_of_le input hle, m.steps_run_le input limit, m.of_hitLimit input, ?_⟩
  have hleft : ∀ l : Int, (l - (Configuration.initial m input).steps).toNat = l.toNat :=
    fun l => congrArg Int.toNat (Int.sub_zero l)
  obtain ⟨visited, hvisits, hlast⟩ := Configuration.exists_visits (m := m) (hleft limit)
  obtain ⟨visited', hvisits', hlast'⟩ := Configuration.exists_visits (m := m) (hleft limit')
  exact ⟨visited, visited', hvisits, hlast, hvisits', hlast', hvisits.prefix_of_le hle hvisits'⟩

/-- The only step of this run uses up a limit of one. A limit of two shows that no other step follows,
and so does a limit of seven in a session that has accepted something else. -/
theorem step_limits_monotone_rivals :
    let m := (Table.ofRows rivals).machine
    (1 : Int) ≤ 2 ∧ (2 : Int) ≤ 7 ∧
    (Session.run ⟨m, 1, .unused m⟩ []).outcome.hitLimit = true ∧
    ((Session.run ⟨m, 1, .unused m⟩ []).outcome.steps : Int) = 1 ∧
    (Session.run ⟨m, 2, .unused m⟩ []).outcome.hitLimit = false ∧
    (Session.run ⟨m, 7, ⟨acceptState, .ofList ["z"], 9⟩⟩ []).outcome =
      (Session.run ⟨m, 2, .unused m⟩ []).outcome := by
  intro m
  have hhit : (Session.run ⟨m, 1, .unused m⟩ []).outcome.hitLimit = true := by decide +kernel
  have hends : (Session.run ⟨m, 2, .unused m⟩ []).outcome.hitLimit = false := by decide +kernel
  obtain ⟨-, -, hsteps, -⟩ := step_limits_monotone m 1 2 (by decide) (.unused m) (.unused m) []
  obtain ⟨hsame, -⟩ := step_limits_monotone m 2 7 (by decide) (.unused m)
    ⟨acceptState, .ofList ["z"], 9⟩ []
  exact ⟨by decide, by decide, hhit, (hsteps hhit).1, hends, hsame hends⟩

end Multitrack
