import Mathlib.Tactic
import Multitrack.Proofs.InputLayout
import Multitrack.Proofs.Representation

/-! # The emulation of a run

The layout of an input leads to a representation of the two-tape machine's first configuration, and
every cycle leads on to the next one. So a run of the two-tape machine that is not over after some
steps has a representation that the emulator reaches after at least as many, and a run that ends is
emulated by a run that ends in the same state. The converse needs no second simulation, since a
halted emulator represents nothing. -/
namespace Multitrack

open Multitrack.Configuration

variable {ts : List Transition}

/-- Blanks after an input change no cell. -/
theorem getD_append_blanks (input : List Letter) (j i : Nat) :
    (input ++ List.replicate j blank).getD i blank = input.getD i blank := by
  rcases Nat.lt_or_ge i input.length with hi | hi
  · rw [List.getD_append _ _ _ _ hi]
  · rw [List.getD_append_right _ _ _ _ hi, List.getD_eq_default _ _ hi, List.getD_eq_getElem?_getD,
      List.getElem?_getD_replicate_default_eq]

/-- A tape that holds an input shows its letters, and an empty input shows blanks. -/
theorem Table.letter_load (t : Table) (input : List Letter) (i : Nat) :
    (t.machine.load input).letter i = input.getD i blank := by
  show Tape.letter (.ofList (if input.isEmpty then [blank] else input)) i = _
  rw [Tape.letter_ofList]
  cases input with
  | nil => cases i <;> rfl
  | cons s rest => rfl

/-- A word of letters that are not blank, followed by blanks. -/
structure Ordinary (ts : List Transition) (input u : List Letter) : Prop where
  letters : ∀ s ∈ u, s ∈ (Signature.ofTransitions ts).nonBlank
  blanks : ∃ j, input = u ++ List.replicate j blank

namespace Ordinary

variable {input u : List Letter}

theorem of_append (hu : ∀ s ∈ u, s ∈ (Signature.ofTransitions ts).alphabet ∧ s ≠ blank) (j : Nat) :
    Ordinary ts (u ++ List.replicate j blank) u := by
  refine ⟨fun s hs => ?_, j, rfl⟩
  obtain ⟨hmem, hne⟩ := hu s hs
  exact (Signature.mem_alphabet.mp hmem).resolve_left hne

theorem getD_of_lt (h : Ordinary ts input u) {i : Nat} (hi : i < u.length) :
    input.getD i blank ∈ (Signature.ofTransitions ts).nonBlank := by
  obtain ⟨j, rfl⟩ := h.blanks
  rw [List.getD_append _ _ _ _ hi, List.getD_eq_getElem _ _ hi]
  exact h.letters _ (List.getElem_mem hi)

theorem getD_of_le (h : Ordinary ts input u) {i : Nat} (hi : u.length ≤ i) :
    input.getD i blank = blank := by
  obtain ⟨j, rfl⟩ := h.blanks
  rw [getD_append_blanks, List.getD_eq_default _ _ hi]

theorem getD_mem (h : Ordinary ts input u) (i : Nat) :
    input.getD i blank ∈ (Signature.ofTransitions ts).alphabet := by
  rcases Nat.lt_or_ge i u.length with hi | hi
  · exact Signature.mem_alphabet.mpr (.inr (h.getD_of_lt hi))
  · rw [h.getD_of_le hi]
    exact Signature.mem_alphabet.mpr (.inl rfl)

/-- What is laid out is the board of the first configuration. -/
theorem laidOut_eq (h : Ordinary ts input u) :
    laidOut (closeGap (input.getD · blank) u.length) u.length =
      ((initial (TwoTape.machine ts) input).board (max u.length 1)).cell := by
  have hclose : closeGap (input.getD · blank) u.length = (input.getD · blank) := by
    funext i
    unfold closeGap
    split
    · rfl
    · rename_i hi
      have hle := Nat.not_lt.mp hi
      exact (h.getD_of_le (Nat.le_succ_of_le hle)).trans (h.getD_of_le hle).symm
  rw [hclose, laidOut]
  funext i
  match i with
  | 0 => rfl
  | 1 =>
    rw [Function.update_self, Board.cell_of_lt (lt_of_lt_of_le Nat.one_pos (Nat.le_max_right _ _))]
    rfl
  | i + 2 =>
    rw [Function.update_of_ne (by omega)]
    rcases Nat.lt_or_ge (i + 1) u.length with hi | hi
    · rw [packed_of_lt hi, Board.cell_of_lt (lt_of_lt_of_le hi (Nat.le_max_left _ _))]
      rfl
    · have hle : max u.length 1 ≤ i + 1 := Nat.max_le.mpr ⟨hi, Nat.succ_le_succ (Nat.zero_le i)⟩
      rw [packed_of_le hi, Board.cell_of_le hle, h.getD_of_le hi]

theorem shownBy_initial (ts : List Transition) (input : List Letter) :
    View.ShownBy ts ⟨.start, 0, fun i => .plain (input.getD i blank)⟩
      (initial (emulator ts) input) :=
  ⟨rfl, rfl, (Table.ofRows (reduce ts)).letter_load input⟩

/-- The run that lays out the input. -/
theorem run_atRest (h : Ordinary ts input u) :
    View.Run (.ofTransitions ts) .layout (4 * u.length + 4)
      ⟨.start, 0, fun i => .plain (input.getD i blank)⟩
      (Scene.atRest ((initial (TwoTape.machine ts) input).board (max u.length 1))).view := by
  have hrun := run_layout (Signature.proper_ofTransitions ts) (m := 0)
    (fun i hi => h.getD_of_lt hi) (h.getD_of_le (Nat.le_refl _)) nofun
    (h.getD_of_le (Nat.le_succ_of_le (Nat.le_refl _)))
  rw [show u.length + 0 = u.length from rfl, h.laidOut_eq] at hrun
  exact hrun

theorem sound_board (h : Ordinary ts input u) :
    ((initial (TwoTape.machine ts) input).board (max u.length 1)).Sound (.ofTransitions ts) := by
  have hsig := Signature.proper_ofTransitions ts
  refine ⟨Signature.mem_anchorStates.mpr ⟨hsig.start_mem, rfl⟩, ?_, ?_, ?_, ?_⟩
  · intro k i
    cases k
    · exact h.getD_mem i
    · exact hsig.blank_mem
  · intro k i hi
    cases k
    · exact h.getD_of_le (le_trans (Nat.le_max_left _ _) hi)
    · rfl
  · intro k i hi
    have hpos : 0 < max u.length 1 := lt_of_lt_of_le Nat.one_pos (Nat.le_max_right _ _)
    cases k <;> cases hi <;> exact hpos
  · exact lt_of_lt_of_le Nat.one_pos (Nat.le_max_right _ _)

theorem represents_initial (h : Ordinary ts input u) :
    Represents ts ((emulator ts).after input (4 * u.length + 4))
      (initial (TwoTape.machine ts) input) :=
  represents_iff.mpr ⟨_, h.sound_board, (shownBy_initial ts input).run h.run_atRest⟩

/-! ## Step by step -/

theorem far_after_le (ts : List Transition) (input : List Letter) (n : Nat) :
    ((TwoTape.machine ts).after input n).far ≤ n + 1 := by
  induction n with
  | zero => exact Nat.le_refl 1
  | succ n ih =>
    rw [Machine.after_succ]
    exact le_trans (far_step_le ts _) (Nat.succ_le_succ ih)

/-- A run that goes on is represented, and the emulator has taken at least as many steps. The heads
of a run are no farther than it is long, which bounds every cycle. -/
theorem exists_represents (h : Ordinary ts input u) {n : Nat}
    (hn : ((TwoTape.machine ts).after input n).halted = false) :
    ∃ k, n ≤ k ∧ k ≤ 2 * n ^ 2 + 7 * n + (4 * u.length + 4) ∧
      Represents ts ((emulator ts).after input k) ((TwoTape.machine ts).after input n) := by
  induction n with
  | zero => exact ⟨_, Nat.zero_le _, Nat.le_add_left _ _, h.represents_initial⟩
  | succ n ih =>
    obtain ⟨k, hk, hle, hrep⟩ := ih (running_of_le (Nat.le_succ n) hn)
    obtain ⟨t, ht, hnext⟩ := exists_transition hrep.running (Machine.after_succ .. ▸ hn)
    obtain ⟨j, hj, hcycle⟩ := hrep.exists_next ht hnext
    have hfar := far_after_le ts input n
    refine ⟨j + 1 + k, by omega, by nlinarith, ?_⟩
    rw [Machine.after_succ, Machine.after_add]
    exact hcycle

/-- A run that ends is emulated by one that ends in the same state, and in a number of steps that is
quadratic in those counted. -/
theorem exists_state_eq (h : Ordinary ts input u) {n : Nat}
    (hn : ((TwoTape.machine ts).after input n).halted = true) :
    ∃ k, k ≤ 2 * ((TwoTape.machine ts).after input n).steps ^ 2 +
        9 * ((TwoTape.machine ts).after input n).steps + 4 * u.length + 6 ∧
      ((emulator ts).after input k).state = ((TwoTape.machine ts).after input n).state := by
  obtain ⟨i, hi, heq⟩ := exists_last_step (c := initial (TwoTape.machine ts) input) rfl hn
  obtain ⟨k, -, hk, hrep⟩ := h.exists_represents hi
  have hlast : (((TwoTape.machine ts).after input i).step (TwoTape.machine ts)) =
      (TwoTape.machine ts).after input n := (Machine.after_succ ..).symm.trans heq
  obtain ⟨j, hj, hstate⟩ := hrep.cycle_last (by rw [hlast]; exact hn)
  refine ⟨j + 1 + k, ?_, by rw [Machine.after_add, hstate, hlast]⟩
  -- the last step need not be counted, but all before it are
  have hsteps : ((TwoTape.machine ts).after input i).steps = 0 + i := steps_iterate hi
  have hle := le_steps_step (TwoTape.machine ts) ((TwoTape.machine ts).after input i)
  rw [hsteps, Nat.zero_add, hlast] at hle
  have hsquare := Nat.pow_le_pow_left hle 2
  have hfar := far_after_le ts input i
  omega

/-- The two-tape run ends if the emulating run does. -/
theorem exists_halted (h : Ordinary ts input u) {k : Nat}
    (hk : ((emulator ts).after input k).halted = true) :
    ∃ n, ((TwoTape.machine ts).after input n).halted = true := by
  by_contra hnone
  obtain ⟨k', hle, -, hrep⟩ := h.exists_represents
    (Bool.not_eq_true _ ▸ not_exists.mp hnone k)
  -- a halted emulator stays halted, but a representation is not halted
  have hrunning : ((emulator ts).after input k).halted = false := running_of_le hle hrep.halted_eq
  rw [hk] at hrunning
  cases hrunning

theorem exists_verdict_iff (h : Ordinary ts input u) (b : Bool) :
    (∃ n, ((TwoTape.machine ts).after input n).halted = true ∧
        ((TwoTape.machine ts).after input n).accepted = b) ↔
      ∃ k, ((emulator ts).after input k).halted = true ∧
        ((emulator ts).after input k).accepted = b := by
  constructor
  · rintro ⟨n, hn, hb⟩
    obtain ⟨k, -, hk⟩ := h.exists_state_eq hn
    exact ⟨k, by rw [halted, hk]; exact hn, by rw [accepted, halted, hk]; exact hb⟩
  · rintro ⟨k, hk, hb⟩
    obtain ⟨n, hn⟩ := h.exists_halted hk
    obtain ⟨k', -, hk'⟩ := h.exists_state_eq hn
    have hhalted' : ((emulator ts).after input k').halted = true := by rw [halted, hk']; exact hn
    refine ⟨n, hn, ?_⟩
    rw [← hb, Machine.after_eq_of_halted _ _ hk hhalted', accepted, accepted, halted, halted, hk']

end Ordinary

/-- **The reduction preserves verdict and halting**, for every list of transitions and every input
of letters followed by blanks. Some limit lets the two-tape run end with a verdict if and only if
some limit lets the run of the reduction end with it, so a run that never ends is emulated by one
that never ends. Where several transitions match, both follow the first. -/
theorem verdict_reduce_iff (ts : List Transition) (u : List Letter) (j : Nat)
    (hu : ∀ s ∈ u, s ∈ (Signature.ofTransitions ts).alphabet ∧ s ≠ blank) :
    (∀ b, (∃ limit : Int,
          ((TwoTape.machine ts).run limit (u ++ List.replicate j blank)).hitLimit = false ∧
          ((TwoTape.machine ts).run limit (u ++ List.replicate j blank)).accepted = b) ↔
        ∃ limit : Int, ((emulator ts).run limit (u ++ List.replicate j blank)).hitLimit = false ∧
          ((emulator ts).run limit (u ++ List.replicate j blank)).accepted = b) ∧
      ((∀ limit : Int,
          ((TwoTape.machine ts).run limit (u ++ List.replicate j blank)).hitLimit = true) ↔
        ∀ limit : Int, ((emulator ts).run limit (u ++ List.replicate j blank)).hitLimit = true) ∧
      (∀ q tapes, (TwoTape.machine ts).next? q tapes =
        (ts.find? fun t => t.key = ⟨q, tapes.first.read, tapes.second.read⟩).map fun t =>
          (t.next, ⟨(tapes.first.write t.write1).move t.dir1,
            (tapes.second.write t.write2).move t.dir2⟩)) ∧
      ∀ q s s', isHalting q = false →
        ((reduce ts).find? fun row =>
          row.key = ⟨(Signature.ofTransitions ts).guard.control (.delivering s s'),
            (Signature.ofTransitions ts).guard.cell (.anchor q)⟩) =
        ((ts.find? fun t => t.key = ⟨q, s, s'⟩).bind Transition.fireRule?).map
          (Signature.ofTransitions ts).guard.row := by
  have hinput := Ordinary.of_append hu j
  have hverdict : ∀ b, _ ↔ _ := fun b => ((TwoTape.machine ts).exists_limit_iff _ b).trans
    ((hinput.exists_verdict_iff b).trans ((emulator ts).exists_limit_iff _ b).symm)
  have hends : ∀ {τ : Type} (m : Machine τ) (input : List Letter),
      (∀ limit : Int, (m.run limit input).hitLimit = true) ↔
        ¬ ∃ b, ∃ limit : Int, (m.run limit input).hitLimit = false ∧
          (m.run limit input).accepted = b := by
    intro τ m input
    simp
  refine ⟨hverdict, ?_, TwoTape.next?_machine ts, ?_⟩
  · rw [hends, hends]
    exact not_congr (exists_congr hverdict)
  · intro q s s' hq
    rw [← find?_fire ts hq]
    exact find?_reduce ts (.scan ⟨some s, some s'⟩) (.anchor q)

/-- Two transitions for one state and one pair of letters. -/
def torn : List Transition :=
  [⟨startState, "a", blank, acceptState, "a", blank, .right, .stay⟩,
    ⟨startState, "a", blank, rejectState, "a", blank, .right, .stay⟩]

theorem verdict_reduce_iff_torn :
    (∀ s ∈ ["a"], s ∈ (Signature.ofTransitions torn).alphabet ∧ s ≠ blank) ∧
      ∃ limit : Int, ((emulator torn).run limit ["a", blank]).hitLimit = false ∧
        ((emulator torn).run limit ["a", blank]).accepted = true := by
  have hu : ∀ s ∈ ["a"], s ∈ (Signature.ofTransitions torn).alphabet ∧ s ≠ blank := by decide
  exact ⟨hu, ((verdict_reduce_iff torn ["a"] 1 hu).1 true).mp ⟨5, by decide +kernel, rfl⟩⟩

end Multitrack
