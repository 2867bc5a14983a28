import Mathlib.Tactic
import Multitrack.Proofs.Cycles

/-! # What the emulating tape represents

A configuration of the emulator represents one of the two-tape machine when it is about to look for
letters and its cells hold that machine's state, letters and heads. One cycle of the emulation takes
the representation of a configuration to that of its successor. Where the two-tape machine halts by
a transition the emulator halts by a row, and where it has no transition the emulator has no row. -/
namespace Multitrack

/-- The emulator is about to emulate a step of the two-tape machine in this configuration. -/
structure Represents (ts : List Transition) (c : Configuration Tape) (d : Configuration TapePair) :
    Prop where
  state_named : d.state = startState ∨ ∃ t ∈ ts, d.state ∈ t.states
  running : d.halted = false
  first_mem : ∀ i, d.tapes.first.letter i ∈ (Signature.ofTransitions ts).alphabet
  second_mem : ∀ i, d.tapes.second.letter i ∈ (Signature.ofTransitions ts).alphabet
  state_eq : c.state = (Signature.ofTransitions ts).guard.control (.locating 0 [])
  head_eq : c.tapes.head = 1
  anchor_eq : c.tapes.letter 0 = (Signature.ofTransitions ts).guard.cell (.anchor d.state)
  /-- The cells hold both tapes as far as some extent, and both tapes are blank from there on. -/
  cells : ∃ e, d.tapes.first.head < e ∧ d.tapes.second.head < e ∧
    (∀ i < e, c.tapes.letter (i + 1) = (Signature.ofTransitions ts).guard.cell
      (.tracked (d.tapes.first.letter i) (d.tapes.second.letter i)
        ⟨d.tapes.first.head = i, d.tapes.second.head = i⟩)) ∧
    (∀ i, e < i → c.tapes.letter i = blank) ∧
    ∀ i, e ≤ i → d.tapes.first.letter i = blank ∧ d.tapes.second.letter i = blank

def Transition.applyTo (t : Transition) (tapes : TapePair) : TapePair :=
  ⟨(tapes.first.write t.write1).move t.dir1, (tapes.second.write t.write2).move t.dir2⟩

namespace Configuration

def board (d : Configuration TapePair) (extent : Nat) : Board where
  state := d.state
  letter
    | .one => d.tapes.first.letter
    | .two => d.tapes.second.letter
  place
    | .one => some d.tapes.first.head
    | .two => some d.tapes.second.head
  extent

/-- The tracked cell of the farther head, counted from one. -/
def far (d : Configuration TapePair) : Nat := max (d.tapes.first.head + 1) (d.tapes.second.head + 1)

variable {ts : List Transition} {c : Configuration Tape} {d : Configuration TapePair}

theorem far_board (d : Configuration TapePair) (e : Nat) : (d.board e).far = d.far := rfl

theorem cell_board_of_lt {e i : Nat} (hi : i < e) : (d.board e).cell (i + 1) =
    .tracked (d.tapes.first.letter i) (d.tapes.second.letter i)
      ⟨d.tapes.first.head = i, d.tapes.second.head = i⟩ := by
  rw [Board.cell_of_lt hi]
  simp [Board.tag, board]

/-- To represent a configuration is to be at rest on its board. -/
theorem represents_iff : Represents ts c d ↔
    ∃ e, (d.board e).Sound (.ofTransitions ts) ∧
      (Scene.atRest (d.board e)).view.ShownBy ts c := by
  constructor
  · intro h
    obtain ⟨e, h1, h2, htracked, hblank, hbeyond⟩ := h.cells
    refine ⟨e, ⟨?_, ?_, ?_, ?_, Nat.zero_lt_of_lt h1⟩, h.state_eq, h.head_eq, ?_⟩
    · exact Signature.mem_anchorStates.mpr ⟨Signature.mem_states.mpr h.state_named, h.running⟩
    · intro k i
      cases k
      · exact h.first_mem i
      · exact h.second_mem i
    · intro k i hi
      cases k
      · exact (hbeyond i hi).1
      · exact (hbeyond i hi).2
    · intro k i hi
      cases k <;> cases hi
      · exact h1
      · exact h2
    · intro i
      cases i with
      | zero => exact h.anchor_eq
      | succ i =>
        rcases Nat.lt_or_ge i e with hi | hi
        · exact (htracked i hi).trans (congrArg _ (cell_board_of_lt hi).symm)
        · rw [hblank _ (Nat.lt_succ_of_le hi)]
          exact (congrArg (Guard.cell _) (Board.cell_of_le (b := d.board e) hi)).symm
  · rintro ⟨e, hb, hs⟩
    obtain ⟨hstate, hhalt⟩ := Signature.mem_anchorStates.mp hb.state_mem
    refine ⟨Signature.mem_states.mp hstate, hhalt, hb.letter_mem .one, hb.letter_mem .two,
      hs.state_eq, hs.head_eq, hs.letter_eq 0,
      e, hb.place_lt .one _ rfl, hb.place_lt .two _ rfl, ?_, ?_, ?_⟩
    · intro i hi
      exact (hs.letter_eq (i + 1)).trans (congrArg _ (cell_board_of_lt hi))
    · intro i hi
      obtain ⟨i, rfl⟩ : ∃ j, i = j + 1 := ⟨i - 1, by omega⟩
      have hcell : (d.board e).cell (i + 1) = .plain blank := Board.cell_of_le (Nat.le_of_lt_succ hi)
      exact (hs.letter_eq (i + 1)).trans (congrArg _ hcell)
    · intro i hi
      exact ⟨hb.blank_beyond .one i hi, hb.blank_beyond .two i hi⟩

/-- What a transition makes of a board is what it makes of the tapes. -/
theorem board_apply (d : Configuration TapePair) (e : Nat) (t : Transition) (n : Nat) :
    (d.board e).apply t = board ⟨t.next, t.applyTo d.tapes, n⟩ ((d.board e).apply t).extent := by
  have hletter : ∀ (tape : Tape) (s : Letter) (dir : Dir),
      Function.update tape.letter tape.head s = ((tape.write s).move dir).letter := by
    intro tape s dir
    funext i
    rw [Tape.letter_move, Tape.letter_write, Function.update_apply]
  have hhead : ∀ (tape : Tape) (s : Letter) (dir : Dir),
      dir.shift tape.head = ((tape.write s).move dir).head := by
    intro tape s dir
    rw [Tape.head_move, Tape.head_write]
  refine Board.ext rfl (funext fun h => ?_) (funext fun h => ?_) rfl
  · cases h
    · exact hletter d.tapes.first t.write1 t.dir1
    · exact hletter d.tapes.second t.write2 t.dir2
  · cases h
    · exact congrArg some (hhead d.tapes.first t.write1 t.dir1)
    · exact congrArg some (hhead d.tapes.second t.write2 t.dir2)

end Configuration

/-! ## One cycle -/

theorem TwoTape.next?_machine (ts : List Transition) (q : StateName) (tapes : TapePair) :
    (TwoTape.machine ts).next? q tapes =
      (ts.find? fun t => t.key = ⟨q, tapes.first.read, tapes.second.read⟩).map fun t =>
        (t.next, t.applyTo tapes) :=
  TwoTape.next?_index ts q tapes

namespace Configuration

variable {ts : List Transition} {d : Configuration TapePair}

def transition? (ts : List Transition) (d : Configuration TapePair) : Option Transition :=
  ts.find? fun t => t.key = ⟨d.state, d.tapes.first.read, d.tapes.second.read⟩

theorem step_of_transition {t : Transition} (hd : d.halted = false) (ht : d.transition? ts = some t) :
    d.step (TwoTape.machine ts) = ⟨t.next, t.applyTo d.tapes, d.steps + 1⟩ := by
  refine step_of_next hd ?_
  rw [TwoTape.next?_machine, show (ts.find? _) = some t from ht]
  rfl

theorem step_of_no_transition (hd : d.halted = false) (ht : d.transition? ts = none) :
    d.step (TwoTape.machine ts) = { d with state := rejectState } := by
  refine step_of_stuck hd ?_
  rw [TwoTape.next?_machine, show (ts.find? _) = none from ht]
  rfl

/-- A step takes each head at most one cell farther. -/
theorem far_step_le (ts : List Transition) (d : Configuration TapePair) :
    (d.step (TwoTape.machine ts)).far ≤ d.far + 1 := by
  have hmove : ∀ (tape : Tape) (s : Letter) (dir : Dir),
      ((tape.write s).move dir).head ≤ tape.head + 1 := by
    intro tape s dir
    rw [Tape.head_move, Tape.head_write]
    cases dir <;> simp only [Dir.shift] <;> omega
  cases hd : d.halted with
  | true =>
    rw [step_of_halted hd]
    exact Nat.le_succ _
  | false =>
    cases ht : d.transition? ts with
    | none =>
      rw [step_of_no_transition hd ht]
      exact Nat.le_succ _
    | some t =>
      rw [step_of_transition hd ht]
      have h1 := hmove d.tapes.first t.write1 t.dir1
      have h2 := hmove d.tapes.second t.write2 t.dir2
      simp only [far, Transition.applyTo]
      omega

/-- A step that does not end the run is taken by a transition. -/
theorem exists_transition (hd : d.halted = false)
    (h : (d.step (TwoTape.machine ts)).halted = false) :
    ∃ t, d.transition? ts = some t ∧ isHalting t.next = false := by
  cases ht : d.transition? ts with
  | none =>
    rw [step_of_no_transition hd ht] at h
    cases h
  | some t =>
    rw [step_of_transition hd ht] at h
    exact ⟨t, rfl, h⟩

end Configuration

namespace Represents

variable {ts : List Transition} {c : Configuration Tape} {d : Configuration TapePair}

theorem halted_eq (h : Represents ts c d) : c.halted = false := by
  obtain ⟨e, -, hs⟩ := Configuration.represents_iff.mp h
  exact hs.halted_eq

/-- Both letters are brought to the anchor, after a sweep to the farther head and back. -/
theorem exists_atAnchor (h : Represents ts c d) :
    ∃ e n, n + 1 ≤ 2 * d.far ∧ (d.board e).Sound (.ofTransitions ts) ∧
      (View.firing d.tapes.first.read d.tapes.second.read (d.board e).cell).ShownBy ts
        ((Configuration.step (emulator ts))^[n] c) := by
  obtain ⟨e, hb, hs⟩ := Configuration.represents_iff.mp h
  obtain ⟨n, hrun, hn⟩ := Scene.exists_atAnchor hb (b := d.board e) rfl rfl
  have hshown := hs.run hrun
  refine ⟨e, n, hn, hb, ?_⟩
  rw [Tape.read_eq_letter, Tape.read_eq_letter]
  exact hshown

/-- A transition into a running state leads to the successor in four sweeps to the farther head. -/
theorem exists_next (h : Represents ts c d) {t : Transition} (ht : d.transition? ts = some t)
    (hn : isHalting t.next = false) :
    ∃ n, n ≤ 4 * d.far + 4 ∧ Represents ts ((Configuration.step (emulator ts))^[n + 1] c)
      (d.step (TwoTape.machine ts)) := by
  obtain ⟨e, n, hlocate, hb, hs⟩ := h.exists_atAnchor
  have hfired := hs.fire_moving rfl h.running ht hn
  rw [← Board.cell_withState] at hfired
  obtain ⟨k, hrun, hfits, hmove⟩ :=
    Scene.exists_apply hb (b := d.board e) rfl rfl (List.mem_of_find?_eq_some ht) hn
  rw [Configuration.far_board] at hmove
  have hrest := hfired.run hrun
  refine ⟨k + n, by omega,
    Configuration.represents_iff.mpr ⟨((d.board e).apply t).extent, ?_⟩⟩
  rw [Configuration.step_of_transition h.running ht, ← Configuration.board_apply d e t, Nat.add_assoc,
    Function.iterate_add_apply, Function.iterate_succ_apply']
  exact ⟨hfits.sound, hrest⟩

theorem cycle_moving (h : Represents ts c d) {t : Transition} (ht : d.transition? ts = some t)
    (hn : isHalting t.next = false) :
    ∃ n, Represents ts ((Configuration.step (emulator ts))^[n + 1] c)
      (d.step (TwoTape.machine ts)) := by
  obtain ⟨n, -, hrep⟩ := h.exists_next ht hn
  exact ⟨n, hrep⟩

theorem cycle_halting (h : Represents ts c d) {t : Transition} (ht : d.transition? ts = some t)
    (hn : isHalting t.next = true) :
    ∃ n, (((Configuration.step (emulator ts))^[n] c).halted = false) ∧
      (∃ row, ((reduce ts).find? fun row =>
          row.key = ⟨((Configuration.step (emulator ts))^[n] c).state,
            ((Configuration.step (emulator ts))^[n] c).tapes.read⟩) = some row ∧ row.next = t.next) ∧
      ((Configuration.step (emulator ts))^[n + 1] c).state = t.next := by
  obtain ⟨e, n, -, -, hs⟩ := h.exists_atAnchor
  obtain ⟨hrow, hstep⟩ := hs.fire_halting rfl h.running ht hn
  refine ⟨n, hs.halted_eq, hrow, ?_⟩
  rw [Function.iterate_succ_apply', hstep]

theorem cycle_stuck (h : Represents ts c d) (ht : d.transition? ts = none) :
    ∃ n, ((Configuration.step (emulator ts))^[n] c).halted = false ∧
      ((reduce ts).find? fun row => row.key = ⟨((Configuration.step (emulator ts))^[n] c).state,
        ((Configuration.step (emulator ts))^[n] c).tapes.read⟩) = none ∧
      ((Configuration.step (emulator ts))^[n + 1] c).state = rejectState := by
  obtain ⟨e, n, -, -, hs⟩ := h.exists_atAnchor
  obtain ⟨hrow, hstep⟩ := hs.fire_none rfl h.running ht
  refine ⟨n, hs.halted_eq, hrow, ?_⟩
  rw [Function.iterate_succ_apply', hstep]

/-- The step that ends the run of the two-tape machine ends that of the emulator in the same state.
-/
theorem cycle_last (h : Represents ts c d) (hlast : (d.step (TwoTape.machine ts)).halted = true) :
    ∃ n, n + 1 ≤ 2 * d.far ∧ ((Configuration.step (emulator ts))^[n + 1] c).state =
      (d.step (TwoTape.machine ts)).state := by
  obtain ⟨e, n, hn, -, hs⟩ := h.exists_atAnchor
  refine ⟨n, hn, ?_⟩
  rw [Function.iterate_succ_apply']
  cases ht : d.transition? ts with
  | none =>
    obtain ⟨-, hstep⟩ := hs.fire_none rfl h.running ht
    rw [hstep, Configuration.step_of_no_transition h.running ht]
  | some t =>
    rw [Configuration.step_of_transition h.running ht] at hlast ⊢
    obtain ⟨-, hstep⟩ := hs.fire_halting rfl h.running ht hlast
    rw [hstep]

end Represents

/-- **One cycle refines one step.** From a configuration that represents one of the two-tape
machine, a transition into a running state is followed to a representation of the successor, a
transition into a halting state ends the run in that state by a row of the table, and where no
transition applies the run comes to a cell without a row and rejects. -/
theorem cycle_refines_step {ts : List Transition} {c : Configuration Tape}
    {d : Configuration TapePair} (h : Represents ts c d) :
    (∀ q tapes, (TwoTape.machine ts).next? d.state d.tapes = some (q, tapes) → isHalting q = false →
      ∃ n, 1 ≤ n ∧ (∀ k ≤ n, ((Configuration.step (emulator ts))^[k] c).halted = false) ∧
        Represents ts ((Configuration.step (emulator ts))^[n] c) (d.step (TwoTape.machine ts))) ∧
    (∀ q tapes, (TwoTape.machine ts).next? d.state d.tapes = some (q, tapes) → isHalting q = true →
      ∃ n, (∀ k ≤ n, ((Configuration.step (emulator ts))^[k] c).halted = false) ∧
        (∃ row, ((reduce ts).find? fun row =>
            row.key = ⟨((Configuration.step (emulator ts))^[n] c).state,
              ((Configuration.step (emulator ts))^[n] c).tapes.read⟩) = some row ∧ row.next = q) ∧
        ((Configuration.step (emulator ts))^[n + 1] c).state = q) ∧
    ((TwoTape.machine ts).next? d.state d.tapes = none →
      ∃ n, (∀ k ≤ n, ((Configuration.step (emulator ts))^[k] c).halted = false) ∧
        ((reduce ts).find? fun row => row.key = ⟨((Configuration.step (emulator ts))^[n] c).state,
          ((Configuration.step (emulator ts))^[n] c).tapes.read⟩) = none ∧
        ((Configuration.step (emulator ts))^[n + 1] c).state = rejectState) := by
  have hnext : (TwoTape.machine ts).next? d.state d.tapes = (d.transition? ts).map _ :=
    TwoTape.next?_machine ts d.state d.tapes
  refine ⟨?_, ?_, ?_⟩
  · intro q tapes hq hrunning
    obtain ⟨t, ht, hmk⟩ := Option.map_eq_some_iff.mp (hnext.symm.trans hq)
    obtain rfl : t.next = q := congrArg Prod.fst hmk
    obtain ⟨n, hrep⟩ := h.cycle_moving ht hrunning
    exact ⟨n + 1, Nat.succ_le_succ (Nat.zero_le n),
      fun k hk => Configuration.running_of_le hk hrep.halted_eq, hrep⟩
  · intro q tapes hq hhalting
    obtain ⟨t, ht, hmk⟩ := Option.map_eq_some_iff.mp (hnext.symm.trans hq)
    obtain rfl : t.next = q := congrArg Prod.fst hmk
    obtain ⟨n, hn, hrow, hstate⟩ := h.cycle_halting ht hhalting
    exact ⟨n, fun k hk => Configuration.running_of_le hk hn, hrow, hstate⟩
  · intro hnone
    obtain ⟨n, hn, hrow, hstate⟩ :=
      h.cycle_stuck (Option.map_eq_none_iff.mp (hnext.symm.trans hnone))
    exact ⟨n, fun k hk => Configuration.running_of_le hk hn, hrow, hstate⟩

/-- A machine whose heads part: one stays at the end of its tape and the other leaves the input. -/
def parting : List Transition := [⟨startState, "a", blank, startState, blank, "a", .left, .right⟩]

def partingAtRest : Configuration Tape where
  state := (Signature.ofTransitions parting).guard.control (.locating 0 [])
  tapes := ⟨[(Signature.ofTransitions parting).guard.cell (.anchor startState)],
    [(Signature.ofTransitions parting).guard.cell (.tracked "a" blank .both)]⟩
  steps := 0

theorem represents_parting :
    Represents parting partingAtRest (.initial (TwoTape.machine parting) ["a"]) := by
  have hblank := (Signature.proper_ofTransitions parting).blank_mem
  refine ⟨.inl rfl, rfl, ?_, fun _ => hblank, rfl, rfl, rfl, 1, Nat.one_pos, Nat.one_pos, ?_, ?_, ?_⟩
  · intro i
    cases i with
    | zero =>
      exact Signature.mem_alphabet_of_letters (s := "a") List.mem_cons_self List.mem_cons_self
    | succ i => exact hblank
  · intro i hi
    obtain rfl : i = 0 := by omega
    rfl
  · intro i hi
    obtain ⟨i, rfl⟩ : ∃ j, i = j + 2 := ⟨i - 2, by omega⟩
    rfl
  · intro i hi
    obtain ⟨i, rfl⟩ : ∃ j, i = j + 1 := ⟨i - 1, by omega⟩
    exact ⟨rfl, rfl⟩

theorem cycle_refines_step_parting :
    Represents parting partingAtRest (.initial (TwoTape.machine parting) ["a"]) ∧
      ∃ n, 1 ≤ n ∧
        (∀ k ≤ n, ((Configuration.step (emulator parting))^[k] partingAtRest).halted = false) ∧
        Represents parting ((Configuration.step (emulator parting))^[n] partingAtRest)
          ((Configuration.initial (TwoTape.machine parting) ["a"]).step (TwoTape.machine parting)) := by
  refine ⟨represents_parting,
    (cycle_refines_step represents_parting).1 startState ⟨⟨[], [blank]⟩, ⟨["a"], []⟩⟩ ?_ rfl⟩
  rw [TwoTape.next?_machine]
  rfl
end Multitrack
