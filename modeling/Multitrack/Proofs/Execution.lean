import Mathlib.Logic.Function.Basic
import Mathlib.Tactic
import Multitrack.Proofs.Lookup
import Multitrack.Proofs.Runs
import Multitrack.Proofs.TapeCells

/-! # The emulating machine at work

The table of a reduction is run as any other table. A view is a moment of that run in which every
letter on the tape is the name of a cell and the state is the name of a stage. Looking a row up is
then the same as taking the stage's rule, so the machine goes from view to view as the stages say;
with both letters at the anchor it does what the first matching transition says. -/
namespace Multitrack

theorem Table.next?_machine (t : Table) (q : StateName) (tape : Tape) :
    t.machine.next? q tape = (t.rows.find? fun r => r.key = ⟨q, tape.read⟩).map fun r =>
      (r.next, (tape.write r.write).move r.dir) :=
  t.next?_index q tape

def emulator (ts : List Transition) : Machine Tape := (Table.ofRows (reduce ts)).machine

theorem next?_emulator (ts : List Transition) (q : StateName) (tape : Tape) :
    (emulator ts).next? q tape = ((reduce ts).find? fun row => row.key = ⟨q, tape.read⟩).map fun row =>
      (row.next, (tape.write row.write).move row.dir) := by
  rw [emulator, Table.next?_machine, Table.ofRows]

/-- A stage at work on a tape of cells. -/
structure View where
  stage : Stage
  /-- The cell under the head. -/
  pos : Nat
  cells : Nat → Cell

namespace View

/-- The stage takes its rule for the cell under the head. -/
structure Step (sig : Signature) (v v' : View) : Prop where
  meets : v.stage.Meets sig (v.cells v.pos)
  target : (v.stage.rule (v.cells v.pos)).target = v'.stage.control
  pos_eq : (v.stage.rule (v.cells v.pos)).dir.shift v.pos = v'.pos
  cells_eq : Function.update v.cells v.pos (v.stage.rule (v.cells v.pos)).write = v'.cells

theorem Step.of_rule {sig : Signature} {v v' : View} {r : Rule}
    (hr : v.stage.rule (v.cells v.pos) = r) (meets : v.stage.Meets sig (v.cells v.pos))
    (target : r.target = v'.stage.control) (pos_eq : r.dir.shift v.pos = v'.pos)
    (cells_eq : Function.update v.cells v.pos r.write = v'.cells) : v.Step sig v' := by
  subst hr
  exact ⟨meets, target, pos_eq, cells_eq⟩

inductive Run (sig : Signature) (part : Request) : Nat → View → View → Prop
  | nil (v : View) : Run sig part 0 v v
  | cons {n : Nat} {v v' v'' : View} (within : v.stage.part = part) (step : v.Step sig v')
      (tail : Run sig part n v' v'') : Run sig part (n + 1) v v''

theorem Run.trans {sig : Signature} {part : Request} {n k : Nat} {v v' v'' : View}
    (h : Run sig part n v v') (h' : Run sig part k v' v'') : Run sig part (n + k) v v'' := by
  induction h with
  | nil v => rwa [Nat.zero_add]
  | cons within step _ ih =>
    rw [Nat.add_right_comm]
    exact .cons within step (ih h')

/-- The names of a view's stage and cells are what a configuration of the emulator holds. -/
structure ShownBy (ts : List Transition) (v : View) (c : Configuration Tape) : Prop where
  state_eq : c.state = (Signature.ofTransitions ts).guard.control v.stage.control
  head_eq : c.tapes.head = v.pos
  letter_eq : ∀ i, c.tapes.letter i = (Signature.ofTransitions ts).guard.cell (v.cells i)

namespace ShownBy

variable {ts : List Transition} {v : View} {c : Configuration Tape}

theorem halted_eq (h : v.ShownBy ts c) : c.halted = false := by
  rw [Configuration.halted, h.state_eq]
  exact Stage.name_not_halting _ v.stage

/-- A stage outside of the sweep for letters is not its beginning. -/
theorem state_ne_locating (h : v.ShownBy ts c) (hpart : v.stage.part ≠ .locate) :
    c.state ≠ (Signature.ofTransitions ts).guard.control (.locating 0 []) := by
  intro hstate
  have hstage : v.stage = .scan .empty := Stage.name_injective _ (h.state_eq.symm.trans hstate)
  exact hpart (hstage ▸ rfl)

theorem read_eq (h : v.ShownBy ts c) :
    c.tapes.read = (Signature.ofTransitions ts).guard.cell (v.cells v.pos) := by
  rw [Tape.read_eq_letter, h.letter_eq, h.head_eq]

/-- The row that applies is the one of the rule for the stage and the cell. -/
theorem find?_rows (h : v.ShownBy ts c)
    (hcell : (Signature.ofTransitions ts).guard.Covers (v.cells v.pos)) :
    ((reduce ts).find? fun row => row.key = ⟨c.state, c.tapes.read⟩) =
      ((enteredRules ts).find? fun r => r.source = v.stage.control ∧ r.read = v.cells v.pos).map
        (Signature.ofTransitions ts).guard.row := by
  rw [h.state_eq, h.read_eq]
  exact find?_reduce ts v.stage hcell

/-- A rule that is found is applied. -/
theorem step_of_find? (h : v.ShownBy ts c)
    (hcell : (Signature.ofTransitions ts).guard.Covers (v.cells v.pos)) {r : Rule}
    (hr : ((enteredRules ts).find? fun r => r.source = v.stage.control ∧ r.read = v.cells v.pos) =
      some r) :
    c.step (emulator ts) = ⟨(Signature.ofTransitions ts).guard.control r.target,
      (c.tapes.write ((Signature.ofTransitions ts).guard.cell r.write)).move r.dir, c.steps + 1⟩ := by
  refine Configuration.step_of_next h.halted_eq ?_
  rw [next?_emulator, h.find?_rows hcell, hr]
  rfl

theorem letter_write (h : v.ShownBy ts c) (cell : Cell) (d : Dir) (i : Nat) :
    ((c.tapes.write ((Signature.ofTransitions ts).guard.cell cell)).move d).letter i =
      (Signature.ofTransitions ts).guard.cell (Function.update v.cells v.pos cell i) := by
  rw [Tape.letter_move, Tape.letter_write, h.head_eq, h.letter_eq]
  by_cases hi : i = v.pos
  · rw [if_pos hi, hi, Function.update_self]
  · rw [if_neg hi, Function.update_of_ne hi]

/-- What a configuration shows after a rule has been applied. -/
theorem of_rule (h : v.ShownBy ts c) {r : Rule} {stage : Stage} (htarget : r.target = stage.control)
    (n : Nat) : View.ShownBy ts ⟨stage, r.dir.shift v.pos, Function.update v.cells v.pos r.write⟩
      ⟨(Signature.ofTransitions ts).guard.control r.target,
        (c.tapes.write ((Signature.ofTransitions ts).guard.cell r.write)).move r.dir, n⟩ := by
  refine ⟨congrArg (Signature.ofTransitions ts).guard.control htarget, ?_, h.letter_write r.write r.dir⟩
  rw [Tape.head_move, Tape.head_write, h.head_eq]

/-- **The machine does what the stage says.** -/
theorem step (h : v.ShownBy ts c) {v' : View} (hstep : v.Step (.ofTransitions ts) v') :
    v'.ShownBy ts (c.step (emulator ts)) := by
  have hcell := hstep.meets.covers (Signature.proper_ofTransitions ts)
  have hshown := h.of_rule hstep.target (c.steps + 1)
  rw [hstep.pos_eq, hstep.cells_eq] at hshown
  rw [h.step_of_find? hcell (find?_of_meets hstep.meets)]
  exact hshown

theorem run (h : v.ShownBy ts c) {part : Request} {n : Nat} {v' : View}
    (hrun : Run (.ofTransitions ts) part n v v') :
    v'.ShownBy ts ((Configuration.step (emulator ts))^[n] c) := by
  induction hrun generalizing c with
  | nil v => exact h
  | cons _ hstep _ ih => exact ih (h.step hstep)

/-- Before its end a run shows stages of its own part only. -/
theorem run_within (h : v.ShownBy ts c) {part : Request} {n : Nat} {v' : View}
    (hrun : Run (.ofTransitions ts) part n v v') {k : Nat} (hk : k < n) :
    ∃ w : View, w.stage.part = part ∧ w.ShownBy ts ((Configuration.step (emulator ts))^[k] c) := by
  induction hrun generalizing c k with
  | nil v => cases hk
  | cons within hstep _ ih =>
    cases k with
    | zero => exact ⟨_, within, h⟩
    | succ k => exact ih (h.step hstep) (Nat.lt_of_succ_lt_succ hk)

end ShownBy

/-! ## Firing -/

section Fire

variable {ts : List Transition} {a b : Letter} {q : StateName} {cells : Nat → Cell}
  {c : Configuration Tape}

def firing (a b : Letter) (cells : Nat → Cell) : View := ⟨.scan ⟨some a, some b⟩, 0, cells⟩

namespace ShownBy

theorem find?_rows_fire (h : (firing a b cells).ShownBy ts c) (hcell : cells 0 = .anchor q)
    (hq : isHalting q = false) :
    ((reduce ts).find? fun row => row.key = ⟨c.state, c.tapes.read⟩) =
      ((ts.find? fun t => t.key = ⟨q, a, b⟩).bind Transition.fireRule?).map
        (Signature.ofTransitions ts).guard.row := by
  have hfire := find?_fire ts hq a b
  rw [← hcell] at hfire
  rw [← hfire]
  exact h.find?_rows (show Guard.Covers _ (cells 0) from hcell ▸ .anchor q)

/-- Without a matching transition there is no row. -/
theorem fire_none (h : (firing a b cells).ShownBy ts c) (hcell : cells 0 = .anchor q)
    (hq : isHalting q = false) (ht : (ts.find? fun t => t.key = ⟨q, a, b⟩) = none) :
    ((reduce ts).find? fun row => row.key = ⟨c.state, c.tapes.read⟩) = none ∧
      c.step (emulator ts) = { c with state := rejectState } := by
  have hrows := h.find?_rows_fire hcell hq
  rw [ht] at hrows
  refine ⟨hrows, Configuration.step_of_stuck h.halted_eq ?_⟩
  rw [next?_emulator, hrows]
  rfl

/-- Only a missing transition leaves the emulator without a row. -/
theorem next?_firing_eq_none_iff (h : (firing a b cells).ShownBy ts c) (hcell : cells 0 = .anchor q)
    (hq : isHalting q = false) :
    (emulator ts).next? c.state c.tapes = none ↔ ∀ t ∈ ts, t.key ≠ ⟨q, a, b⟩ := by
  rw [next?_emulator, Option.map_eq_none_iff, h.find?_rows_fire hcell hq, Option.map_eq_none_iff,
    Option.bind_eq_none_iff]
  constructor
  · intro hnone t ht hkey
    cases hf : ts.find? fun t => t.key = ⟨q, a, b⟩ with
    | none => exact absurd (List.find?_eq_none.mp hf t ht) (by simp [hkey])
    | some t' =>
      have hkey' : t'.key = ⟨q, a, b⟩ := by simpa using List.find?_some hf
      have hstate : isHalting t'.state = false :=
        (congrArg isHalting (congrArg Transition.Key.state hkey')).trans hq
      obtain ⟨r, hr⟩ := Transition.fireRule?_isSome hstate
      exact absurd (hnone t' hf) (by simp [hr])
  · intro hne t ht
    have hkey : t.key = ⟨q, a, b⟩ := by simpa using List.find?_some ht
    exact absurd hkey (hne t (List.mem_of_find?_eq_some ht))

theorem step_fire {t : Transition} {r : Rule} (h : (firing a b cells).ShownBy ts c)
    (hcell : cells 0 = .anchor q) (hq : isHalting q = false)
    (ht : (ts.find? fun t => t.key = ⟨q, a, b⟩) = some t) (hr : t.fireRule? = some r) :
    c.step (emulator ts) = ⟨(Signature.ofTransitions ts).guard.control r.target,
      (c.tapes.write ((Signature.ofTransitions ts).guard.cell r.write)).move r.dir, c.steps + 1⟩ := by
  have hfire := find?_fire ts hq a b
  rw [ht, Option.bind_some, hr, ← hcell] at hfire
  exact h.step_of_find? (show Guard.Covers _ (cells 0) from hcell ▸ .anchor q) hfire

/-- A transition into a halting state ends the run by a row of its own. -/
theorem fire_halting {t : Transition} (h : (firing a b cells).ShownBy ts c)
    (hcell : cells 0 = .anchor q) (hq : isHalting q = false)
    (ht : (ts.find? fun t => t.key = ⟨q, a, b⟩) = some t) (hn : isHalting t.next = true) :
    (∃ row, ((reduce ts).find? fun row => row.key = ⟨c.state, c.tapes.read⟩) = some row ∧
        row.next = t.next) ∧
      c.step (emulator ts) = ⟨t.next,
        (c.tapes.write ((Signature.ofTransitions ts).guard.cell .sentinel)).move .stay,
        c.steps + 1⟩ := by
  have hkey : t.key = ⟨q, a, b⟩ := by simpa using List.find?_some ht
  have hstate : isHalting t.state = false :=
    (congrArg isHalting (congrArg Transition.Key.state hkey)).trans hq
  obtain ⟨halt, hhalt, hname⟩ := Control.halting?_eq_some hn
  have hrule := Transition.fireRule?_of_halting hstate hhalt
  have hrows := h.find?_rows_fire hcell hq
  rw [ht, Option.bind_some, hrule] at hrows
  refine ⟨⟨_, hrows, hname _⟩, ?_⟩
  rw [h.step_fire hcell hq ht hrule]
  exact congrArg (Configuration.mk · _ _) (hname _)

/-- Any other transition leaves its state on the anchor and hands over to the move. -/
theorem fire_moving {t : Transition} (h : (firing a b cells).ShownBy ts c)
    (hcell : cells 0 = .anchor q) (hq : isHalting q = false)
    (ht : (ts.find? fun t => t.key = ⟨q, a, b⟩) = some t) (hn : isHalting t.next = false) :
    View.ShownBy ts ⟨t.seekStage, 1, Function.update cells 0 (.anchor t.next)⟩
      (c.step (emulator ts)) := by
  have hkey : t.key = ⟨q, a, b⟩ := by simpa using List.find?_some ht
  have hstate : isHalting t.state = false :=
    (congrArg isHalting (congrArg Transition.Key.state hkey)).trans hq
  have hrule := Transition.fireRule?_of_not_halting hstate hn
  rw [h.step_fire hcell hq ht hrule]
  exact h.of_rule (r := ⟨_, _, t.seekStage.control, .anchor t.next, .right⟩) rfl _

end ShownBy

end Fire

end View

end Multitrack
