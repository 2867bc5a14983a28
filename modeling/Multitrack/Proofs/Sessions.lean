import Mathlib.Tactic
import Multitrack.Proofs.Scans

/-! # Sessions under commands

A session can be reset, stepped and run in any order, also before it has been given an input. At every
moment each head is on a cell that has been written or on the one after the last, so that a write adds
one cell at most. A step that applies a row changes the cell under each head and no other, moves each
head by one cell at most, and is counted. A step that finds no row leaves tapes and count as they are,
and so does every step of a session that has halted. -/
namespace Multitrack

/-! ## Writing and moving -/

namespace Tape

theorem head_le_length_cells (t : Tape) : t.head ≤ t.cells.length := by
  rw [cells, List.length_append, List.length_reverse]
  exact Nat.le_add_right _ _

theorem getElem?_cells_write_head (t : Tape) (s : Letter) : (t.write s).cells[t.head]? = some s := by
  simp [cells, write, head]

theorem getElem?_cells_write_of_ne (t : Tape) (s : Letter) {i : Nat} (h : i ≠ t.head) :
    (t.write s).cells[i]? = t.cells[i]? := by
  have hhead : t.before.reverse.length = t.head := List.length_reverse
  change (t.before.reverse ++ s :: t.after.tail)[i]? = (t.before.reverse ++ t.after)[i]?
  rcases Nat.lt_or_gt_of_ne h with hlt | hgt
  · rw [List.getElem?_append_left (by omega), List.getElem?_append_left (by omega)]
  · obtain ⟨j, rfl⟩ := Nat.exists_eq_add_of_lt hgt
    rw [List.getElem?_append_right (by omega), List.getElem?_append_right (by omega), hhead,
      show t.head + j + 1 - t.head = j + 1 by omega, List.getElem?_cons_succ, List.getElem?_tail]

theorem length_cells_write_le (t : Tape) (s : Letter) :
    (t.write s).cells.length ≤ t.cells.length + 1 := by
  obtain ⟨before, after⟩ := t
  simp only [cells, write, List.length_append, List.length_cons, List.length_tail]
  omega

/-- A head that moves off a cell that was written leaves all cells as they are. -/
theorem cells_move_write (t : Tape) (s : Letter) (d : Dir) :
    ((t.write s).move d).cells = (t.write s).cells := by
  cases d with
  | left =>
    obtain ⟨_ | ⟨_, _⟩, _⟩ := t
    · rfl
    · simp [cells, write, move]
  | right => simp [cells, write, move, read]
  | stay => rfl

/-- The letter was written on the cell under the head, and the head was moved. -/
structure Rewritten (t : Tape) (s : Letter) (d : Dir) (t' : Tape) : Prop where
  under : t'.cells[t.head]? = some s
  others : ∀ i, i ≠ t.head → t'.cells[i]? = t.cells[i]?
  grows : t'.cells.length ≤ t.cells.length + 1
  head_eq : t'.head = d.shift t.head
  near : t'.head ≤ t.head + 1 ∧ t.head ≤ t'.head + 1

theorem rewritten (t : Tape) (s : Letter) (d : Dir) : t.Rewritten s d ((t.write s).move d) := by
  have hhead : ((t.write s).move d).head = d.shift t.head := by rw [head_move, head_write]
  refine ⟨?_, fun i hi => ?_, ?_, hhead, ?_⟩
  · rw [cells_move_write, getElem?_cells_write_head]
  · rw [cells_move_write, getElem?_cells_write_of_ne t s hi]
  · rw [cells_move_write]
    exact t.length_cells_write_le s
  · rw [hhead]
    cases d <;> simp only [Dir.shift] <;> omega

end Tape

/-! ## Commands -/

inductive Command where
  | reset (input : List Letter)
  | step
  | run (input : List Letter)
deriving DecidableEq, Repr

namespace Session

variable {τ : Type}

def perform (s : Session τ) : Command → Session τ
  | .reset input => s.reset input
  | .step => s.step
  | .run input => s.run input

def performAll (s : Session τ) (commands : List Command) : Session τ := commands.foldl perform s

theorem machine_performAll (s : Session τ) (commands : List Command) :
    (s.performAll commands).machine = s.machine := by
  induction commands generalizing s with
  | nil => rfl
  | cons command rest ih =>
    refine (ih (s.perform command)).trans ?_
    cases command <;> rfl

theorem performAll_replicate_step (s : Session τ) (n : Nat) :
    s.performAll (List.replicate n .step) =
      { s with now := (Configuration.step s.machine)^[n] s.now } := by
  induction n generalizing s with
  | zero => rfl
  | succ n ih => exact ih s.step

/-- A run is a reset and as many steps as the limit allows; those after the end do nothing. -/
theorem run_eq_performAll (s : Session τ) (input : List Letter) :
    s.run input = s.performAll (.reset input :: List.replicate s.limit.toNat .step) := by
  refine Eq.trans ?_ (performAll_replicate_step (s.reset input) s.limit.toNat).symm
  rw [run, Configuration.advance_eq_iterate]
  rfl

/-- What holds of a machine that nothing was loaded on and of every loaded one, and is kept by each
step, holds whatever a session was told to do. -/
theorem performAll_induction {m : Machine τ} {P : Configuration τ → Prop} (unused : P (.unused m))
    (initial : ∀ input, P (.initial m input)) (step : ∀ c, P c → P (c.step m)) (limit : Int)
    (commands : List Command) : P ((Session.new m limit).performAll commands).now := by
  have hrun : ∀ (n : Nat) (c : Configuration τ), P c → P ((Configuration.step m)^[n] c) := by
    intro n c hc
    induction n with
    | zero => exact hc
    | succ n ih =>
      rw [Function.iterate_succ_apply']
      exact step _ ih
  have hall : ∀ s : Session τ, s.machine = m → P s.now → P (s.performAll commands).now := by
    induction commands with
    | nil => exact fun s _ hs => hs
    | cons command rest ih =>
      rintro s rfl hs
      refine ih (s.perform command) (machine_performAll s [command]) ?_
      cases command with
      | reset input => exact initial input
      | step => exact step _ hs
      | run input =>
        show P ((Configuration.initial s.machine input).advance s.machine s.limit.toNat)
        rw [Configuration.advance_eq_iterate]
        exact hrun _ _ (initial input)
  exact hall _ rfl unused

end Session

/-! ## Steps and heads -/

/-- A measure of the tapes that is nothing at first and grows by one at most when a row is applied. -/
structure Machine.Gradual {τ : Type} (m : Machine τ) (reach : τ → Nat) : Prop where
  unused : reach m.unused = 0
  load : ∀ input, reach (m.load input) = 0
  next : ∀ {q q' : StateName} {tapes tapes' : τ}, m.next? q tapes = some (q', tapes') →
    reach tapes' ≤ reach tapes + 1

theorem Machine.Gradual.reach_le_steps {τ : Type} {m : Machine τ} {reach : τ → Nat}
    (h : m.Gradual reach) (limit : Int) (commands : List Command) :
    let s := (Session.new m limit).performAll commands
    reach s.now.tapes ≤ s.now.steps := by
  refine Session.performAll_induction (P := fun c => reach c.tapes ≤ c.steps) h.unused.le
    (fun input => (h.load input).le) (fun c hc => ?_) limit commands
  cases hhalted : c.halted with
  | true => rwa [Configuration.step_of_halted hhalted]
  | false =>
    cases hnext : m.next? c.state c.tapes with
    | none => rwa [Configuration.step_of_stuck hhalted hnext]
    | some x =>
      rw [Configuration.step_of_next hhalted hnext]
      exact (h.next hnext).trans (Nat.succ_le_succ hc)

theorem Table.gradual_machine (t : Table) : t.machine.Gradual Tape.head where
  unused := rfl
  load _ := rfl
  next {_ _ tape _} h := by
    obtain ⟨r, -, hr⟩ := Option.map_eq_some_iff.mp h
    cases hr
    exact (tape.rewritten r.write r.dir).near.1

theorem TwoTape.gradual_machine (ts : List Transition) :
    (machine ts).Gradual fun tapes => max tapes.first.head tapes.second.head where
  unused := rfl
  load _ := rfl
  next {_ _ tapes _} h := by
    obtain ⟨t, -, ht⟩ := Option.map_eq_some_iff.mp h
    cases ht
    have hfirst := (tapes.first.rewritten t.write1 t.dir1).near.1
    have hsecond := (tapes.second.rewritten t.write2 t.dir2).near.1
    dsimp only
    omega

/-! ## How a session stands -/

/-- How a session stands and what its next step does. The row or transition that is for the present
configuration, if there is one, is `applicable`; applying it is to do to the tapes what `Rewrites`
says. -/
structure Session.Orderly {α τ : Type} (tapes : τ → List Tape) (applicable : Option α)
    (Rewrites : α → τ → τ → Prop) (s : Session τ) : Prop where
  head_le_length : ∀ tape ∈ tapes s.now.tapes, tape.head ≤ tape.cells.length
  head_le_steps : ∀ tape ∈ tapes s.now.tapes, tape.head ≤ s.now.steps
  applied : s.now.halted = false → ∀ a, applicable = some a →
    s.step.now.steps = s.now.steps + 1 ∧ Rewrites a s.now.tapes s.step.now.tapes
  stuck : s.now.halted = false → applicable = none → s.step.now = { s.now with state := rejectState }
  idle : s.now.halted = true → ∀ n, s.performAll (List.replicate n .step) = s
  accepted_iff : s.now.accepted = true ↔ s.now.halted = true ∧ s.now.state = acceptState
  run_eq : ∀ input, s.run input = s.performAll (.reset input :: List.replicate s.limit.toNat .step)

theorem Session.orderly_of_next? {α τ : Type} {s : Session τ} {tapes : τ → List Tape}
    {applicable : Option α} {Rewrites : α → τ → τ → Prop} (result : α → StateName × τ)
    (hnext : s.machine.next? s.now.state s.now.tapes = applicable.map result)
    (hrewrites : ∀ a, Rewrites a s.now.tapes (result a).2)
    (hsteps : ∀ tape ∈ tapes s.now.tapes, tape.head ≤ s.now.steps) :
    s.Orderly tapes applicable Rewrites where
  head_le_length tape _ := tape.head_le_length_cells
  head_le_steps := hsteps
  applied := by
    rintro hrunning a rfl
    have hstep : s.step.now = ⟨(result a).1, (result a).2, s.now.steps + 1⟩ :=
      Configuration.step_of_next hrunning hnext
    rw [hstep]
    exact ⟨rfl, hrewrites a⟩
  stuck := by
    rintro hrunning rfl
    exact Configuration.step_of_stuck hrunning hnext
  idle hhalted n := by
    rw [performAll_replicate_step, Configuration.iterate_of_halted hhalted]
  accepted_iff := by
    rw [Configuration.accepted, Bool.and_eq_true, beq_iff_eq]
  run_eq := s.run_eq_performAll

/-- **Sessions are in order whatever they were told to do.** For every table, single-tape or two-tape,
and after every sequence of resets, steps and runs: no head is beyond the cell after the last one, nor
further out than the number of steps taken; a step that applies a row is counted, writes the cell under
each head and no other, adds one cell at most to a tape, and moves each head by one cell at most; a step
that finds no row changes nothing but the state; once the session has halted further steps change
nothing at all; it has accepted if and only if it has halted in the accepting state. A run is a reset
followed by steps, so that all this holds at each of them too. -/
theorem session_orderly (limit : Int) (commands : List Command) :
    (∀ t : Table,
      let s := (Session.new t.machine limit).performAll commands
      s.Orderly (fun tape => [tape]) (t.rows.find? fun r => r.Fits s.now) fun r tape tape' =>
        tape.Rewritten r.write r.dir tape') ∧
    ∀ ts : List Transition,
      let s := (Session.new (TwoTape.machine ts) limit).performAll commands
      s.Orderly (fun tapes => [tapes.first, tapes.second]) (ts.find? fun t => t.Fits s.now)
        fun t tapes tapes' => tapes.first.Rewritten t.write1 t.dir1 tapes'.first ∧
          tapes.second.Rewritten t.write2 t.dir2 tapes'.second := by
  constructor
  · intro t s
    have hmachine : s.machine = t.machine := Session.machine_performAll _ commands
    have hsteps := t.gradual_machine.reach_le_steps limit commands
    refine Session.orderly_of_next? (Row.result s.now) ?_ (fun r => ?_) ?_
    · rw [hmachine]
      exact Table.next?_eq_scan t.rows s.now
    · exact s.now.tapes.rewritten r.write r.dir
    · simpa using hsteps
  · intro ts s
    have hmachine : s.machine = TwoTape.machine ts := Session.machine_performAll _ commands
    have hsteps := (TwoTape.gradual_machine ts).reach_le_steps limit commands
    refine Session.orderly_of_next? (Transition.result s.now) ?_ (fun t => ?_) ?_
    · rw [hmachine]
      exact TwoTape.next?_eq_scan ts s.now
    · exact ⟨s.now.tapes.first.rewritten t.write1 t.dir1, s.now.tapes.second.rewritten t.write2 t.dir2⟩
    · simpa using hsteps

/-- A row for the state without a name, in which a session is before its first reset. -/
def sleepwalking : Row := ⟨"", blank, "", "a", .right⟩

theorem session_orderly_sleepwalking :
    let s := (Session.new (Table.ofRows [sleepwalking]).machine 10).performAll [.step, .step]
    s.now.tapes.cells = ["a", "a"] ∧ s.now.tapes.head = 2 ∧ s.now.halted = false ∧
      s.step.now.steps = s.now.steps + 1 ∧ s.now.tapes.Rewritten "a" .right s.step.now.tapes ∧
      (s.reset []).step.now = ⟨rejectState, .ofList [blank], 0⟩ := by
  intro s
  obtain ⟨hwalks, -⟩ := session_orderly 10 [.step, .step]
  obtain ⟨hreset, -⟩ := session_orderly 10 [.step, .step, .reset []]
  have hrunning : s.now.halted = false := by decide +kernel
  obtain ⟨hsteps, htape⟩ := (hwalks (Table.ofRows [sleepwalking])).applied hrunning sleepwalking
    (by decide +kernel)
  refine ⟨by decide +kernel, by decide +kernel, hrunning, hsteps, htape, ?_⟩
  exact (hreset (Table.ofRows [sleepwalking])).stuck (by decide +kernel) (by decide +kernel)

end Multitrack
