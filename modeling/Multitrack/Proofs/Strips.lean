import Mathlib.Tactic
import Multitrack.Proofs.Sessions

/-! # Tapes as strips of cells

A tape can also be kept as its cells in use and a number for the head. The head may then be beyond the
cells: reading there gives a blank, and writing there first adds blanks until there is a cell to write.
Nothing in a strip keeps its head near its cells. But a session writes before it moves, so that the
head never gets beyond the cell after the last one, and the strip is a tape seen by its cells and the
position of its head. A session on strips therefore goes through the same states, counts the same steps
and reports the same as one on tapes. -/
namespace Multitrack

/-! ## Strips -/

structure Strip where
  cells : List Letter
  head : Nat
deriving DecidableEq, Repr

namespace Strip

def read (s : Strip) : Letter := if h : s.head < s.cells.length then s.cells[s.head] else blank

/-- Adds blanks until there is a cell at the position. -/
def grow (cells : List Letter) (position : Nat) : List Letter :=
  if cells.length ≤ position then grow (cells ++ [blank]) position else cells
termination_by position + 1 - cells.length
decreasing_by
  rw [List.length_append, List.length_singleton]
  omega

def write (s : Strip) (a : Letter) : Strip := { s with cells := (grow s.cells s.head).set s.head a }

def move (s : Strip) : Dir → Strip
  | .left => if 0 < s.head then { s with head := s.head - 1 } else s
  | .right => { s with head := s.head + 1 }
  | .stay => s

theorem grow_eq_append (cells : List Letter) (position : Nat) :
    grow cells position = cells ++ List.replicate (position + 1 - cells.length) blank := by
  fun_induction grow cells position with
  | case1 cells hle ih =>
    have hcount : position + 1 - cells.length = position + 1 - (cells ++ [blank]).length + 1 := by
      rw [List.length_append, List.length_singleton]
      omega
    rw [ih, hcount, List.replicate_succ, List.append_assoc, List.singleton_append]
  | case2 cells hlt =>
    rw [show position + 1 - cells.length = 0 by omega, List.replicate_zero, List.append_nil]

theorem head_move (s : Strip) (d : Dir) : (s.move d).head = d.shift s.head := by
  cases d with
  | left =>
    rw [move, apply_ite Strip.head, Dir.shift]
    split
    · rfl
    · omega
  | right => rfl
  | stay => rfl

theorem cells_move (s : Strip) (d : Dir) : (s.move d).cells = s.cells := by
  cases d with
  | left => rw [move, apply_ite Strip.cells, ite_self]
  | right => rfl
  | stay => rfl

end Strip

/-! ## A tape seen as a strip -/

namespace Tape

def strip (t : Tape) : Strip := ⟨t.cells, t.head⟩

theorem read_strip (t : Tape) : t.strip.read = t.read := by
  rw [read_eq_letter, letter, Strip.read]
  split
  · rename_i hlt
    exact (List.getD_eq_getElem t.cells blank hlt).symm
  · rename_i hge
    exact (List.getD_eq_default t.cells blank (Nat.not_lt.mp hge)).symm

/-- Where the head is on a cell nothing is added, and else one blank is, on which the letter goes. -/
theorem cells_write (t : Tape) (a : Letter) :
    (t.write a).cells = (Strip.grow t.cells t.head).set t.head a := by
  obtain ⟨before, after⟩ := t
  rw [Strip.grow_eq_append]
  cases after with
  | nil => simp [cells, write, head]
  | cons b rest => simp [cells, write, head]

/-- **Writing and then moving does the same to a tape and to its strip.** A move alone does not: off the
cell after the last one it makes a tape longer. -/
theorem strip_move_write (t : Tape) (a : Letter) (d : Dir) :
    ((t.write a).move d).strip = (t.strip.write a).move d := by
  have hcells : ((t.write a).move d).cells = ((t.strip.write a).move d).cells := by
    rw [cells_move_write, cells_write, Strip.cells_move]
    rfl
  have hhead : ((t.write a).move d).head = ((t.strip.write a).move d).head := by
    rw [head_move, head_write, Strip.head_move]
    rfl
  exact Strip.mk.injEq .. ▸ ⟨hcells, hhead⟩

end Tape

/-! ## Machines that do the same -/

def Configuration.map {τ σ : Type} (view : τ → σ) (c : Configuration τ) : Configuration σ :=
  ⟨c.state, view c.tapes, c.steps⟩

def Session.map {τ σ : Type} (view : τ → σ) (m : Machine σ) (s : Session τ) : Session σ :=
  ⟨m, s.limit, s.now.map view⟩

/-- The second machine does to what is seen of the tapes what the first one does to the tapes. -/
structure Machine.Mirrors {τ σ : Type} (m : Machine τ) (m' : Machine σ) (view : τ → σ) : Prop where
  unused : m'.unused = view m.unused
  load : ∀ input, m'.load input = view (m.load input)
  next : ∀ q tapes, m'.next? q (view tapes) = (m.next? q tapes).map fun x => (x.1, view x.2)
  output : ∀ tapes, (m'.output (view tapes)).cells = (m.output tapes).cells

section Mirrors

variable {τ σ : Type} {m : Machine τ} {m' : Machine σ} {view : τ → σ} (h : m.Mirrors m' view)
include h

theorem Configuration.step_map (c : Configuration τ) :
    (c.map view).step m' = (c.step m).map view := by
  have hhalted : (c.map view).halted = c.halted := rfl
  unfold step
  rw [hhalted, show m'.next? (c.map view).state (c.map view).tapes = _ from h.next c.state c.tapes]
  split
  · rfl
  · cases m.next? c.state c.tapes <;> rfl

theorem Configuration.advance_map (n : Nat) (c : Configuration τ) :
    (c.map view).advance m' n = (c.advance m n).map view := by
  rw [advance_eq_iterate, advance_eq_iterate]
  have hstep : Function.Semiconj (Configuration.map view) (Configuration.step m)
      (Configuration.step m') := fun c => (step_map h c).symm
  exact ((hstep.iterate_right n).eq c).symm

theorem Configuration.initial_map (input : List Letter) :
    initial m' input = (initial m input).map view := by
  rw [initial, h.load]
  rfl

theorem Session.perform_map {s : Session τ} (hs : s.machine = m) (command : Command) :
    (s.map view m').perform command = (s.perform command).map view m' := by
  subst hs
  cases command with
  | reset input => exact congrArg (Session.mk m' s.limit) (Configuration.initial_map h input)
  | step => exact congrArg (Session.mk m' s.limit) (Configuration.step_map h s.now)
  | run input =>
    have hinitial := Configuration.initial_map h input
    have hadvance := Configuration.advance_map h s.limit.toNat (.initial s.machine input)
    rw [← hinitial] at hadvance
    exact congrArg (Session.mk m' s.limit) hadvance

/-- Whatever both sessions are told to do, one is the view of the other. -/
theorem Session.performAll_map {s : Session τ} (hs : s.machine = m) (commands : List Command) :
    (s.map view m').performAll commands = (s.performAll commands).map view m' := by
  induction commands generalizing s with
  | nil => rfl
  | cons command rest ih =>
    have hmachine : (s.perform command).machine = m := (machine_performAll s [command]).trans hs
    calc (s.map view m').performAll (command :: rest)
        = ((s.map view m').perform command).performAll rest := rfl
      _ = ((s.perform command).map view m').performAll rest := by rw [perform_map h hs command]
      _ = ((s.perform command).performAll rest).map view m' := ih hmachine

theorem Session.new_map (limit : Int) : Session.new m' limit = (Session.new m limit).map view m' := by
  rw [Session.new, Configuration.unused, h.unused]
  rfl

theorem Session.outcome_map {s : Session τ} (hs : s.machine = m) :
    (s.map view m').outcome = s.outcome := by
  subst hs
  exact congrArg (fun cells => { s.outcome with finalTape := trimBlanks cells })
    (h.output s.now.tapes)

theorem Session.mirrored (limit : Int) (commands : List Command) :
    let s := (Session.new m limit).performAll commands
    let s' := (Session.new m' limit).performAll commands
    s'.now = s.now.map view ∧ s'.outcome = s.outcome := by
  intro s s'
  have hmap : s' = s.map view m' := by
    rw [show s' = (Session.new m' limit).performAll commands from rfl, Session.new_map h]
    exact Session.performAll_map h rfl commands
  rw [hmap]
  exact ⟨rfl, Session.outcome_map h (machine_performAll _ commands)⟩

end Mirrors

/-! ## Sessions on strips -/

/-- The machine of a table on a strip. It searches the sorted rows in every step. -/
def Table.stripMachine (t : Table) : Machine Strip where
  next? q s := (t.search q s.read).map fun r => (r.next, (s.write r.write).move r.dir)
  unused := ⟨[], 0⟩
  load input := ⟨if input.isEmpty then [blank] else input, 0⟩
  output s := .ofList s.cells

def TwoTape.stripMachine (ts : List Transition) : Machine (Strip × Strip) where
  next? q s := (index ts)[Transition.Key.mk q s.1.read s.2.read]?.map fun t =>
    (t.next, (s.1.write t.write1).move t.dir1, (s.2.write t.write2).move t.dir2)
  unused := (⟨[], 0⟩, ⟨[], 0⟩)
  load input := (⟨input, 0⟩, ⟨[], 0⟩)
  output s := .ofList s.1.cells

def TapePair.strips (tapes : TapePair) : Strip × Strip := (tapes.first.strip, tapes.second.strip)

theorem Table.mirrors_stripMachine (t : Table) : t.machine.Mirrors t.stripMachine Tape.strip where
  unused := rfl
  load _ := rfl
  next q tape := by
    rw [next?_machine, Option.map_map]
    simp only [stripMachine, Tape.read_strip, search_eq_find?, ← Tape.strip_move_write]
    rfl
  output _ := rfl

theorem TwoTape.mirrors_stripMachine (ts : List Transition) :
    (machine ts).Mirrors (stripMachine ts) TapePair.strips where
  unused := rfl
  load _ := rfl
  next q tapes := by
    simp only [stripMachine, TapePair.strips, Tape.read_strip, ← Tape.strip_move_write]
    rw [show (machine ts).next? q tapes = (index ts).next? q tapes from rfl, Index.next?,
      Option.map_map]
    rfl
  output _ := rfl

/-- **Sessions on strips are sessions on tapes.** For every table, single-tape or two-tape, and after
every sequence of resets, steps and runs, a session on strips is in the same state after as many steps,
has the cells and heads of the tapes, and reports the same outcome. No head is beyond the cell after
the last one, whatever the strip would allow. -/
theorem session_on_strips (limit : Int) (commands : List Command) :
    (∀ t : Table,
      let s := (Session.new t.machine limit).performAll commands
      let s' := (Session.new t.stripMachine limit).performAll commands
      s'.now = s.now.map Tape.strip ∧ s'.outcome = s.outcome ∧
        s'.now.tapes.head ≤ s'.now.tapes.cells.length) ∧
    ∀ ts : List Transition,
      let s := (Session.new (TwoTape.machine ts) limit).performAll commands
      let s' := (Session.new (TwoTape.stripMachine ts) limit).performAll commands
      s'.now = s.now.map TapePair.strips ∧ s'.outcome = s.outcome ∧
        s'.now.tapes.1.head ≤ s'.now.tapes.1.cells.length ∧
        s'.now.tapes.2.head ≤ s'.now.tapes.2.cells.length := by
  constructor
  · intro t s s'
    obtain ⟨hnow, houtcome⟩ := Session.mirrored t.mirrors_stripMachine limit commands
    refine ⟨hnow, houtcome, ?_⟩
    rw [show s'.now = _ from hnow]
    exact s.now.tapes.head_le_length_cells
  · intro ts s s'
    obtain ⟨hnow, houtcome⟩ := Session.mirrored (TwoTape.mirrors_stripMachine ts) limit commands
    refine ⟨hnow, houtcome, ?_⟩
    rw [show s'.now = _ from hnow]
    exact ⟨s.now.tapes.first.head_le_length_cells, s.now.tapes.second.head_le_length_cells⟩

end Multitrack
