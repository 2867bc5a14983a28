import Mathlib.Tactic
import Multitrack.Proofs.Boards
import Multitrack.Proofs.Execution

/-! # Scenes of the emulation

A scene is a moment of the emulation: a stage, the cell under the head and the board. `Scene.Fits`
is what holds at every such moment, and `Scene.Turn` is everything that one step does: which rule it
takes, what becomes of the board, that the outcome of the emulated step stays in view, and that the
scene comes nearer to the end of the sweep. Whatever holds along a run follows from single turns. -/
namespace Multitrack

namespace Capture

def get (k : Capture) : Head → Option Letter
  | .one => k.first
  | .two => k.second

def full (k : Capture) : Bool := k.first.isSome && k.second.isSome

theorem get_look (k : Capture) (cell : Cell) (h : Head) : (k.look cell).get h =
    (k.get h).or (if cell.tag.has h then some (cell.letter h) else none) := by
  obtain ⟨_ | _, _ | _⟩ := k <;> cases h <;> rfl

theorem dir_eq (k : Capture) : k.dir = if k.full then .left else .right := by
  obtain ⟨_ | _, _ | _⟩ := k <;> rfl

theorem exists_get_eq_none {k : Capture} (h : k.full = false) : ∃ h, k.get h = none := by
  obtain ⟨_ | _, _ | _⟩ := k
  · exact ⟨.one, rfl⟩
  · exact ⟨.one, rfl⟩
  · exact ⟨.two, rfl⟩
  · cases h

theorem exists_eq_of_full {k : Capture} (h : k.full = true) : ∃ s s', k = ⟨some s, some s'⟩ := by
  obtain ⟨_ | s, _ | s'⟩ := k
  · cases h
  · cases h
  · cases h
  · exact ⟨s, s', rfl⟩

theorem full_look {k : Capture} (h : k.full = true) (cell : Cell) : k.look cell = k := by
  obtain ⟨s, s', rfl⟩ := exists_eq_of_full h
  rfl

end Capture

namespace Pending

def awaits : Pending → Head → Bool
  | .both _ _, _ => true
  | .only head _, h => h = head

theorem exists_awaits (p : Pending) : ∃ h, p.awaits h = true := by
  cases p with
  | both first second => exact ⟨.one, rfl⟩
  | only head action => exact ⟨head, by simp [awaits]⟩

/-- The board once every action has been done. -/
def settle (b : Board) : Pending → Board
  | .both first second => (b.act .one first).act .two second
  | .only head action => b.act head action

end Pending

/-- The board once the other head has acted too, if it still has to. -/
def Board.finish (b : Board) (head : Head) : Option Action → Board
  | some action => b.act head.other action
  | none => b

namespace Pending

theorem has_of_found?_eq_none {p : Pending} {tag : HeadSet} (hf : p.found? tag = none) {h : Head}
    (hp : p.awaits h = true) : tag.has h = false := by
  obtain ⟨t1, t2⟩ := tag
  cases p with
  | both first second =>
    cases t1 <;> cases t2 <;> simp [found?] at hf
    cases h <;> rfl
  | only head action =>
    obtain rfl : h = head := by simpa [awaits] using hp
    simpa [found?] using hf

/-- What it means that a head is found: it is on the cell, it comes next, and the other head's
action is what is left. -/
theorem found?_spec {p : Pending} {tag : HeadSet} {f : Found} (hf : p.found? tag = some f) :
    tag.has f.head = true ∧ p.awaits f.head = true ∧
      (f.rest.isSome = true → p.awaits f.head.other = true) ∧
      ∀ b : Board, p.settle b = (b.act f.head f.action).finish f.head f.rest := by
  cases p with
  | both first second =>
    simp only [found?] at hf
    split at hf
    · cases hf
      rename_i ht
      exact ⟨ht, rfl, fun _ => rfl, fun _ => rfl⟩
    · split at hf
      · cases hf
        rename_i ht
        exact ⟨ht, rfl, fun _ => rfl, fun b => b.act_comm first second⟩
      · cases hf
  | only head action =>
    simp only [found?] at hf
    split at hf
    · cases hf
      rename_i ht
      exact ⟨ht, by simp [awaits], by simp, fun _ => rfl⟩
    · cases hf

end Pending

/-! ## What a scene is -/

structure Scene where
  stage : Stage
  /-- The cell under the head; the anchor is cell zero. -/
  pos : Nat
  board : Board

namespace Scene

/-- Where the heads of the emulated machine are in a stage, as seen from the cell under the head. In
the sweep for letters, heads without a letter are ahead; in the move, heads that still have to act
are. -/
def InPlace (sig : Signature) (s : Scene) : Prop :=
  match s.stage with
  | .scan k => s.pos ≤ s.board.extent ∧ (k.full = false → 1 ≤ s.pos) ∧
      ∀ h, ∃ i, s.board.place h = some i ∧ (∀ c ∈ k.get h, c = s.board.letter h i) ∧
        (k.get h = none → s.pos ≤ i + 1)
  | .seek p => 1 ≤ s.pos ∧ p.Over sig ∧
      ∀ h, ∃ i, s.board.place h = some i ∧ (p.awaits h = true → s.pos ≤ i + 1)
  | .stepLeft head rest => s.pos < s.board.extent ∧ (∀ a ∈ rest, a ∈ sig.actions) ∧
      s.board.place head = none ∧
      ∃ i, s.board.place head.other = some i ∧ (rest.isSome = true → s.pos ≤ i)
  | .stepRight head rest => 2 ≤ s.pos ∧ s.pos ≤ s.board.extent + 1 ∧ (∀ a ∈ rest, a ∈ sig.actions) ∧
      s.board.place head = none ∧
      ∃ i, s.board.place head.other = some i ∧ (rest.isSome = true → s.pos ≤ i + 2)
  | .clamp head rest => s.pos = 1 ∧ (∀ a ∈ rest, a ∈ sig.actions) ∧
      s.board.place head = none ∧ ∃ i, s.board.place head.other = some i
  | .rewind => s.pos ≤ s.board.extent ∧ ∀ h, ∃ i, s.board.place h = some i
  | _ => False

/-- What holds at every moment of the emulation. -/
structure Fits (sig : Signature) (s : Scene) : Prop where
  sound : s.board.Sound sig
  inPlace : s.InPlace sig

/-- Both letters have been brought to the anchor. -/
def Firing (s : Scene) : Prop := s.pos = 0 ∧ ∃ a b, s.stage = .scan ⟨some a, some b⟩

/-- The board once the emulated step has been completed. -/
def outlook (s : Scene) : Board :=
  match s.stage with
  | .seek p => p.settle s.board
  | .stepLeft head rest | .stepRight head rest | .clamp head rest =>
    (s.board.drop head (s.pos - 1)).finish head rest
  | _ => s.board

end Scene

/-- The cell that a head is on, or zero while it is lifted. -/
def Board.reach (b : Board) (h : Head) : Nat := (b.place h).elim 0 (· + 1)

def Board.far (b : Board) : Nat := max (b.reach .one) (b.reach .two)

/-- A bound on the steps until the next sweep for letters begins. -/
def Scene.cost (s : Scene) : Nat :=
  match s.stage with
  | .scan k => if k.full then s.pos + 2 * s.board.far + 6 else 4 * s.board.far + 6 - s.pos
  | .seek (.both _ _) => 2 * s.board.far + 6 - s.pos
  | .seek (.only head _) => 2 * s.board.reach head + 3 - s.pos
  | .stepLeft _ none => s.pos + 3
  | .stepLeft head (some _) => 2 * s.board.reach head.other + 4 - s.pos
  | .stepRight _ none => s.pos + 1
  | .stepRight head (some _) => 2 * s.board.reach head.other + 5 - s.pos
  | .clamp _ none => 2
  | .clamp head (some _) => 2 * s.board.reach head.other + 3
  | .rewind => s.pos + 1
  | _ => 0

def Scene.atRest (b : Board) : Scene := ⟨.scan .empty, 1, b⟩

def Scene.view (s : Scene) : View := ⟨s.stage, s.pos, s.board.cell⟩

/-- What one step of the emulation does. -/
structure Scene.Turn (sig : Signature) (s s' : Scene) : Prop where
  step : s.view.Step sig s'.view
  fits : s'.Fits sig
  state_eq : s'.board.state = s.board.state
  extent_le : s.board.extent ≤ s'.board.extent
  outlook_eq : s'.outlook = s.outlook
  /-- The phase goes on and comes nearer to its end, or the next sweep begins. -/
  progress : (s'.stage.part = s.stage.part ∧ s'.cost < s.cost) ∨
    (s.stage = .rewind ∧ s' = .atRest s'.board)

end Multitrack
