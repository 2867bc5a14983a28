import Multitrack.Basic

/-! # Tapes

A tape has a first cell and no last one. It is kept as the letters before the head, nearest first,
and the letters from the head on; every cell beyond them reads blank. -/
namespace Multitrack

/-- A tape with its head on the first cell of `after`. -/
structure Tape where
  before : List Letter
  after : List Letter
deriving DecidableEq, Repr

namespace Tape

def ofList (letters : List Letter) : Tape := ⟨[], letters⟩

/-- The letters written so far, from the first cell on. -/
def cells (t : Tape) : List Letter := t.before.reverse ++ t.after

def head (t : Tape) : Nat := t.before.length

def read (t : Tape) : Letter := t.after.headD blank

def write (t : Tape) (s : Letter) : Tape := { t with after := s :: t.after.tail }

/-- Moves the head by one cell. On the first cell there is no way left, and the head stays. -/
def move (t : Tape) : Dir → Tape
  | .left => match t.before with
    | [] => t
    | s :: rest => ⟨rest, s :: t.after⟩
  | .right => ⟨t.read :: t.before, t.after.tail⟩
  | .stay => t

@[simp] theorem cells_ofList (letters : List Letter) : (ofList letters).cells = letters := rfl

@[simp] theorem head_ofList (letters : List Letter) : (ofList letters).head = 0 := rfl

@[simp] theorem head_write (t : Tape) (s : Letter) : (t.write s).head = t.head := rfl

@[simp] theorem read_write (t : Tape) (s : Letter) : (t.write s).read = s := rfl

@[simp] theorem head_move_left (t : Tape) : (t.move .left).head = t.head - 1 := by
  obtain ⟨_ | ⟨s, rest⟩, after⟩ := t <;> rfl

@[simp] theorem head_move_right (t : Tape) : (t.move .right).head = t.head + 1 := rfl

end Tape

def trimBlanks (letters : List Letter) : List Letter :=
  (letters.reverse.dropWhile (· == blank)).reverse

end Multitrack
