import Mathlib.Data.List.GetD
import Mathlib.Tactic
import Multitrack.Tape

/-! # The cells of a tape

A tape seen from the outside: a letter on every cell and a head on one of them. Writing changes the
cell under the head and no other, moving changes none, so a run can be followed cell by cell without
a look at how much of the tape has been written. -/
namespace Multitrack

def Dir.shift : Dir → Nat → Nat
  | .left, i => i - 1
  | .right, i => i + 1
  | .stay, i => i

namespace Tape

/-- The letter on a cell; cells beyond those written are blank. -/
def letter (t : Tape) (i : Nat) : Letter := t.cells.getD i blank

theorem letter_ofList (letters : List Letter) (i : Nat) :
    (ofList letters).letter i = letters.getD i blank := rfl

theorem letter_of_lt {t : Tape} {i : Nat} (h : i < t.head) :
    t.letter i = t.before.reverse.getD i blank := by
  rw [letter, cells, List.getD_append _ _ _ _ (by simpa [head] using h)]

theorem letter_head_add (t : Tape) (j : Nat) : t.letter (t.head + j) = t.after.getD j blank := by
  rw [letter, cells, List.getD_append_right _ _ _ _ (by simp [head])]
  simp [head]

/-- The head reads the letter on its cell. -/
theorem read_eq_letter (t : Tape) : t.read = t.letter t.head := by
  have h := t.letter_head_add 0
  rw [Nat.add_zero] at h
  rw [h]
  obtain ⟨before, _ | ⟨s, rest⟩⟩ := t <;> rfl

/-- Writing changes the cell under the head and no other. -/
theorem letter_write (t : Tape) (s : Letter) (i : Nat) :
    (t.write s).letter i = if i = t.head then s else t.letter i := by
  rcases Nat.lt_or_ge i t.head with h | h
  · rw [if_neg (by omega), letter_of_lt (t := t.write s) h, letter_of_lt h]
    rfl
  · obtain ⟨j, rfl⟩ := Nat.exists_eq_add_of_le h
    rw [← head_write t s, letter_head_add, head_write, letter_head_add]
    cases j with
    | zero => simp [write]
    | succ j =>
      rw [if_neg (by omega)]
      obtain ⟨before, _ | ⟨s', rest⟩⟩ := t <;> rfl

/-- Moving changes no cell. -/
theorem letter_move (t : Tape) (d : Dir) (i : Nat) : (t.move d).letter i = t.letter i := by
  cases d with
  | left =>
    obtain ⟨_ | ⟨s, rest⟩, after⟩ := t
    · rfl
    · simp [letter, cells, move]
  | right =>
    obtain ⟨before, _ | ⟨s, rest⟩⟩ := t
    · -- a step beyond the written cells adds a blank, which was there before
      simp only [letter, cells, move, read, List.headD_nil, List.tail_nil, List.append_nil,
        List.reverse_cons]
      rcases Nat.lt_or_ge i before.reverse.length with h | h
      · rw [List.getD_append _ _ _ _ h]
      · rw [List.getD_append_right _ _ _ _ h, List.getD_eq_default _ _ h]
        cases i - before.reverse.length <;> rfl
    · simp [letter, cells, move, read]
  | stay => rfl

theorem head_move (t : Tape) (d : Dir) : (t.move d).head = d.shift t.head := by
  cases d with
  | left => exact t.head_move_left
  | right => rfl
  | stay => rfl

end Tape

end Multitrack
