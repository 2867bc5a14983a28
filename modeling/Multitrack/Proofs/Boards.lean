import Mathlib.Logic.Function.Basic
import Mathlib.Tactic
import Multitrack.Proofs.Stages
import Multitrack.Proofs.TapeCells

/-! # Boards

A board is what the emulating tape holds once the input has been laid out: the emulated state on the
anchor, a letter of each tape on every tracked cell, and a place for each head that is not lifted.
Places are counted from zero, so place `i` is on cell `i + 1`. Everything that the emulation does to
its tape is a change of state, a letter written, or a head lifted or dropped. -/
namespace Multitrack

theorem Head.other_ne (h : Head) : h.other ≠ h := by
  cases h <;> nofun

theorem Head.eq_or_eq_other (h h' : Head) : h = h' ∨ h = h'.other := by
  cases h <;> cases h' <;> simp [Head.other]

@[ext] structure Board where
  state : StateName
  letter : Head → Nat → Letter
  place : Head → Option Nat
  /-- How many cells are tracked. -/
  extent : Nat

namespace Board

def tag (b : Board) (i : Nat) : HeadSet := ⟨b.place .one = some i, b.place .two = some i⟩

/-- The cells that show a board. -/
def cell (b : Board) : Nat → Cell
  | 0 => .anchor b.state
  | i + 1 =>
    if i < b.extent then .tracked (b.letter .one i) (b.letter .two i) (b.tag i) else .plain blank

/-- A board that the emulation of a machine can show. -/
structure Sound (sig : Signature) (b : Board) : Prop where
  state_mem : b.state ∈ sig.anchorStates
  letter_mem : ∀ h i, b.letter h i ∈ sig.alphabet
  blank_beyond : ∀ h i, b.extent ≤ i → b.letter h i = blank
  place_lt : ∀ h i, b.place h = some i → i < b.extent
  extent_pos : 0 < b.extent

def withState (b : Board) (q : StateName) : Board := { b with state := q }

def write (b : Board) (h : Head) (i : Nat) (s : Letter) : Board :=
  { b with letter := Function.update b.letter h (Function.update (b.letter h) i s) }

def lift (b : Board) (h : Head) : Board := { b with place := Function.update b.place h none }

/-- Puts a head down; beyond the tracked cells it makes a new one. -/
def drop (b : Board) (h : Head) (i : Nat) : Board :=
  { b with place := Function.update b.place h (some i), extent := max b.extent (i + 1) }

def act (b : Board) (h : Head) (a : Action) : Board :=
  match b.place h with
  | some i => (b.write h i a.letter).drop h (a.dir.shift i)
  | none => b

variable {b : Board} {h : Head} {i : Nat} {s : Letter}

/-! ## How the cells change -/

theorem has_tag (b : Board) (i : Nat) (h : Head) : (b.tag i).has h = decide (b.place h = some i) := by
  cases h <;> rfl

theorem cell_of_lt (hi : i < b.extent) :
    b.cell (i + 1) = .tracked (b.letter .one i) (b.letter .two i) (b.tag i) :=
  if_pos hi

theorem cell_of_le (hi : b.extent ≤ i) : b.cell (i + 1) = .plain blank :=
  if_neg (Nat.not_lt.mpr hi)

theorem cell_withState (b : Board) (q : StateName) :
    (b.withState q).cell = Function.update b.cell 0 (.anchor q) := by
  funext j
  cases j with
  | zero => rfl
  | succ j => rw [Function.update_of_ne (Nat.succ_ne_zero j)]; rfl

/-- A change at one place changes one cell. -/
theorem cell_eq_update {b b' : Board} {c : Cell} (hstate : b'.state = b.state)
    (hext : b'.extent = b.extent) (hi : i < b.extent)
    (hletter : ∀ h j, j ≠ i → b'.letter h j = b.letter h j)
    (htag : ∀ j, j ≠ i → b'.tag j = b.tag j)
    (hc : c = .tracked (b'.letter .one i) (b'.letter .two i) (b'.tag i)) :
    b'.cell = Function.update b.cell (i + 1) c := by
  funext j
  cases j with
  | zero =>
    rw [Function.update_of_ne (Nat.succ_ne_zero i).symm]
    exact congrArg Cell.anchor hstate
  | succ j =>
    by_cases hj : j = i
    · subst hj
      rw [Function.update_self, hc, cell_of_lt (hext ▸ hi)]
    · rw [Function.update_of_ne (by omega)]
      simp only [cell, hext, hletter _ j hj, htag j hj]

theorem cell_write (hi : i < b.extent) :
    (b.write h i s).cell = Function.update b.cell (i + 1) ((b.cell (i + 1)).withLetter h s) := by
  refine cell_eq_update rfl rfl hi ?_ (fun _ _ => rfl) ?_
  · intro h' j hj
    by_cases hh : h' = h
    · subst hh
      simp [write, hj]
    · simp [write, hh]
  · rw [cell_of_lt hi, show (b.write h i s).tag i = b.tag i from rfl]
    cases h <;> simp [write, Cell.withLetter, Cell.tracked]

theorem cell_lift (hp : b.place h = some i) (hi : i < b.extent) :
    (b.lift h).cell =
      Function.update b.cell (i + 1) ((b.cell (i + 1)).withTag ((b.cell (i + 1)).tag.erase h)) := by
  refine cell_eq_update rfl rfl hi (fun _ _ _ => rfl) ?_ ?_
  · intro j hj
    cases h <;> simp [tag, lift, hp, Ne.symm hj]
  · rw [cell_of_lt hi]
    cases h <;> simp [lift, Cell.withTag, Cell.tracked, tag, HeadSet.erase, HeadSet.diff,
      HeadSet.only]

theorem cell_drop (hp : b.place h = none) (hi : i < b.extent) :
    (b.drop h i).cell =
      Function.update b.cell (i + 1) ((b.cell (i + 1)).withTag ((b.cell (i + 1)).tag.insert h)) := by
  refine cell_eq_update rfl (Nat.max_eq_left hi) hi (fun _ _ _ => rfl) ?_ ?_
  · intro j hj
    cases h <;> simp [tag, drop, hp, Ne.symm hj]
  · rw [cell_of_lt hi]
    cases h <;> simp [drop, Cell.withTag, Cell.tracked, tag, HeadSet.insert, HeadSet.union,
      HeadSet.only]

/-- A head that is dropped just beyond the tracked cells makes one with two blanks. -/
theorem cell_drop_extent {sig : Signature} (hb : b.Sound sig) (hp : b.place h = none) :
    (b.drop h b.extent).cell =
      Function.update b.cell (b.extent + 1) (.tracked blank blank (.only h)) := by
  have hfree : ∀ h', b.place h' ≠ some b.extent := fun h' he =>
    Nat.lt_irrefl _ (hb.place_lt h' _ he)
  funext j
  cases j with
  | zero => rw [Function.update_of_ne (Nat.succ_ne_zero _).symm]; rfl
  | succ j =>
    rcases Nat.lt_trichotomy j b.extent with hlt | rfl | hgt
    · rw [Function.update_of_ne (by omega), cell_of_lt hlt,
        cell_of_lt (b := b.drop h b.extent) (by simp only [drop]; omega)]
      have htag : (b.drop h b.extent).tag j = b.tag j := by
        cases h <;> simp [tag, drop, hp, hlt.ne']
      rw [htag]
      rfl
    · rw [Function.update_self, cell_of_lt (b := b.drop h b.extent) (by simp only [drop]; omega)]
      simp only [drop, hb.blank_beyond _ _ (Nat.le_refl b.extent), tag]
      cases h <;> simp [HeadSet.only, hfree]
    · rw [Function.update_of_ne (by omega), cell_of_le hgt.le,
        cell_of_le (b := b.drop h b.extent) (by simp only [drop]; omega)]

/-! ## Sound boards stay sound -/

section Sound

variable {sig : Signature}

theorem Sound.cell_mem (hb : b.Sound sig) (hi : i < b.extent) : b.cell (i + 1) ∈ sig.trackedCells := by
  rw [cell_of_lt hi]
  exact Signature.mem_trackedCells.mpr ⟨_, hb.letter_mem .one i, _, hb.letter_mem .two i, _, rfl⟩

theorem Sound.anchor_mem (hb : b.Sound sig) : b.cell 0 ∈ sig.anchors :=
  Signature.mem_anchors.mpr ⟨b.state, hb.state_mem, rfl⟩

theorem Sound.withState (hb : b.Sound sig) {q : StateName} (hq : q ∈ sig.anchorStates) :
    (b.withState q).Sound sig :=
  { hb with state_mem := hq }

theorem Sound.write (hb : b.Sound sig) (hi : i < b.extent) (hs : s ∈ sig.alphabet) :
    (b.write h i s).Sound sig := by
  refine { hb with letter_mem := ?_, blank_beyond := ?_ }
  · intro h' j
    by_cases hh : h' = h
    · subst hh
      by_cases hj : j = i
      · simpa [Board.write, hj] using hs
      · simpa [Board.write, hj] using hb.letter_mem h' j
    · simpa [Board.write, hh] using hb.letter_mem h' j
  · intro h' j (hj : b.extent ≤ j)
    by_cases hh : h' = h
    · subst hh
      simpa [Board.write, show j ≠ i by omega] using hb.blank_beyond h' j hj
    · simpa [Board.write, hh] using hb.blank_beyond h' j hj

theorem Sound.lift (hb : b.Sound sig) (h : Head) : (b.lift h).Sound sig := by
  refine { hb with place_lt := ?_ }
  intro h' j hj
  by_cases hh : h' = h
  · subst hh
    simp [Board.lift] at hj
  · exact hb.place_lt h' j (by simpa [Board.lift, hh] using hj)

theorem Sound.drop (hb : b.Sound sig) (h : Head) (i : Nat) : (b.drop h i).Sound sig := by
  refine { hb with blank_beyond := ?_, place_lt := ?_, extent_pos := ?_ }
  · intro h' j hj
    exact hb.blank_beyond h' j (le_trans (Nat.le_max_left _ _) hj)
  · intro h' j hj
    by_cases hh : h' = h
    · subst hh
      obtain rfl : i = j := by simpa [Board.drop] using hj
      simp [Board.drop]
    · have := hb.place_lt h' j (by simpa [Board.drop, hh] using hj)
      exact lt_of_lt_of_le this (Nat.le_max_left _ _)
  · exact lt_of_lt_of_le hb.extent_pos (Nat.le_max_left _ _)

end Sound

/-! ## Heads on a board -/

theorem place_lift_self (b : Board) (h : Head) : (b.lift h).place h = none :=
  Function.update_self ..

theorem place_lift_of_ne {h' : Head} (hh : h' ≠ h) : (b.lift h).place h' = b.place h' :=
  Function.update_of_ne hh ..

theorem place_drop_self (b : Board) (h : Head) (i : Nat) : (b.drop h i).place h = some i :=
  Function.update_self ..

theorem place_drop_of_ne {h' : Head} (hh : h' ≠ h) : (b.drop h i).place h' = b.place h' :=
  Function.update_of_ne hh ..

/-- Dropping a head where it is changes nothing. -/
theorem drop_place (hp : b.place h = some i) (hi : i < b.extent) : b.drop h i = b := by
  rw [drop, ← hp, Function.update_eq_self, Nat.max_eq_left hi]

theorem drop_lift (b : Board) (h : Head) (i : Nat) : (b.lift h).drop h i = b.drop h i := by
  rw [drop, lift, Function.update_idem]
  rfl

theorem act_of_place (hp : b.place h = some i) (a : Action) :
    b.act h a = (b.write h i a.letter).drop h (a.dir.shift i) := by
  rw [act, hp]

/-- The heads act independently of each other. -/
theorem act_comm (b : Board) (a a' : Action) :
    (b.act .one a).act .two a' = (b.act .two a').act .one a := by
  cases h1 : b.place .one with
  | none =>
    have hskip : ∀ b' : Board, b'.place .one = none → b'.act .one a = b' := by
      intro b' hb'
      rw [act, hb']
    rw [hskip b h1, hskip]
    unfold act
    split
    · rw [place_drop_of_ne (by decide)]
      exact h1
    · exact h1
  | some i =>
    cases h2 : b.place .two with
    | none =>
      have hskip : ∀ b' : Board, b'.place .two = none → b'.act .two a' = b' := by
        intro b' hb'
        rw [act, hb']
      rw [hskip b h2, hskip]
      rw [act_of_place h1, place_drop_of_ne (by decide)]
      exact h2
    | some j =>
      have h2' : (b.act .one a).place .two = some j := by
        rw [act_of_place h1, place_drop_of_ne (by decide)]
        exact h2
      have h1' : (b.act .two a').place .one = some i := by
        rw [act_of_place h2, place_drop_of_ne (by decide)]
        exact h1
      rw [act_of_place h2', act_of_place h1', act_of_place h1, act_of_place h2]
      simp only [drop, write, Board.mk.injEq, true_and]
      refine ⟨?_, ?_, ?_⟩
      · rw [Function.update_comm (by decide)]
        rfl
      · rw [Function.update_comm (by decide)]
      · rw [Nat.max_assoc, Nat.max_comm (_ + 1), Nat.max_assoc]

end Board

end Multitrack
