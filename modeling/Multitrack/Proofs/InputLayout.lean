import Mathlib.Tactic
import Multitrack.Proofs.Execution

/-! # Laying out an input

The input is a word of letters, a blank, a second word that may be empty, and a blank again. The
layout carries the first word one cell to the right, over the blank, and so joins it to the second;
then it packs both words, and it ends at the first tracked cell with both heads on it. Each of the
five passes over the tape is a run of its own, and their lengths add up to four steps for each
letter of the first word, two for each letter of the second, and four. -/
namespace Multitrack

open Function (update update_apply)

variable {sig : Signature} {w : Nat → Letter} {n : Nat}

/-! ## Passes -/

namespace View

theorem Run.single {part : Request} {v v' : View} (hpart : v.stage.part = part) (h : v.Step sig v') :
    Run sig part 1 v v' :=
  .cons hpart h (.nil v')

/-- A stage that passes every cell goes back to the first one. -/
theorem run_back {part : Request} {stage : Stage} {cells : Nat → Cell} (hpart : stage.part = part)
    (h : ∀ i < n, stage.Meets sig (cells (i + 1)) ∧
      stage.rule (cells (i + 1)) = .pass stage.control (cells (i + 1)) .left) :
    Run sig part n ⟨stage, n, cells⟩ ⟨stage, 0, cells⟩ := by
  induction n with
  | zero => exact .nil _
  | succ n ih =>
    obtain ⟨hmeets, hrule⟩ := h n (Nat.lt_succ_self n)
    have hstep : Step sig ⟨stage, n + 1, cells⟩ ⟨stage, n, cells⟩ :=
      .of_rule hrule hmeets rfl rfl (Function.update_eq_self ..)
    exact .cons hpart hstep (ih fun i hi => h i (Nat.lt_succ_of_lt hi))

end View

open View

/-! ## Shifting -/

/-- The tape when the letters before cell `k` have been shifted. -/
def shifted (w : Nat → Letter) (k : Nat) : Nat → Cell
  | 0 => .sentinel
  | i + 1 => .plain (if i + 1 < k then w i else w (i + 1))

/-- A step of the carry puts a letter down and takes the next one. -/
theorem update_shifted (w : Nat → Letter) (k : Nat) :
    update (shifted w (k + 1)) (k + 1) (.plain (w k)) = shifted w (k + 2) := by
  funext i
  cases i with
  | zero => rfl
  | succ i =>
    rw [update_apply]
    simp only [shifted]
    rcases Nat.lt_trichotomy i k with hi | rfl | hi
    · rw [if_neg (by omega), if_pos (by omega), if_pos (by omega)]
    · rw [if_pos rfl, if_pos (by omega)]
    · rw [if_neg (by omega), if_neg (by omega), if_neg (by omega)]

theorem shifted_self (w : Nat → Letter) (k : Nat) : shifted w (k + 1) (k + 1) = .plain (w (k + 1)) :=
  congrArg Cell.plain (if_neg (Nat.lt_irrefl _))

theorem run_carry (hsig : sig.Proper) (hw : ∀ i ≤ n, w i ∈ sig.nonBlank) :
    Run sig .layout n ⟨.carry (w 0), 1, shifted w 1⟩ ⟨.carry (w n), n + 1, shifted w (n + 1)⟩ := by
  induction n with
  | zero => exact .nil _
  | succ n ih =>
    have hnext := hw (n + 1) (Nat.le_refl _)
    have hrule : (Stage.carry (w n)).rule (shifted w (n + 1) (n + 1)) =
        ⟨(Stage.carry (w n)).control, .plain (w (n + 1)), (Stage.carry (w (n + 1))).control,
          .plain (w n), .right⟩ := by
      rw [shifted_self, Stage.rule_carry (hsig.ne_blank hnext)]
    refine (ih fun i hi => hw i (Nat.le_succ_of_le hi)).trans (.single rfl ?_)
    exact .of_rule hrule ⟨hw n (Nat.le_succ n), w (n + 1), .inr hnext, shifted_self w n⟩ rfl rfl
      (update_shifted w n)

theorem update_start (w : Nat → Letter) :
    update (fun i => Cell.plain (w i)) 0 .sentinel = shifted w 1 := by
  funext i
  cases i with
  | zero => rfl
  | succ i => exact congrArg Cell.plain (if_neg (by omega)).symm

theorem run_pickUp (hsig : sig.Proper) (hw : w 0 ∈ sig.nonBlank) :
    Run sig .layout 1 ⟨.start, 0, fun i => .plain (w i)⟩ ⟨.carry (w 0), 1, shifted w 1⟩ :=
  .single rfl (.of_rule (Stage.rule_start (hsig.ne_blank hw)) ⟨w 0, .inr hw, rfl⟩ rfl rfl
    (update_start w))

/-- The first word is carried over the blank that ends it. -/
theorem run_shift (hsig : sig.Proper) (hw : ∀ i < n, w i ∈ sig.nonBlank) (hn : w n = blank) :
    Run sig .layout (2 * n + 1) ⟨.start, 0, fun i => .plain (w i)⟩ ⟨.pack, 1, shifted w (n + 1)⟩ := by
  cases n with
  | zero =>
    have hrule : Stage.start.rule (.plain (w 0)) =
        ⟨Stage.start.control, .plain blank, Stage.pack.control, .sentinel, .right⟩ := by
      rw [hn]
      rfl
    exact .single rfl (.of_rule hrule ⟨w 0, .inl hn, rfl⟩ rfl rfl (update_start w))
  | succ n =>
    have hpick := run_pickUp hsig (hw 0 (Nat.succ_pos n))
    have hcarry := run_carry hsig fun i hi => hw i (Nat.lt_succ_of_le hi)
    have hend : Run sig .layout 1 ⟨.carry (w n), n + 1, shifted w (n + 1)⟩
        ⟨.shiftBack, n, shifted w (n + 2)⟩ := by
      have hrule : (Stage.carry (w n)).rule (shifted w (n + 1) (n + 1)) =
          ⟨(Stage.carry (w n)).control, .plain blank, Stage.shiftBack.control, .plain (w n), .left⟩ := by
        rw [shifted_self, hn]
        rfl
      exact .single rfl (.of_rule hrule
        ⟨hw n (Nat.lt_succ_self n), w (n + 1), .inl hn, shifted_self w n⟩ rfl rfl (update_shifted w n))
    have hback : Run sig .layout n ⟨.shiftBack, n, shifted w (n + 2)⟩
        ⟨.shiftBack, 0, shifted w (n + 2)⟩ := by
      refine run_back rfl fun i hi => ?_
      have hcell : shifted w (n + 2) (i + 1) = .plain (w i) :=
        congrArg Cell.plain (if_pos (by omega))
      rw [hcell]
      exact ⟨.inr ⟨w i, hw i (by omega), rfl⟩, rfl⟩
    have hturn : Run sig .layout 1 ⟨.shiftBack, 0, shifted w (n + 2)⟩ ⟨.pack, 1, shifted w (n + 2)⟩ :=
      .single rfl ⟨.inl rfl, rfl, rfl, Function.update_eq_self ..⟩
    have hlen : 2 * (n + 1) + 1 = 1 + (n + (1 + (n + 1))) := by omega
    rw [hlen]
    exact hpick.trans (hcarry.trans (hend.trans (hback.trans hturn)))

/-! ## Packing -/

/-- The tape when `k` letters have been packed. -/
def packed (w : Nat → Letter) (k : Nat) : Nat → Cell
  | 0 => .sentinel
  | i + 1 => if i < k then .tracked (w i) blank .none else .plain (w i)

theorem packed_of_lt {k i : Nat} (h : i < k) : packed w k (i + 1) = .tracked (w i) blank .none :=
  if_pos h

theorem packed_of_le {k i : Nat} (h : k ≤ i) : packed w k (i + 1) = .plain (w i) :=
  if_neg (Nat.not_lt.mpr h)

theorem update_packed (w : Nat → Letter) (k : Nat) :
    update (packed w k) (k + 1) (.tracked (w k) blank .none) = packed w (k + 1) := by
  funext i
  cases i with
  | zero => rfl
  | succ i =>
    rw [update_apply]
    rcases Nat.lt_trichotomy i k with hi | rfl | hi
    · rw [if_neg (by omega), packed_of_lt hi, packed_of_lt (by omega)]
    · rw [if_pos rfl, packed_of_lt (by omega)]
    · rw [if_neg (by omega), packed_of_le hi.le, packed_of_le hi]

theorem run_pack (hsig : sig.Proper) (hw : ∀ i < n, w i ∈ sig.nonBlank) :
    Run sig .layout n ⟨.pack, 1, packed w 0⟩ ⟨.pack, n + 1, packed w n⟩ := by
  induction n with
  | zero => exact .nil _
  | succ n ih =>
    have hnext := hw n (Nat.lt_succ_self n)
    have hcell : packed w n (n + 1) = .plain (w n) := packed_of_le (Nat.le_refl n)
    have hrule : Stage.pack.rule (packed w n (n + 1)) =
        ⟨Stage.pack.control, .plain (w n), Stage.pack.control, .tracked (w n) blank .none, .right⟩ := by
      rw [hcell, Stage.rule_pack (hsig.ne_blank hnext)]
    refine (ih fun i hi => hw i (Nat.lt_succ_of_lt hi)).trans (.single rfl ?_)
    exact .of_rule hrule ⟨w n, .inr hnext, hcell⟩ rfl rfl (update_packed w n)

/-- The tape when `k` letters have been packed and both heads are on the first cell. -/
def laidOut (w : Nat → Letter) (k : Nat) : Nat → Cell :=
  update (packed w k) 1 (.tracked (w 0) blank .both)

theorem laidOut_of_lt {k i : Nat} (h : i < k) :
    laidOut w k (i + 1) = .tracked (w i) blank (if i = 0 then .both else .none) := by
  cases i with
  | zero => rfl
  | succ i => exact (Function.update_of_ne (by omega) _ _).trans (packed_of_lt h)

theorem laidOut_of_le {k i : Nat} (h : max 1 k ≤ i) : laidOut w k (i + 1) = .plain (w i) :=
  (Function.update_of_ne (by omega) _ _).trans (packed_of_le (by omega))

/-- A word that ends in a blank is packed, and the heads are put on its first cell. -/
theorem run_place (hsig : sig.Proper) (hw : ∀ i < n, w i ∈ sig.nonBlank) (hn : w n = blank) :
    Run sig .layout (2 * n + 3) ⟨.pack, 1, packed w 0⟩ ⟨.scan .empty, 1, laidOut w n⟩ := by
  have hend : Run sig .layout 1 ⟨.pack, n + 1, packed w n⟩ ⟨.packBack, n, packed w n⟩ := by
    have hcell : packed w n (n + 1) = .plain blank := (packed_of_le (Nat.le_refl n)).trans (by rw [hn])
    have hrule : Stage.pack.rule (packed w n (n + 1)) =
        ⟨Stage.pack.control, packed w n (n + 1), Stage.packBack.control, packed w n (n + 1), .left⟩ := by
      rw [hcell]
      rfl
    exact .single rfl (.of_rule hrule ⟨blank, .inl rfl, hcell⟩ rfl rfl (Function.update_eq_self ..))
  have hback : Run sig .layout n ⟨.packBack, n, packed w n⟩ ⟨.packBack, 0, packed w n⟩ := by
    refine run_back rfl fun i hi => ?_
    rw [packed_of_lt hi]
    exact ⟨.inr ⟨w i, hw i hi, rfl⟩, rfl⟩
  have hturn : Run sig .layout 1 ⟨.packBack, 0, packed w n⟩ ⟨.place, 1, packed w n⟩ :=
    .single rfl ⟨.inl rfl, rfl, rfl, Function.update_eq_self ..⟩
  have hplace : Run sig .layout 1 ⟨.place, 1, packed w n⟩ ⟨.scan .empty, 1, laidOut w n⟩ := by
    -- an empty word is placed on its blank
    have hcell : Stage.place.Meets sig (packed w n 1) ∧ (packed w n 1).letter1 = w 0 := by
      cases n with
      | zero => exact ⟨.inl (by rw [← hn]; rfl), rfl⟩
      | succ n => exact ⟨.inr ⟨w 0, hw 0 (Nat.succ_pos n), rfl⟩, rfl⟩
    refine .single rfl ⟨hcell.1, rfl, rfl, ?_⟩
    show update (packed w n) 1 (.tracked (packed w n 1).letter1 blank .both) = _
    rw [hcell.2]
    rfl
  have hlen : 2 * n + 3 = n + (1 + (n + (1 + 1))) := by omega
  rw [hlen]
  exact (run_pack hsig hw).trans (hend.trans (hback.trans (hturn.trans hplace)))

/-! ## The layout as a whole -/

def closeGap (w : Nat → Letter) (n : Nat) (i : Nat) : Letter := if i < n then w i else w (i + 1)

theorem shifted_eq_packed (w : Nat → Letter) (n : Nat) : shifted w (n + 1) = packed (closeGap w n) 0 := by
  funext i
  cases i with
  | zero => rfl
  | succ i =>
    rw [packed_of_le (Nat.zero_le i)]
    simp only [shifted, closeGap, Nat.succ_lt_succ_iff]

/-- **The layout joins two words and packs them.** A blank ends each of the words, and `m` is the
length of the second one. -/
theorem run_layout (hsig : sig.Proper) {m : Nat} (hw : ∀ i < n, w i ∈ sig.nonBlank) (hn : w n = blank)
    (hw' : ∀ i < m, w (n + 1 + i) ∈ sig.nonBlank) (hm : w (n + 1 + m) = blank) :
    Run sig .layout (4 * n + 2 * m + 4) ⟨.start, 0, fun i => .plain (w i)⟩
      ⟨.scan .empty, 1, laidOut (closeGap w n) (n + m)⟩ := by
  have hjoined : ∀ i < n + m, closeGap w n i ∈ sig.nonBlank := by
    intro i hi
    unfold closeGap
    split
    · rename_i hlt
      exact hw i hlt
    · have := hw' (i - n) (by omega)
      rwa [show n + 1 + (i - n) = i + 1 by omega] at this
  have hend : closeGap w n (n + m) = blank := by
    rw [closeGap, if_neg (by omega), ← hm, Nat.add_right_comm]
  have hshift := run_shift hsig hw hn
  rw [shifted_eq_packed] at hshift
  have hlen : 4 * n + 2 * m + 4 = 2 * n + 1 + (2 * (n + m) + 3) := by omega
  rw [hlen]
  exact hshift.trans (run_place hsig hjoined hend)

end Multitrack
