import Mathlib.Tactic
import Multitrack.Proofs.Scenes

/-! # Turns of the emulation

Every scene that fits takes a turn, unless a transition fires. The sweep for letters passes cells
until both heads have been met and then brings the letters to the anchor. The move looks for a head
that still has to act, writes its letter, and lifts it if it has to move; a lifted head is dropped
on the next cell, where the other head may be, where the tape may end, or where there may be no
tracked cell yet. -/
namespace Multitrack

namespace Scene

variable {sig : Signature} {b : Board} {pos : Nat} {head : Head} {rest : Option Action}

/-! ## The sweep for letters -/

theorem le_far {h : Head} {i : Nat} (hp : b.place h = some i) : i + 1 ≤ b.far := by
  cases h
  · exact le_trans (by simp [Board.reach, hp]) (Nat.le_max_left _ _)
  · exact le_trans (by simp [Board.reach, hp]) (Nat.le_max_right _ _)

section Scan

variable {k : Capture} {i : Nat}

theorem over_of_scan (hf : Fits sig ⟨.scan k, pos, b⟩) : k.Over sig := by
  obtain ⟨hb, -, -, hheads⟩ := hf
  refine ⟨fun c hc => ?_, fun c hc => ?_⟩
  · obtain ⟨j, -, hletter, -⟩ := hheads .one
    exact hletter c hc ▸ hb.letter_mem .one j
  · obtain ⟨j, -, hletter, -⟩ := hheads .two
    exact hletter c hc ▸ hb.letter_mem .two j

/-- A head whose letter is still missing after a cell has been looked at is beyond that cell. -/
theorem exists_beyond (hf : Fits sig ⟨.scan k, i + 1, b⟩) {h : Head}
    (hk : (k.look (b.cell (i + 1))).get h = none) :
    ∃ j, b.place h = some j ∧ k.get h = none ∧ i < j := by
  obtain ⟨-, hi, -, hheads⟩ := hf
  obtain ⟨j, hj, -, hahead⟩ := hheads h
  rw [Capture.get_look, Option.or_eq_none_iff] at hk
  obtain ⟨hnone, htag⟩ := hk
  have hne : j ≠ i := by
    intro he
    have hhas : (b.tag i).has h = true := by rw [Board.has_tag, hj, he]; simp
    rw [Board.cell_of_lt hi] at htag
    simp [Cell.tracked, hhas] at htag
  have hle : i + 1 ≤ j + 1 := hahead hnone
  exact ⟨j, hj, hnone, by omega⟩

/-- The letters that a cell yields are those under the heads on it. -/
theorem letter_of_look (hf : Fits sig ⟨.scan k, i + 1, b⟩) {h : Head} {j : Nat} {c : Letter}
    (hj : b.place h = some j) (hc : (k.look (b.cell (i + 1))).get h = some c) : c = b.letter h j := by
  obtain ⟨-, hi, -, hheads⟩ := hf
  obtain ⟨j', hj', hletter, -⟩ := hheads h
  obtain rfl : j = j' := Option.some.inj (hj.symm.trans hj')
  rw [Capture.get_look, Option.or_eq_some_iff] at hc
  obtain hc | ⟨-, hc⟩ := hc
  · exact hletter c hc
  · rw [Board.cell_of_lt hi] at hc
    obtain ⟨htag, heq⟩ := Option.ite_none_right_eq_some.mp hc
    have hij : b.place h = some i := of_decide_eq_true ((Board.has_tag b i h).symm.trans htag)
    obtain rfl : j = i := Option.some.inj (hj.symm.trans hij)
    cases h <;> exact (Option.some.inj heq).symm

theorem fits_look (hf : Fits sig ⟨.scan k, i + 1, b⟩) :
    Fits sig ⟨.scan (k.look (b.cell (i + 1))), (k.look (b.cell (i + 1))).dir.shift (i + 1), b⟩ := by
  have hi : i + 1 ≤ b.extent := hf.2.1
  rw [Capture.dir_eq]
  refine ⟨hf.sound, ?_, ?_, ?_⟩
  · cases hfull : (k.look (b.cell (i + 1))).full with
    | true => exact le_trans (Nat.sub_le ..) hi
    | false =>
      obtain ⟨h, hk⟩ := Capture.exists_get_eq_none hfull
      obtain ⟨j, hj, -, hlt⟩ := exists_beyond hf hk
      exact le_trans (Nat.succ_le_succ hlt) (hf.sound.place_lt h j hj)
  · intro hfull
    dsimp only at hfull ⊢
    rw [hfull]
    exact Nat.succ_le_succ (Nat.zero_le _)
  · intro h
    obtain ⟨j, hj, -⟩ := hf.2.2.2 h
    refine ⟨j, hj, fun c hc => letter_of_look hf hj hc, ?_⟩
    intro hk
    obtain ⟨j', hj', -, hlt⟩ := exists_beyond hf hk
    obtain rfl : j = j' := Option.some.inj (hj.symm.trans hj')
    cases (k.look (b.cell (i + 1))).full with
    | true => exact le_trans (Nat.sub_le ..) (Nat.succ_le_succ hlt.le)
    | false => exact Nat.succ_le_succ hlt

theorem cost_look_lt (hf : Fits sig ⟨.scan k, i + 1, b⟩) :
    cost ⟨.scan (k.look (b.cell (i + 1))), (k.look (b.cell (i + 1))).dir.shift (i + 1), b⟩ <
      cost ⟨.scan k, i + 1, b⟩ := by
  simp only [cost, Capture.dir_eq]
  cases hk : k.full with
  | true =>
    rw [Capture.full_look hk, hk]
    simp only [if_true, Dir.shift]
    omega
  | false =>
    -- a head whose letter is missing bounds the cell
    obtain ⟨h, hget⟩ := Capture.exists_get_eq_none hk
    obtain ⟨j, hj, -, hahead⟩ := hf.2.2.2 h
    have hfar : j + 1 ≤ b.far := le_far hj
    have hle : i + 1 ≤ j + 1 := hahead hget
    cases (k.look (b.cell (i + 1))).full with
    | true => simp only [if_true, Bool.false_eq_true, if_false, Dir.shift]; omega
    | false => simp only [Bool.false_eq_true, if_false, Dir.shift]; omega

theorem turn_scan (hf : Fits sig ⟨.scan k, i + 1, b⟩) :
    Turn sig ⟨.scan k, i + 1, b⟩
      ⟨.scan (k.look (b.cell (i + 1))), (k.look (b.cell (i + 1))).dir.shift (i + 1), b⟩ :=
  ⟨⟨⟨over_of_scan hf, hf.sound.cell_mem hf.2.1⟩, rfl, rfl, Function.update_eq_self ..⟩, fits_look hf,
    rfl, Nat.le_refl _, rfl, .inl ⟨rfl, cost_look_lt hf⟩⟩

end Scan

/-! ## The move -/

theorem reach_of_place {h : Head} {i : Nat} (hp : b.place h = some i) : b.reach h = i + 1 := by
  simp [Board.reach, hp]

theorem outlook_resuming (b : Board) (pos : Nat) (head : Head) (rest : Option Action) :
    outlook ⟨.resuming head rest, pos, b⟩ = b.finish head rest := by
  cases rest <;> rfl

theorem part_resuming (head : Head) (rest : Option Action) :
    (Stage.resuming head rest).part = .move := by
  cases rest <;> rfl

theorem cost_resuming (b : Board) (pos : Nat) (head : Head) (rest : Option Action) :
    cost ⟨.resuming head rest, pos, b⟩ =
      if rest.isSome then 2 * b.reach head.other + 3 - pos else pos + 1 := by
  cases rest <;> rfl

theorem fits_resuming (hb : b.Sound sig) (hrest : ∀ a ∈ rest, a ∈ sig.actions)
    (hplaced : ∀ h, ∃ i, b.place h = some i)
    (hahead : rest.isSome = true → 1 ≤ pos ∧ pos ≤ b.reach head.other)
    (hback : rest = none → pos ≤ b.extent) : Fits sig ⟨.resuming head rest, pos, b⟩ := by
  refine ⟨hb, ?_⟩
  cases rest with
  | none => exact ⟨hback rfl, hplaced⟩
  | some a =>
    obtain ⟨hpos, hle⟩ := hahead rfl
    refine ⟨hpos, hrest a rfl, fun h => ?_⟩
    obtain ⟨i, hi⟩ := hplaced h
    refine ⟨i, hi, fun hawaits => ?_⟩
    obtain rfl : h = head.other := by simpa [Pending.awaits] using hawaits
    exact reach_of_place hi ▸ hle

/-- A lifted head is put down on the cell under the head. -/
theorem turn_land {s : Scene} {i : Nat} (hb : s.board.Sound sig)
    (hrest : ∀ a ∈ rest, a ∈ sig.actions) (hother : s.board.place head.other = some i)
    (hstep : s.view.Step sig (view ⟨.resuming head rest, pos, s.board.drop head (s.pos - 1)⟩))
    (hpart : s.stage.part = .move)
    (houtlook : s.outlook = (s.board.drop head (s.pos - 1)).finish head rest)
    (hahead : rest.isSome = true → 1 ≤ pos ∧ pos ≤ i + 1 ∧ 2 * (i + 1) + 3 - pos < s.cost)
    (hback : rest = none → pos ≤ s.board.extent ∧ pos + 1 < s.cost) :
    s.Turn sig ⟨.resuming head rest, pos, s.board.drop head (s.pos - 1)⟩ := by
  have hother' : (s.board.drop head (s.pos - 1)).place head.other = some i := by
    rw [Board.place_drop_of_ne head.other_ne, hother]
  have hreach := reach_of_place hother'
  refine ⟨hstep, ?_, rfl, Nat.le_max_left _ _, ?_, .inl ⟨?_, ?_⟩⟩
  · refine fits_resuming (hb.drop _ _) hrest ?_ ?_ ?_
    · intro h
      obtain rfl | rfl := h.eq_or_eq_other head
      · exact ⟨_, Board.place_drop_self ..⟩
      · exact ⟨i, hother'⟩
    · intro hsome
      exact ⟨(hahead hsome).1, hreach ▸ (hahead hsome).2.1⟩
    · intro hnone
      exact le_trans (hback hnone).1 (Nat.le_max_left _ _)
  · rw [outlook_resuming, houtlook]
  · rw [part_resuming, hpart]
  · rw [cost_resuming, hreach]
    cases rest with
    | none => exact (hback rfl).2
    | some a => exact (hahead rfl).2.2

/-- No head is on a cell of a board without it. -/
theorem has_tag_cell {h : Head} {i : Nat} (hi : i < b.extent) (hp : b.place h = none) :
    (b.cell (i + 1)).tag.has h = false := by
  rw [Board.cell_of_lt hi]
  show (b.tag i).has h = false
  rw [Board.has_tag, hp]
  rfl

theorem turn_stepLeft {i : Nat} (hf : Fits sig ⟨.stepLeft head rest, i + 1, b⟩) :
    Turn sig ⟨.stepLeft head rest, i + 1, b⟩
      ⟨.resuming head rest, if rest.isSome then i + 2 else i, b.drop head i⟩ := by
  obtain ⟨hb, hlt, hrest, hlift, j, hj, hahead⟩ := hf
  dsimp only at hb hlt hlift hj hahead
  have hi : i < b.extent := by omega
  have hkind := Signature.kind_of_mem_trackedCells (hb.cell_mem hi)
  refine turn_land (s := ⟨.stepLeft head rest, i + 1, b⟩) hb hrest hj ?_ rfl rfl ?_ ?_
  · refine .of_rule (Stage.rule_stepLeft hkind)
      ⟨hrest, .inl ⟨hb.cell_mem hi, has_tag_cell hi hlift⟩⟩ (Stage.control_resuming ..).symm ?_
      (Board.cell_drop hlift hi).symm
    cases rest <;> rfl
  · intro hsome
    have hle := hahead hsome
    obtain ⟨a, rfl⟩ := Option.isSome_iff_exists.mp hsome
    simp only [cost, Option.isSome_some, if_true, reach_of_place hj]
    omega
  · rintro rfl
    simp only [cost, Option.isSome_none, Bool.false_eq_true, if_false]
    omega

/-- A head that would leave the tape is clamped to its first cell. -/
theorem turn_stepLeft_anchor (hf : Fits sig ⟨.stepLeft head rest, 0, b⟩) :
    Turn sig ⟨.stepLeft head rest, 0, b⟩ ⟨.clamp head rest, 1, b⟩ := by
  obtain ⟨hb, -, hrest, hlift, j, hj, -⟩ := hf
  refine ⟨⟨⟨hrest, .inr hb.anchor_mem⟩, rfl, rfl, Function.update_eq_self ..⟩,
    ⟨hb, rfl, hrest, hlift, j, hj⟩, rfl, Nat.le_refl _, rfl, .inl ⟨rfl, ?_⟩⟩
  cases rest with
  | none => exact Nat.lt_succ_self 2
  | some a => exact Nat.lt_succ_self _

theorem turn_stepRight {i : Nat} (hf : Fits sig ⟨.stepRight head rest, i + 1, b⟩) :
    Turn sig ⟨.stepRight head rest, i + 1, b⟩ ⟨.resuming head rest, i, b.drop head i⟩ := by
  obtain ⟨hb, hge, hle, hrest, hlift, j, hj, hahead⟩ := hf
  dsimp only at hb hge hle hlift hj hahead
  refine turn_land (s := ⟨.stepRight head rest, i + 1, b⟩) hb hrest hj ?_ rfl rfl ?_ ?_
  · rcases Nat.lt_or_ge i b.extent with hi | hi
    · have hkind := Signature.kind_of_mem_trackedCells (hb.cell_mem hi)
      exact .of_rule (Stage.rule_stepRight hkind)
        ⟨hrest, .inl ⟨hb.cell_mem hi, has_tag_cell hi hlift⟩⟩ (Stage.control_resuming ..).symm rfl
        (Board.cell_drop hlift hi).symm
    · -- beyond the tracked cells the head makes a new one
      obtain rfl : i = b.extent := by omega
      have hcell : b.cell (b.extent + 1) = .plain blank := Board.cell_of_le hi
      have hrule : (Stage.stepRight head rest).rule (b.cell (b.extent + 1)) =
          ⟨(Stage.stepRight head rest).control, .plain blank, resume head rest,
            .tracked blank blank (.only head), .left⟩ := by
        rw [hcell]
        rfl
      exact .of_rule hrule ⟨hrest, .inr hcell⟩ (Stage.control_resuming ..).symm rfl
        (Board.cell_drop_extent hb hlift).symm
  · intro hsome
    have := hahead hsome
    obtain ⟨a, rfl⟩ := Option.isSome_iff_exists.mp hsome
    simp only [cost, reach_of_place hj]
    omega
  · rintro rfl
    simp only [cost]
    omega

theorem turn_clamp (hf : Fits sig ⟨.clamp head rest, 1, b⟩) :
    Turn sig ⟨.clamp head rest, 1, b⟩
      ⟨.resuming head rest, if rest.isSome then 1 else 0, b.drop head 0⟩ := by
  obtain ⟨hb, -, hrest, hlift, j, hj⟩ := hf
  have hi := hb.extent_pos
  refine turn_land (s := ⟨.clamp head rest, 1, b⟩) hb hrest hj ?_ rfl rfl ?_ ?_
  · refine ⟨⟨hrest, hb.cell_mem hi, has_tag_cell hi hlift⟩, (Stage.control_resuming ..).symm, ?_,
      (Board.cell_drop hlift hi).symm⟩
    cases rest <;> rfl
  · intro hsome
    obtain ⟨a, rfl⟩ := Option.isSome_iff_exists.mp hsome
    simp only [cost, Option.isSome_some, if_true, reach_of_place hj]
    omega
  · rintro rfl
    exact ⟨Nat.zero_le _, Nat.lt_succ_self 1⟩

theorem turn_rewind {i : Nat} (hf : Fits sig ⟨.rewind, i + 1, b⟩) :
    Turn sig ⟨.rewind, i + 1, b⟩ ⟨.rewind, i, b⟩ := by
  obtain ⟨hb, hle, hplaced⟩ := hf
  have hmem := hb.cell_mem (i := i) hle
  have hkind := Signature.kind_of_mem_trackedCells hmem
  exact ⟨.of_rule (Stage.rule_rewind hkind) (.inl hmem) rfl rfl (Function.update_eq_self ..),
    ⟨hb, Nat.le_of_succ_le hle, hplaced⟩, rfl, Nat.le_refl _, rfl, .inl ⟨rfl, Nat.lt_succ_self _⟩⟩

theorem fits_atRest (hb : b.Sound sig) (hplaced : ∀ h, ∃ i, b.place h = some i) :
    (atRest b).Fits sig := by
  refine ⟨hb, hb.extent_pos, fun _ => Nat.le_refl 1, fun h => ?_⟩
  obtain ⟨i, hi⟩ := hplaced h
  refine ⟨i, hi, ?_, fun _ => Nat.succ_le_succ (Nat.zero_le i)⟩
  cases h <;> nofun

/-- At the anchor the next sweep for letters begins. -/
theorem turn_rewind_anchor (hf : Fits sig ⟨.rewind, 0, b⟩) :
    Turn sig ⟨.rewind, 0, b⟩ (.atRest b) := by
  obtain ⟨hb, -, hplaced⟩ := hf
  exact ⟨⟨.inr hb.anchor_mem, rfl, rfl, Function.update_eq_self ..⟩, fits_atRest hb hplaced, rfl,
    Nat.le_refl _, rfl, .inr ⟨rfl, rfl⟩⟩

theorem lt_extent_of_seek {p : Pending} {i : Nat} (hf : Fits sig ⟨.seek p, i + 1, b⟩) :
    i < b.extent := by
  obtain ⟨hb, -, -, hheads⟩ := hf
  obtain ⟨h, hawaits⟩ := p.exists_awaits
  obtain ⟨j, hj, hahead⟩ := hheads h
  exact lt_of_lt_of_le (hahead hawaits) (hb.place_lt h j hj)

theorem turn_seek_pass {p : Pending} {i : Nat} (hf : Fits sig ⟨.seek p, i + 1, b⟩)
    (hnone : p.found? (b.cell (i + 1)).tag = none) :
    Turn sig ⟨.seek p, i + 1, b⟩ ⟨.seek p, i + 2, b⟩ := by
  have hi := lt_extent_of_seek hf
  obtain ⟨hb, -, hp, hheads⟩ := hf
  dsimp only at hb hp hheads
  -- a head that is awaited is not on this cell, so it is beyond it
  have hahead' : ∀ h j, b.place h = some j → p.awaits h = true → i < j := by
    intro h j hj hawaits
    obtain ⟨j', hj', hahead⟩ := hheads h
    obtain rfl : j = j' := Option.some.inj (hj.symm.trans hj')
    have hne : j ≠ i := by
      rintro rfl
      have htag := Pending.has_of_found?_eq_none hnone hawaits
      rw [Board.cell_of_lt hi] at htag
      change (b.tag j).has h = false at htag
      rw [Board.has_tag, hj] at htag
      simp at htag
    have := hahead hawaits
    omega
  have hrule : (Stage.seek p).rule (b.cell (i + 1)) = .pass p.control (b.cell (i + 1)) .right := by
    show p.rule _ = _
    rw [Pending.rule, hnone]
  refine ⟨.of_rule hrule ⟨hp, hb.cell_mem hi⟩ rfl rfl (Function.update_eq_self ..),
    ⟨hb, Nat.succ_le_succ (Nat.zero_le _), hp, ?_⟩, rfl, Nat.le_refl _, rfl, .inl ⟨rfl, ?_⟩⟩
  · intro h
    obtain ⟨j, hj, -⟩ := hheads h
    exact ⟨j, hj, fun hawaits => Nat.succ_le_succ (hahead' h j hj hawaits)⟩
  · cases p with
    | both first second =>
      obtain ⟨j, hj, -⟩ := hheads .one
      have := le_far hj
      have := hahead' .one j hj rfl
      simp only [cost]
      omega
    | only head action =>
      obtain ⟨j, hj, -⟩ := hheads head
      have := hahead' head j hj (by simp [Pending.awaits])
      simp only [cost, reach_of_place hj]
      omega

/-- What is left of the bound once a head has been found. -/
theorem cost_seek_of_found {p : Pending} {tag : HeadSet} {f : Found} (hf : p.found? tag = some f)
    (hfound : b.reach f.head = pos) (hfar : b.reach f.head.other ≤ b.far) :
    (f.rest.isSome = true → 2 * b.reach f.head.other + 6 - pos ≤ cost ⟨.seek p, pos, b⟩) ∧
      (f.rest = none → pos + 3 ≤ cost ⟨.seek p, pos, b⟩) := by
  cases p with
  | both first second =>
    refine ⟨fun _ => ?_, fun hnone => ?_⟩
    · simp only [cost]
      omega
    · simp only [Pending.found?] at hf
      split at hf
      · cases hf
        cases hnone
      · split at hf
        · cases hf
          cases hnone
        · cases hf
  | only head action =>
    simp only [Pending.found?] at hf
    split at hf
    · cases hf
      refine ⟨fun hsome => absurd hsome Bool.false_ne_true, fun _ => ?_⟩
      simp only [cost, hfound]
      omega
    · cases hf

section Found

variable {p : Pending} {i : Nat} {f : Found}

/-- What is known when a head has been found: where both heads are and what they have to do. -/
structure OnHead (sig : Signature) (b : Board) (p : Pending) (i : Nat) (f : Found) : Prop where
  sound : b.Sound sig
  pending_over : p.Over sig
  action_mem : f.action ∈ sig.actions
  rest_mem : ∀ a ∈ f.rest, a ∈ sig.actions
  lt_extent : i < b.extent
  place_eq : b.place f.head = some i
  other : ∃ j, b.place f.head.other = some j ∧ (f.rest.isSome = true → i ≤ j)
  found : p.found? (b.cell (i + 1)).tag = some f

theorem Fits.onHead (hf : Fits sig ⟨.seek p, i + 1, b⟩)
    (hfound : p.found? (b.cell (i + 1)).tag = some f) : OnHead sig b p i f := by
  have hi := lt_extent_of_seek hf
  obtain ⟨hb, -, hp, hheads⟩ := hf
  obtain ⟨hhas, -, hawaits, -⟩ := Pending.found?_spec hfound
  obtain ⟨haction, hrest⟩ := Pending.found?_over hp hfound
  refine ⟨hb, hp, haction, hrest, hi, ?_, ?_, hfound⟩
  · rw [Board.cell_of_lt hi] at hhas
    exact of_decide_eq_true ((Board.has_tag b i f.head).symm.trans hhas)
  · obtain ⟨j, hj, hahead⟩ := hheads f.head.other
    exact ⟨j, hj, fun hsome => Nat.le_of_succ_le_succ (hahead (hawaits hsome))⟩

namespace OnHead

/-- The board with the letter of the head found written. -/
theorem sound_write (o : OnHead sig b p i f) : (b.write f.head i f.action.letter).Sound sig :=
  o.sound.write o.lt_extent (Signature.mem_actions.mp o.action_mem)

theorem settle_eq (o : OnHead sig b p i f) : p.settle b =
    ((b.write f.head i f.action.letter).drop f.head (f.action.dir.shift i)).finish f.head f.rest := by
  obtain ⟨-, -, -, hsettle⟩ := Pending.found?_spec o.found
  rw [hsettle, Board.act_of_place o.place_eq]

theorem cost_le (o : OnHead sig b p i f) {j : Nat} (hj : b.place f.head.other = some j) :
    (f.rest.isSome = true → 2 * (j + 1) + 6 - (i + 1) ≤ cost ⟨.seek p, i + 1, b⟩) ∧
      (f.rest = none → i + 4 ≤ cost ⟨.seek p, i + 1, b⟩) := by
  have h := cost_seek_of_found o.found (reach_of_place o.place_eq) (reach_of_place hj ▸ le_far hj)
  rwa [reach_of_place hj] at h

/-- The cells once the head found has been lifted. -/
theorem cell_lift (o : OnHead sig b p i f) : ((b.write f.head i f.action.letter).lift f.head).cell =
    Function.update b.cell (i + 1) (((b.cell (i + 1)).withLetter f.head f.action.letter).withTag
      ((b.cell (i + 1)).tag.erase f.head)) := by
  have htag : ∀ (cell : Cell) (h : Head) (s : Letter), (cell.withLetter h s).tag = cell.tag := by
    intro cell h s
    cases h <;> rfl
  have hlift := Board.cell_lift (b := b.write f.head i f.action.letter) o.place_eq o.lt_extent
  rw [Board.cell_write o.lt_extent, Function.update_idem, Function.update_self, htag] at hlift
  exact hlift

theorem turn_stay (o : OnHead sig b p i f) (hd : f.action.dir = .stay) :
    Turn sig ⟨.seek p, i + 1, b⟩ ⟨.resuming f.head f.rest, if f.rest.isSome then i + 1 else i,
      b.write f.head i f.action.letter⟩ := by
  obtain ⟨j, hj, hahead⟩ := o.other
  obtain ⟨hcost, hcost'⟩ := o.cost_le hj
  have hreach := reach_of_place (b := b.write f.head i f.action.letter) hj
  have hi := o.lt_extent
  have hrule : (Stage.seek p).rule (b.cell (i + 1)) = ⟨p.control, b.cell (i + 1),
      resume f.head f.rest, (b.cell (i + 1)).withLetter f.head f.action.letter,
      if f.rest.isSome then .stay else .left⟩ := by
    show p.rule _ = _
    simp only [Pending.rule, o.found, hd]
  refine ⟨.of_rule hrule ⟨o.pending_over, o.sound.cell_mem hi⟩ (Stage.control_resuming ..).symm ?_
    (Board.cell_write hi).symm, ?_, rfl, Nat.le_refl _, ?_, .inl ⟨?_, ?_⟩⟩
  · cases f.rest <;> rfl
  · refine fits_resuming o.sound_write o.rest_mem ?_ ?_ ?_
    · intro h
      obtain rfl | rfl := h.eq_or_eq_other f.head
      · exact ⟨i, o.place_eq⟩
      · exact ⟨j, hj⟩
    · intro hsome
      have := hahead hsome
      rw [if_pos hsome, hreach]
      omega
    · intro hnone
      rw [hnone]
      exact hi.le
  · rw [outlook_resuming]
    show _ = p.settle b
    have hdrop := Board.drop_place (b := b.write f.head i f.action.letter) o.place_eq hi
    rw [o.settle_eq, hd, Dir.shift, hdrop]
  · rw [part_resuming]
    rfl
  · rw [cost_resuming, hreach]
    cases hrest : f.rest with
    | none =>
      have := hcost' hrest
      simp only [Option.isSome_none, Bool.false_eq_true, if_false]
      omega
    | some a =>
      have := hcost (by rw [hrest]; rfl)
      have := hahead (by rw [hrest]; rfl)
      simp only [Option.isSome_some, if_true]
      omega

/-- A head that moves is lifted; what the two ways have in common. -/
theorem turn_lift (o : OnHead sig b p i f) {stage : Stage} {d : Dir}
    (hrule : (Stage.seek p).rule (b.cell (i + 1)) = ⟨p.control, b.cell (i + 1), stage.control,
      ((b.cell (i + 1)).withLetter f.head f.action.letter).withTag
        ((b.cell (i + 1)).tag.erase f.head), d⟩)
    (hpart : stage.part = .move)
    (hfits : Fits sig ⟨stage, d.shift (i + 1), (b.write f.head i f.action.letter).lift f.head⟩)
    (houtlook : outlook ⟨stage, d.shift (i + 1), (b.write f.head i f.action.letter).lift f.head⟩ =
      ((b.write f.head i f.action.letter).drop f.head (f.action.dir.shift i)).finish f.head f.rest)
    (hcost : cost ⟨stage, d.shift (i + 1), (b.write f.head i f.action.letter).lift f.head⟩ <
      cost ⟨.seek p, i + 1, b⟩) :
    Turn sig ⟨.seek p, i + 1, b⟩
      ⟨stage, d.shift (i + 1), (b.write f.head i f.action.letter).lift f.head⟩ := by
  refine ⟨.of_rule hrule ⟨o.pending_over, o.sound.cell_mem o.lt_extent⟩ rfl rfl o.cell_lift.symm, hfits,
    rfl, Nat.le_refl _, ?_, .inl ⟨hpart, hcost⟩⟩
  rw [houtlook]
  exact o.settle_eq.symm

theorem place_lift_other {j : Nat} (hj : b.place f.head.other = some j) :
    ((b.write f.head i f.action.letter).lift f.head).place f.head.other = some j := by
  rw [Board.place_lift_of_ne f.head.other_ne]
  exact hj

theorem turn_left (o : OnHead sig b p i f) (hd : f.action.dir = .left) :
    Turn sig ⟨.seek p, i + 1, b⟩
      ⟨.stepLeft f.head f.rest, i, (b.write f.head i f.action.letter).lift f.head⟩ := by
  obtain ⟨j, hj, hahead⟩ := o.other
  obtain ⟨hcost, hcost'⟩ := o.cost_le hj
  have hj' := place_lift_other (i := i) hj
  refine o.turn_lift (d := .left) ?_ rfl ?_ ?_ ?_
  · show p.rule _ = _
    simp only [Pending.rule, o.found, hd]
    rfl
  · exact ⟨o.sound_write.lift _, o.lt_extent, o.rest_mem, Board.place_lift_self .., j, hj', hahead⟩
  · show (Board.drop _ _ (i - 1)).finish f.head f.rest = _
    rw [Board.drop_lift, hd]
    rfl
  · cases hrest : f.rest with
    | none =>
      refine lt_of_lt_of_le ?_ (hcost' hrest)
      simp only [cost, Dir.shift]
      omega
    | some a =>
      have hsome : f.rest.isSome = true := by rw [hrest]; rfl
      have := hahead hsome
      refine lt_of_lt_of_le ?_ (hcost hsome)
      simp only [cost, Dir.shift, reach_of_place hj']
      omega

theorem turn_right (o : OnHead sig b p i f) (hd : f.action.dir = .right) :
    Turn sig ⟨.seek p, i + 1, b⟩
      ⟨.stepRight f.head f.rest, i + 2, (b.write f.head i f.action.letter).lift f.head⟩ := by
  obtain ⟨j, hj, hahead⟩ := o.other
  obtain ⟨hcost, hcost'⟩ := o.cost_le hj
  have hj' := place_lift_other (i := i) hj
  refine o.turn_lift (d := .right) ?_ rfl ?_ ?_ ?_
  · show p.rule _ = _
    simp only [Pending.rule, o.found, hd]
    rfl
  · exact ⟨o.sound_write.lift _, Nat.succ_le_succ (Nat.succ_le_succ (Nat.zero_le i)),
      Nat.succ_le_succ o.lt_extent, o.rest_mem, Board.place_lift_self .., j, hj',
      fun hsome => Nat.succ_le_succ (Nat.succ_le_succ (hahead hsome))⟩
  · show (Board.drop _ _ (i + 1)).finish f.head f.rest = _
    rw [Board.drop_lift, hd]
    rfl
  · cases hrest : f.rest with
    | none =>
      refine lt_of_lt_of_le ?_ (hcost' hrest)
      simp only [cost, Dir.shift]
      omega
    | some a =>
      have hsome : f.rest.isSome = true := by rw [hrest]; rfl
      have := hahead hsome
      refine lt_of_lt_of_le ?_ (hcost hsome)
      simp only [cost, Dir.shift, reach_of_place hj']
      omega

end OnHead

end Found

/-- **Every scene that fits takes a turn**, except at the anchor with both letters in hand, where a
transition fires. -/
theorem Fits.exists_turn {s : Scene} (hf : s.Fits sig) (hfire : ¬ s.Firing) : ∃ s', s.Turn sig s' := by
  obtain ⟨stage, pos, b⟩ := s
  cases stage with
  | scan k =>
    cases pos with
    | succ i => exact ⟨_, turn_scan hf⟩
    | zero =>
      -- a sweep that has not found both heads is not at the anchor
      cases hk : k.full with
      | false => cases hf.2.2.1 hk
      | true =>
        obtain ⟨c, d, rfl⟩ := Capture.exists_eq_of_full hk
        exact absurd ⟨rfl, c, d, rfl⟩ hfire
  | seek p =>
    obtain ⟨i, rfl⟩ : ∃ i, pos = i + 1 := Nat.exists_eq_succ_of_ne_zero (Nat.pos_iff_ne_zero.mp hf.2.1)
    cases hfound : p.found? (b.cell (i + 1)).tag with
    | none => exact ⟨_, turn_seek_pass hf hfound⟩
    | some f =>
      have o := hf.onHead hfound
      cases hd : f.action.dir with
      | stay => exact ⟨_, o.turn_stay hd⟩
      | left => exact ⟨_, o.turn_left hd⟩
      | right => exact ⟨_, o.turn_right hd⟩
  | stepLeft head rest =>
    cases pos with
    | zero => exact ⟨_, turn_stepLeft_anchor hf⟩
    | succ i => exact ⟨_, turn_stepLeft hf⟩
  | stepRight head rest =>
    obtain ⟨i, rfl⟩ : ∃ i, pos = i + 1 :=
      Nat.exists_eq_succ_of_ne_zero (Nat.pos_iff_ne_zero.mp (Nat.le_of_succ_le hf.2.1))
    exact ⟨_, turn_stepRight hf⟩
  | clamp head rest =>
    obtain rfl : pos = 1 := hf.2.1
    exact ⟨_, turn_clamp hf⟩
  | rewind =>
    cases pos with
    | zero => exact ⟨_, turn_rewind_anchor hf⟩
    | succ i => exact ⟨_, turn_rewind hf⟩
  | _ => exact hf.2.elim

end Scene

end Multitrack
