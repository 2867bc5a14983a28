import Mathlib.Order.Monotone.Basic
import Mathlib.Tactic
import Multitrack.Proofs.Emulation

/-! # The shape of the emulating tape

Once an input has been laid out, the emulating tape keeps its shape for as long as the machine runs:
an anchor on the first cell and on no other, then tracked cells, then blanks. Each head is on one
tracked cell, except while it is carried from one to the next. The shape is read off a board, and
every step takes a board to another one that is at least as wide; the emulated state changes only
when a transition fires. -/
namespace Multitrack

def Stage.lifts : Stage → Head → Bool
  | .stepLeft head _, h => head = h
  | .stepRight head _, h => head = h
  | .clamp head _, h => head = h
  | _, _ => false

namespace Configuration

variable (ts : List Transition) (c : Configuration Tape) (h : Head)

def Carries (i : Nat) : Prop :=
  ∃ a b tag, HeadSet.has tag h = true ∧
    c.tapes.letter i = (Signature.ofTransitions ts).guard.cell (.tracked a b tag)

/-- The state is one in which the head is stepped left or right or is clamped. -/
def Lifts : Prop :=
  ∃ stage : Stage, stage.lifts h = true ∧
    c.state = (Signature.ofTransitions ts).guard.control stage.control

end Configuration

/-- The tape has the shape of an emulation with `e` tracked cells. -/
structure TapeShape (ts : List Transition) (e : Nat) (c : Configuration Tape) : Prop where
  anchor : ∃ q ∈ (Signature.ofTransitions ts).anchorStates,
    c.tapes.letter 0 = (Signature.ofTransitions ts).guard.cell (.anchor q)
  anchor_only : ∀ i, i ≠ 0 → ∀ q,
    c.tapes.letter i ≠ (Signature.ofTransitions ts).guard.cell (.anchor q)
  extent_pos : 1 ≤ e
  tracked : ∀ i, 1 ≤ i → i ≤ e → ∃ a ∈ (Signature.ofTransitions ts).alphabet,
    ∃ b ∈ (Signature.ofTransitions ts).alphabet, ∃ tag,
      c.tapes.letter i = (Signature.ofTransitions ts).guard.cell (.tracked a b tag)
  blank_beyond : ∀ i, e < i → c.tapes.letter i = blank
  head_le : c.tapes.head ≤ e + 1
  /-- Only a head that is stepped right is met beyond the tracked cells. -/
  head_beyond : c.tapes.head = e + 1 → ∃ head rest,
    c.state = (Signature.ofTransitions ts).guard.control (Stage.stepRight head rest).control
  placed : (∀ h, ¬ c.Lifts ts h) → ∀ h, ∃! i, c.Carries ts h i
  lifted : ∀ h, c.Lifts ts h → (∀ i, ¬ c.Carries ts h i) ∧ ∃! i, c.Carries ts h.other i

namespace Board

variable {ts : List Transition} {b : Board} {tape : Tape}

def OnTape (ts : List Transition) (b : Board) (tape : Tape) : Prop :=
  ∀ i, tape.letter i = (Signature.ofTransitions ts).guard.cell (b.cell i)

theorem covers (ts : List Transition) (b : Board) (i : Nat) :
    (Signature.ofTransitions ts).guard.Covers (b.cell i) := by
  have hsig := Signature.proper_ofTransitions ts
  cases i with
  | zero => exact .anchor b.state
  | succ i =>
    rcases Nat.lt_or_ge i b.extent with hi | hi
    · rw [cell_of_lt hi]
      exact .tracked _ _ _
    · rw [cell_of_le hi]
      exact .plain (hsig.guarded _ hsig.blank_mem)

theorem OnTape.cell_eq (hl : b.OnTape ts tape) {i : Nat} {cell : Cell}
    (hcell : (Signature.ofTransitions ts).guard.Covers cell)
    (h : tape.letter i = (Signature.ofTransitions ts).guard.cell cell) : b.cell i = cell :=
  Guard.cell_injective _ (b.covers ts i) hcell ((hl i).symm.trans h)

/-- A tape shows boards of one width only. -/
theorem OnTape.extent_le {b' : Board} (hl : b.OnTape ts tape) (hl' : b'.OnTape ts tape) :
    b.extent ≤ b'.extent := by
  by_contra hlt
  have hcell := hl.cell_eq (b'.covers ts _) (hl' (b'.extent + 1))
  rw [cell_of_lt (Nat.not_le.mp hlt), cell_of_le (Nat.le_refl _)] at hcell
  cases congrArg Cell.kind hcell

variable {c : Configuration Tape}

/-- A head is carried where it is placed. -/
theorem OnTape.carries_iff (hl : b.OnTape ts c.tapes) (hb : b.Sound (.ofTransitions ts)) {h : Head}
    {i : Nat} : c.Carries ts h i ↔ ∃ k, b.place h = some k ∧ i = k + 1 := by
  constructor
  · rintro ⟨s, s', tag, htag, hletter⟩
    have hcell := hl.cell_eq (.tracked s s' tag) hletter
    cases i with
    | zero => cases congrArg Cell.kind hcell
    | succ k =>
      rcases Nat.lt_or_ge k b.extent with hk | hk
      · rw [cell_of_lt hk] at hcell
        rw [← show b.tag k = tag from congrArg Cell.tag hcell, has_tag] at htag
        exact ⟨k, of_decide_eq_true htag, rfl⟩
      · rw [cell_of_le hk] at hcell
        cases congrArg Cell.kind hcell
  · rintro ⟨k, hk, rfl⟩
    refine ⟨b.letter .one k, b.letter .two k, b.tag k, ?_, ?_⟩
    · rw [has_tag, hk]
      simp
    · rw [hl, cell_of_lt (hb.place_lt h k hk)]

theorem OnTape.exists_unique (hl : b.OnTape ts c.tapes) (hb : b.Sound (.ofTransitions ts)) {h : Head}
    {k : Nat} (hk : b.place h = some k) : ∃! i, c.Carries ts h i := by
  refine ⟨k + 1, (hl.carries_iff hb).mpr ⟨k, hk, rfl⟩, ?_⟩
  intro i hi
  obtain ⟨k', hk', rfl⟩ := (hl.carries_iff hb).mp hi
  rw [Option.some.inj (hk.symm.trans hk')]

/-- The shape is that of a board; what is left to say is where the heads are. -/
theorem OnTape.tapeShape (hl : b.OnTape ts c.tapes) (hb : b.Sound (.ofTransitions ts))
    (hhead : c.tapes.head ≤ b.extent ∨ c.tapes.head = b.extent + 1 ∧ ∃ head rest,
      c.state = (Signature.ofTransitions ts).guard.control (Stage.stepRight head rest).control)
    (hplaced : (∀ h, ¬ c.Lifts ts h) → ∀ h, ∃ k, b.place h = some k)
    (hlifted : ∀ h, c.Lifts ts h → b.place h = none ∧ ∃ k, b.place h.other = some k) :
    TapeShape ts b.extent c where
  anchor := ⟨b.state, hb.state_mem, hl 0⟩
  anchor_only := by
    intro i hi q hletter
    obtain ⟨i, rfl⟩ := Nat.exists_eq_succ_of_ne_zero hi
    have hcell := hl.cell_eq (.anchor q) hletter
    rcases Nat.lt_or_ge i b.extent with hlt | hge
    · rw [cell_of_lt hlt] at hcell
      cases congrArg Cell.kind hcell
    · rw [cell_of_le hge] at hcell
      cases congrArg Cell.kind hcell
  extent_pos := hb.extent_pos
  tracked := by
    intro i hi hle
    obtain ⟨i, rfl⟩ := Nat.exists_eq_succ_of_ne_zero (Nat.pos_iff_ne_zero.mp hi)
    refine ⟨_, hb.letter_mem .one i, _, hb.letter_mem .two i, b.tag i, ?_⟩
    rw [hl, cell_of_lt hle]
  blank_beyond := by
    intro i hi
    obtain ⟨i, rfl⟩ := Nat.exists_eq_succ_of_ne_zero (Nat.ne_zero_of_lt hi)
    rw [hl, cell_of_le (Nat.le_of_lt_succ hi)]
    rfl
  head_le := by
    rcases hhead with h | ⟨h, -⟩
    · exact Nat.le_succ_of_le h
    · exact h.le
  head_beyond := by
    intro h
    rcases hhead with hle | ⟨-, hstage⟩
    · omega
    · exact hstage
  placed := by
    intro hnone h
    obtain ⟨k, hk⟩ := hplaced hnone h
    exact hl.exists_unique hb hk
  lifted := by
    intro h hlift
    obtain ⟨hnone, k, hk⟩ := hlifted h hlift
    refine ⟨fun i hi => ?_, hl.exists_unique hb hk⟩
    obtain ⟨k', hk', -⟩ := (hl.carries_iff hb).mp hi
    rw [hnone] at hk'
    cases hk'

end Board

/-! ## Scenes have the shape -/

namespace Scene

variable {sig : Signature} {s : Scene}

theorem Fits.pos_le (hf : s.Fits sig) : s.pos ≤ s.board.extent ∨
    s.pos = s.board.extent + 1 ∧ ∃ head rest, s.stage = .stepRight head rest := by
  obtain ⟨stage, pos, b⟩ := s
  cases stage with
  | scan k => exact .inl hf.2.1
  | seek p =>
    obtain ⟨i, rfl⟩ : ∃ i, pos = i + 1 := Nat.exists_eq_succ_of_ne_zero (Nat.pos_iff_ne_zero.mp hf.2.1)
    exact .inl (lt_extent_of_seek hf)
  | stepLeft head rest => exact .inl (Nat.le_of_lt hf.2.1)
  | stepRight head rest =>
    rcases Nat.lt_or_ge b.extent pos with hlt | hge
    · exact .inr ⟨Nat.le_antisymm hf.2.2.1 hlt, head, rest, rfl⟩
    · exact .inl hge
  | clamp head rest =>
    obtain rfl : pos = 1 := hf.2.1
    exact .inl hf.sound.extent_pos
  | rewind => exact .inl hf.2.1
  | _ => exact hf.2.elim

theorem Fits.place_of_lifts (hf : s.Fits sig) {h : Head} (hlift : s.stage.lifts h = true) :
    s.board.place h = none ∧ ∃ k, s.board.place h.other = some k := by
  obtain ⟨stage, pos, b⟩ := s
  cases stage with
  | stepLeft head rest =>
    obtain rfl : head = h := of_decide_eq_true hlift
    obtain ⟨-, -, -, hnone, k, hk, -⟩ := hf
    exact ⟨hnone, k, hk⟩
  | stepRight head rest =>
    obtain rfl : head = h := of_decide_eq_true hlift
    obtain ⟨-, -, -, -, hnone, k, hk, -⟩ := hf
    exact ⟨hnone, k, hk⟩
  | clamp head rest =>
    obtain rfl : head = h := of_decide_eq_true hlift
    obtain ⟨-, -, -, hnone, k, hk⟩ := hf
    exact ⟨hnone, k, hk⟩
  | _ => cases hlift

theorem Fits.exists_place (hf : s.Fits sig) (hnone : ∀ h, s.stage.lifts h = false) (h : Head) :
    ∃ k, s.board.place h = some k := by
  obtain ⟨stage, pos, b⟩ := s
  cases stage with
  | scan k =>
    obtain ⟨-, -, -, hheads⟩ := hf
    obtain ⟨i, hi, -⟩ := hheads h
    exact ⟨i, hi⟩
  | seek p =>
    obtain ⟨-, -, -, hheads⟩ := hf
    obtain ⟨i, hi, -⟩ := hheads h
    exact ⟨i, hi⟩
  | stepLeft head rest => simpa [Stage.lifts] using hnone head
  | stepRight head rest => simpa [Stage.lifts] using hnone head
  | clamp head rest => simpa [Stage.lifts] using hnone head
  | rewind => exact hf.2.2 h
  | _ => exact hf.2.elim

/-- A scene in which both letters are at the anchor shows the letters under the heads. -/
theorem Fits.shown_firing {ts : List Transition} {c : Configuration Tape}
    (hf : s.Fits (.ofTransitions ts)) (hfire : s.Firing) (hs : s.view.ShownBy ts c) :
    ∃ i j, s.board.place .one = some i ∧ s.board.place .two = some j ∧
      (View.firing (s.board.letter .one i) (s.board.letter .two j) s.board.cell).ShownBy ts c := by
  have hnone : ∀ h, s.stage.lifts h = false := by
    obtain ⟨-, a, a', hstage⟩ := hfire
    rw [hstage]
    exact fun _ => rfl
  obtain ⟨i, hi⟩ := hf.exists_place hnone .one
  obtain ⟨j, hj⟩ := hf.exists_place hnone .two
  rw [hf.eq_atAnchor hfire hi hj] at hs
  exact ⟨i, j, hi, hj, hs⟩

end Scene

/-! ## Emulating configurations -/

/-- The configuration is one of the emulation, at work or halted, and the board is the one it shows.
-/
inductive Emulates (ts : List Transition) : Board → Configuration Tape → Prop
  | running {s : Scene} {c : Configuration Tape} (fits : s.Fits (.ofTransitions ts))
      (shown : s.view.ShownBy ts c) : Emulates ts s.board c
  | ended {b : Board} {c : Configuration Tape} (sound : b.Sound (.ofTransitions ts))
      (placed : ∀ h, ∃ k, b.place h = some k) (halted : c.halted = true)
      (head_eq : c.tapes.head = 0) (onTape : b.OnTape ts c.tapes) : Emulates ts b c

namespace Emulates

variable {ts : List Transition} {b : Board} {c : Configuration Tape}

theorem onTape (h : Emulates ts b c) : b.OnTape ts c.tapes := by
  cases h with
  | running fits shown => exact shown.letter_eq
  | ended sound placed halted head_eq onTape => exact onTape

theorem tapeShape (h : Emulates ts b c) : TapeShape ts b.extent c := by
  cases h with
  | @running s c fits shown =>
    have hlifts : ∀ {h}, c.Lifts ts h → s.stage.lifts h = true := by
      rintro h ⟨stage, hlift, hstate⟩
      have hstage : stage = s.stage := Stage.name_injective _ (hstate.symm.trans shown.state_eq)
      exact hstage ▸ hlift
    refine Board.OnTape.tapeShape shown.letter_eq fits.sound ?_ ?_ ?_
    · rw [shown.head_eq]
      rcases fits.pos_le with hle | ⟨heq, head, rest, hstage⟩
      · exact .inl hle
      · refine .inr ⟨heq, head, rest, ?_⟩
        rw [shown.state_eq, ← hstage]
        rfl
    · intro hnone
      refine fits.exists_place fun h => ?_
      by_contra hlift
      exact hnone h ⟨s.stage, Bool.not_eq_false _ ▸ hlift, shown.state_eq⟩
    · intro h hlift
      exact fits.place_of_lifts (hlifts hlift)
  | ended sound placed halted head_eq onTape =>
    refine onTape.tapeShape sound (.inl (head_eq ▸ Nat.zero_le _)) (fun _ => placed) ?_
    rintro h ⟨stage, -, hstate⟩
    rw [Configuration.halted, hstate, Stage.name_not_halting] at halted
    cases halted

/-- Firing keeps to the emulation: the run ends, or the move begins under the new state. -/
theorem step_firing {s : Scene} (hf : s.Fits (.ofTransitions ts)) (hs : s.view.ShownBy ts c)
    (hfire : s.Firing) :
    ∃ b', Emulates ts b' (c.step (emulator ts)) ∧ s.board.extent ≤ b'.extent := by
  obtain ⟨i, j, hi, hj, hs⟩ := hf.shown_firing hfire hs
  have hplaced : ∀ h, ∃ k, s.board.place h = some k := by
    intro h
    cases h
    · exact ⟨i, hi⟩
    · exact ⟨j, hj⟩
  have hrunning := (Signature.mem_anchorStates.mp hf.sound.state_mem).2
  cases ht : ts.find? fun t => t.key = ⟨s.board.state, s.board.letter .one i, s.board.letter .two j⟩ with
  | none =>
    obtain ⟨-, hstep⟩ := hs.fire_none rfl hrunning ht
    rw [hstep]
    exact ⟨s.board, .ended hf.sound hplaced rfl hs.head_eq hs.letter_eq, Nat.le_refl _⟩
  | some t =>
    cases hn : isHalting t.next with
    | true =>
      obtain ⟨-, hstep⟩ := hs.fire_halting rfl hrunning ht hn
      rw [hstep]
      have hstart := (Signature.proper_ofTransitions ts).start_mem
      refine ⟨s.board.withState startState, .ended
        (hf.sound.withState (Signature.mem_anchorStates.mpr ⟨hstart, rfl⟩)) hplaced hn ?_ ?_,
        Nat.le_refl _⟩
      · show ((c.tapes.write _).move .stay).head = 0
        rw [Tape.head_move, Tape.head_write, hs.head_eq]
        rfl
      · intro k
        rw [Board.cell_withState]
        exact hs.letter_write .sentinel .stay k
    | false =>
      have hshown := hs.fire_moving rfl hrunning ht hn
      rw [← Board.cell_withState] at hshown
      have hfits := Scene.fits_fired hf.sound hi hj (List.mem_of_find?_eq_some ht) hn
      exact ⟨_, .running hfits hshown, Nat.le_refl _⟩

/-- **Every step stays in the emulation.** The board does not get narrower, and the anchor changes
only in a step that leaves a state in which both letters are delivered. -/
theorem step (h : Emulates ts b c) : ∃ b', Emulates ts b' (c.step (emulator ts)) ∧
    b.extent ≤ b'.extent ∧ (b'.state ≠ b.state → ∃ s s',
      c.state = (Signature.ofTransitions ts).guard.control (.delivering s s')) := by
  cases h with
  | ended sound placed halted head_eq onTape =>
    rw [Configuration.step_of_halted halted]
    exact ⟨b, .ended sound placed halted head_eq onTape, Nat.le_refl _, fun hne => absurd rfl hne⟩
  | @running s c fits shown =>
    by_cases hfire : s.Firing
    · obtain ⟨b', hb', hle⟩ := step_firing fits shown hfire
      refine ⟨b', hb', hle, fun _ => ?_⟩
      obtain ⟨-, a, a', hstage⟩ := hfire
      refine ⟨a, a', shown.state_eq.trans ?_⟩
      show Guard.control _ s.stage.control = _
      rw [hstage]
      rfl
    · obtain ⟨s', hturn⟩ := fits.exists_turn hfire
      exact ⟨s'.board, .running hturn.fits (shown.step hturn.step), hturn.extent_le,
        fun hne => absurd hturn.state_eq hne⟩

/-- From a configuration of the emulation on, all are. -/
theorem iterate (h : Emulates ts b c) (n : Nat) :
    ∃ b', Emulates ts b' ((Configuration.step (emulator ts))^[n] c) := by
  induction n with
  | zero => exact ⟨b, h⟩
  | succ n ih =>
    obtain ⟨b', hb'⟩ := ih
    obtain ⟨b'', hb'', -⟩ := hb'.step
    rw [Function.iterate_succ_apply']
    exact ⟨b'', hb''⟩

/-- The width of the board never decreases along a run. -/
theorem exists_monotone (h : Emulates ts b c) : ∃ boards : Nat → Board,
    Monotone (fun n => (boards n).extent) ∧
      ∀ n, Emulates ts (boards n) ((Configuration.step (emulator ts))^[n] c) := by
  choose boards hboards using h.iterate
  refine ⟨boards, monotone_nat_of_le_succ fun n => ?_, hboards⟩
  obtain ⟨b', hb', hle, -⟩ := (hboards n).step
  rw [← Function.iterate_succ_apply' (Configuration.step (emulator ts))] at hb'
  -- the board after the step need not be the chosen one, but it is as wide
  exact le_trans hle (hb'.onTape.extent_le (hboards (n + 1)).onTape)

theorem letter_zero_step (h : Emulates ts b c)
    (hne : (c.step (emulator ts)).tapes.letter 0 ≠ c.tapes.letter 0) :
    ∃ s s', c.state = (Signature.ofTransitions ts).guard.control (.delivering s s') := by
  obtain ⟨b', hb', -, hstate⟩ := h.step
  refine hstate fun heq => hne ?_
  rw [hb'.onTape 0, h.onTape 0]
  show Guard.cell _ (.anchor b'.state) = Guard.cell _ (.anchor b.state)
  rw [heq]

end Emulates

/-! ## Runs on an input -/

namespace Ordinary

variable {ts : List Transition} {input u : List Letter}

theorem emulates (h : Ordinary ts input u) :
    ∃ b, Emulates ts b ((emulator ts).after input (4 * u.length + 4)) := by
  have hplaced : ∀ k, ∃ i,
      ((Configuration.initial (TwoTape.machine ts) input).board (max u.length 1)).place k = some i := by
    intro k
    cases k <;> exact ⟨0, rfl⟩
  exact ⟨_, .running (Scene.fits_atRest h.sound_board hplaced)
    ((shownBy_initial ts input).run h.run_atRest)⟩

/-- No sweep for letters begins before the input has been laid out. -/
theorem state_ne_of_lt (h : Ordinary ts input u) {k : Nat} (hk : k < 4 * u.length + 4) :
    ((emulator ts).after input k).state ≠
      (Signature.ofTransitions ts).guard.control (.locating 0 []) := by
  obtain ⟨w, hpart, hw⟩ := (shownBy_initial ts input).run_within h.run_atRest hk
  exact hw.state_ne_locating (hpart ▸ nofun)

end Ordinary

/-- **The tape keeps its shape along a run.** The first sweep for letters begins after four steps
for each letter and four more. From there on the first cell is the only anchor, the tracked cells
are followed by blanks and never get fewer, each head is on one of them unless it is lifted, and the
anchor changes only in a step out of a state that delivers both letters. -/
theorem tapeShape_after_layout (ts : List Transition) (u : List Letter) (j : Nat)
    (hu : ∀ s ∈ u, s ∈ (Signature.ofTransitions ts).alphabet ∧ s ≠ blank) :
    (∀ k < 4 * u.length + 4, ((emulator ts).after (u ++ List.replicate j blank) k).state ≠
      (Signature.ofTransitions ts).guard.control (.locating 0 [])) ∧
    ((emulator ts).after (u ++ List.replicate j blank) (4 * u.length + 4)).state =
      (Signature.ofTransitions ts).guard.control (.locating 0 []) ∧
    ∃ extent : Nat → Nat, Monotone extent ∧ ∀ n, 4 * u.length + 4 ≤ n →
      TapeShape ts (extent n) ((emulator ts).after (u ++ List.replicate j blank) n) ∧
      (((emulator ts).after (u ++ List.replicate j blank) (n + 1)).tapes.letter 0 ≠
          ((emulator ts).after (u ++ List.replicate j blank) n).tapes.letter 0 →
        ∃ s s', ((emulator ts).after (u ++ List.replicate j blank) n).state =
          (Signature.ofTransitions ts).guard.control (.delivering s s')) := by
  have hinput := Ordinary.of_append hu j
  obtain ⟨b, hb⟩ := hinput.emulates
  obtain ⟨boards, hmono, hboards⟩ := hb.exists_monotone
  refine ⟨fun k hk => hinput.state_ne_of_lt hk, hinput.represents_initial.state_eq,
    fun n => (boards (n - (4 * u.length + 4))).extent, ?_, ?_⟩
  · intro n k hnk
    exact hmono (Nat.sub_le_sub_right hnk _)
  · intro n hn
    have hemulates := hboards (n - (4 * u.length + 4))
    rw [← Machine.after_add, Nat.sub_add_cancel hn] at hemulates
    refine ⟨hemulates.tapeShape, ?_⟩
    rw [Machine.after_succ]
    exact hemulates.letter_zero_step

theorem tapeShape_after_layout_parting :
    (∀ s ∈ ["a"], s ∈ (Signature.ofTransitions parting).alphabet ∧ s ≠ blank) ∧
      ∃ extent : Nat → Nat, Monotone extent ∧ ∀ n, 8 ≤ n →
        TapeShape parting (extent n) ((emulator parting).after ["a", blank] n) := by
  have hu : ∀ s ∈ ["a"], s ∈ (Signature.ofTransitions parting).alphabet ∧ s ≠ blank := by decide
  obtain ⟨-, -, extent, hmono, hshape⟩ := tapeShape_after_layout parting ["a"] 1 hu
  exact ⟨hu, extent, hmono, fun n hn => (hshape n hn).1⟩

end Multitrack
