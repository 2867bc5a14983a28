import Mathlib.Tactic
import Multitrack.Proofs.Lookup

/-! # The produced table is closed and covers what its phases meet

The rows for a control state and a cell are counted through the rules that they stand for. A stage
has one rule for a cell that it meets, and none for any other cell, unless letters are delivered to
an anchor. As every stage over the signature meets some cell, no row leads into a state without
rows. -/
namespace Multitrack

/-! ## Counting rows -/

def rowCount (ts : List Transition) (c : Control) (cell : Cell) : Nat :=
  (reduce ts).countP fun row => row.key =
    ⟨(Signature.ofTransitions ts).guard.control c, (Signature.ofTransitions ts).guard.cell cell⟩

section Counting

variable {ts : List Transition} {s : Stage} {cell : Cell}

theorem rowCount_eq_countP (s : Stage) (hcell : (Signature.ofTransitions ts).guard.Covers cell) :
    rowCount ts s.control cell =
      (bookOf ts).rules.toList.countP fun r => r.source = s.control ∧ r.read = cell := by
  rw [rowCount, reduce_eq_map, List.countP_map]
  refine List.countP_congr fun r hr => ?_
  rw [Function.comp_apply, decide_eq_true_eq, decide_eq_true_eq]
  exact key_row_eq_iff (mem_rules_bookOf.mp hr) s hcell

/-- **One row for each cell that a stage meets.** -/
theorem rowCount_of_meets (h : s.Meets (.ofTransitions ts) cell) :
    rowCount ts s.control cell = 1 := by
  have hmem : s.rule cell ∈ enteredRules ts := mem_enteredRules.mpr (.inl ⟨s, cell, h, rfl⟩)
  have hcount : (bookOf ts).rules.toList.countP (fun r => r.source = s.control ∧ r.read = cell) =
      (bookOf ts).rules.toList.count (s.rule cell) := by
    refine List.countP_congr fun r hr => ?_
    rw [decide_eq_true_eq, beq_iff_eq]
    constructor
    · rintro ⟨hs, hc⟩
      exact eq_rule_of_mem h (mem_rules_bookOf.mp hr) hs hc
    · rintro rfl
      exact ⟨s.source_rule cell, s.read_rule cell⟩
  rw [rowCount_eq_countP s (h.covers (Signature.proper_ofTransitions ts)), hcount]
  exact List.count_eq_one_of_mem (nodup_bookOf ts) (mem_rules_bookOf.mpr hmem)

/-- Where no transition can fire, a cell that a stage does not meet has no row. -/
theorem rowCount_of_not_meets (hcell : (Signature.ofTransitions ts).guard.Covers cell)
    (hkind : cell.kind ≠ .anchor) (h : ¬ s.Meets (.ofTransitions ts) cell) :
    rowCount ts s.control cell = 0 := by
  rw [rowCount_eq_countP s hcell, List.countP_eq_zero]
  intro r hr
  rw [decide_eq_true_eq]
  rintro ⟨hs, hc⟩
  rcases mem_enteredRules.mp (mem_rules_bookOf.mp hr) with ⟨s', cell', hm, rfl⟩ | ⟨t, -, ht⟩
  · rw [s'.source_rule] at hs
    rw [s'.read_rule] at hc
    exact h (Stage.control_injective hs ▸ hc ▸ hm)
  · rw [(Transition.fireRule?_spec ht).2.2] at hc
    exact hkind (hc ▸ rfl)

end Counting

/-! ## Closure -/

/-- A stage over the signature meets some cell. -/
theorem Stage.Over.exists_meets {sig : Signature} (hsig : sig.Proper) {s : Stage} (h : s.Over sig) :
    ∃ cell, s.Meets sig cell := by
  have htracked : Cell.tracked blank blank .none ∈ sig.trackedCells :=
    Signature.mem_trackedCells.mpr ⟨blank, hsig.blank_mem, blank, hsig.blank_mem, .none, rfl⟩
  have hlacks : ∀ head : Head, HeadSet.none.has head = false := by
    intro head
    cases head <;> rfl
  cases s with
  | start | pack => exact ⟨.plain blank, blank, .inl rfl, rfl⟩
  | carry held => exact ⟨.plain blank, h, blank, .inl rfl, rfl⟩
  | shiftBack | packBack => exact ⟨.sentinel, .inl rfl⟩
  | place => exact ⟨.plain blank, .inl rfl⟩
  | scan k | seek p => exact ⟨_, h, htracked⟩
  | stepLeft head rest | stepRight head rest => exact ⟨_, h, .inl ⟨htracked, hlacks head⟩⟩
  | clamp head rest => exact ⟨_, h, htracked, hlacks head⟩
  | rewind => exact ⟨_, .inl htracked⟩

/-- Every stage over the signature has a row. -/
theorem exists_row_of_over {ts : List Transition} {s : Stage} (h : s.Over (.ofTransitions ts)) :
    ∃ row ∈ reduce ts, row.state = (Signature.ofTransitions ts).guard.control s.control := by
  obtain ⟨cell, hm⟩ := h.exists_meets (Signature.proper_ofTransitions ts)
  refine ⟨(Signature.ofTransitions ts).guard.row (s.rule cell), ?_, ?_⟩
  · rw [reduce_eq_map]
    exact List.mem_map_of_mem (mem_rules_bookOf.mpr (mem_enteredRules.mpr (.inl ⟨s, cell, hm, rfl⟩)))
  · rw [Guard.row, s.source_rule]

/-- No row leads into a state without rows. -/
theorem next_of_mem_reduce {ts : List Transition} {row : Row} (h : row ∈ reduce ts) :
    row.next = acceptState ∨ row.next = rejectState ∨ ∃ row' ∈ reduce ts, row'.state = row.next := by
  rw [reduce_eq_map] at h
  obtain ⟨r, hr, rfl⟩ := List.mem_map.mp h
  rcases (exists_target_of_mem (mem_rules_bookOf.mp hr)).1 with ⟨s, hs, hover⟩ | hs | hs <;>
    simp only [Guard.row, hs]
  · exact .inr (.inr (exists_row_of_over hover))
  · exact .inl rfl
  · exact .inr (.inl rfl)

/-! ## Sweeps and carried heads -/

/-- The control states that pass over tracked cells, whatever heads are on them: no letter or one has
been collected, both are being delivered, one or two heads are still to act, or the machine
rewinds. -/
inductive Sweeping (sig : Signature) : Control → Prop
  | locate : Sweeping sig (.locating 0 [])
  | locateOther (found : Head) {s : Letter} (letter : s ∈ sig.alphabet) :
      Sweeping sig (.locating found.number [s])
  | deliver {s t : Letter} (first : s ∈ sig.alphabet) (second : t ∈ sig.alphabet) :
      Sweeping sig (.delivering s t)
  | seekBoth {s t : Letter} (first : s ∈ sig.alphabet) (second : t ∈ sig.alphabet) (d e : Dir) :
      Sweeping sig (.moving .seek 3 [s, t] [d, e])
  | seekOne (pending : Head) {s : Letter} (letter : s ∈ sig.alphabet) (d : Dir) :
      Sweeping sig (.moving .seek pending.number [s] [d])
  | rewind : Sweeping sig (.moving .rewind 0 [] [])

/-- The control states of a phase that carry a head, while the other one is done or still to act. -/
inductive Carrying (sig : Signature) (phase : Phase) (head : Head) : Control → Prop
  | last : Carrying sig phase head (.moving phase head.number [] [])
  | pending {s : Letter} (letter : s ∈ sig.alphabet) (d : Dir) :
      Carrying sig phase head (.moving phase head.number [s] [d])

variable {sig : Signature}

theorem Sweeping.exists_stage {c : Control} (h : Sweeping sig c) :
    ∃ s : Stage, s.control = c ∧ ∀ cell ∈ sig.trackedCells, s.Meets sig cell := by
  have hsome : ∀ {s : Letter}, s ∈ sig.alphabet → ∀ a ∈ some s, a ∈ sig.alphabet :=
    fun hs a ha => Option.some.inj ha ▸ hs
  cases h with
  | locate => exact ⟨.scan .empty, rfl, fun cell hc => ⟨⟨nofun, nofun⟩, hc⟩⟩
  | locateOther found letter =>
    cases found with
    | one => exact ⟨.scan ⟨some _, none⟩, rfl, fun cell hc => ⟨⟨hsome letter, nofun⟩, hc⟩⟩
    | two => exact ⟨.scan ⟨none, some _⟩, rfl, fun cell hc => ⟨⟨nofun, hsome letter⟩, hc⟩⟩
  | deliver first second =>
    exact ⟨.scan ⟨some _, some _⟩, rfl, fun cell hc => ⟨⟨hsome first, hsome second⟩, hc⟩⟩
  | seekBoth first second d e =>
    exact ⟨.seek (.both ⟨_, d⟩ ⟨_, e⟩), rfl, fun cell hc =>
      ⟨⟨Signature.mem_actions.mpr first, Signature.mem_actions.mpr second⟩, hc⟩⟩
  | seekOne pending letter d =>
    exact ⟨.seek (.only pending ⟨_, d⟩), rfl, fun cell hc =>
      ⟨Signature.mem_actions.mpr letter, hc⟩⟩
  | rewind => exact ⟨.rewind, rfl, fun cell hc => .inl hc⟩

theorem Carrying.exists_rest {phase : Phase} {head : Head} {c : Control}
    (h : Carrying sig phase head c) : ∃ rest : Option Action, (∀ a ∈ rest, a ∈ sig.actions) ∧
      c = .withActions phase head.number rest.toList := by
  cases h with
  | last => exact ⟨none, nofun, rfl⟩
  | @pending s letter d =>
    exact ⟨some ⟨s, d⟩, fun a ha => Option.some.inj ha ▸ Signature.mem_actions.mpr letter, rfl⟩

/-- A stage that carries a head meets the tracked cells without it and no other tracked cell. -/
theorem Carrying.exists_stage {phase : Phase} (hphase : phase ∈ [Phase.stepLeft, .stepRight, .clamp])
    {head : Head} {c : Control} (h : Carrying sig phase head c) :
    ∃ s : Stage, s.control = c ∧
      ∀ cell ∈ sig.trackedCells, s.Meets sig cell ↔ cell.tag.has head = false := by
  obtain ⟨rest, hrest, rfl⟩ := h.exists_rest
  simp only [List.mem_cons, List.not_mem_nil, or_false] at hphase
  have hcell : ∀ {cell : Cell}, cell ∈ sig.trackedCells → cell ∉ sig.anchors ∧ cell ≠ .plain blank := by
    intro cell hc
    have hkind := Signature.kind_of_mem_trackedCells hc
    refine ⟨fun ha => ?_, ?_⟩
    · cases hkind.symm.trans (Signature.kind_of_mem_anchors ha)
    · rintro rfl
      cases hkind
  rcases hphase with rfl | rfl | rfl
  · refine ⟨.stepLeft head rest, rfl, fun cell hc => (and_iff_right hrest).trans ?_⟩
    rw [or_iff_left (hcell hc).1, and_iff_right hc]
  · refine ⟨.stepRight head rest, rfl, fun cell hc => (and_iff_right hrest).trans ?_⟩
    rw [or_iff_left (hcell hc).2, and_iff_right hc]
  · refine ⟨.clamp head rest, rfl, fun cell hc => (and_iff_right hrest).trans ?_⟩
    rw [and_iff_right hc]

/-- **The produced table is closed, and covers exactly what each phase may meet.** A row leads to the
end of the run or to a state that has rows. In a sweep every tracked cell over the alphabet has one
row. Where a head is carried, a tracked cell has one row if the head is not on it and none if it is;
a step to the left may also meet the anchor of any state that does not halt, as may rewinding, and
one to the right the blank beyond the tracked cells. -/
theorem reduce_closed_and_exact (ts : List Transition) :
    let sig := Signature.ofTransitions ts
    (∀ row ∈ reduce ts, row.next = acceptState ∨ row.next = rejectState ∨
      ∃ row' ∈ reduce ts, row'.state = row.next) ∧
    (∀ c, Sweeping sig c → ∀ a ∈ sig.alphabet, ∀ b ∈ sig.alphabet, ∀ tag,
      rowCount ts c (.tracked a b tag) = 1) ∧
    (∀ phase ∈ [Phase.stepLeft, .stepRight, .clamp], ∀ head c, Carrying sig phase head c →
      ∀ a ∈ sig.alphabet, ∀ b ∈ sig.alphabet, ∀ tag,
        rowCount ts c (.tracked a b tag) = if tag.has head then 0 else 1) ∧
    (∀ q ∈ sig.anchorStates, rowCount ts .rewinding (.anchor q) = 1 ∧
      ∀ head c, Carrying sig .stepLeft head c → rowCount ts c (.anchor q) = 1) ∧
    ∀ head c, Carrying sig .stepRight head c → rowCount ts c (.plain blank) = 1 := by
  intro sig
  have htracked : ∀ {a b : Letter}, a ∈ sig.alphabet → b ∈ sig.alphabet → ∀ tag,
      Cell.tracked a b tag ∈ sig.trackedCells :=
    fun ha hb tag => Signature.mem_trackedCells.mpr ⟨_, ha, _, hb, tag, rfl⟩
  refine ⟨fun row hrow => next_of_mem_reduce hrow, ?_, ?_, ?_, ?_⟩
  · intro c hc a ha b hb tag
    obtain ⟨s, rfl, hmeets⟩ := hc.exists_stage
    exact rowCount_of_meets (hmeets _ (htracked ha hb tag))
  · intro phase hphase head c hc a ha b hb tag
    obtain ⟨s, rfl, hmeets⟩ := hc.exists_stage hphase
    have hiff := hmeets _ (htracked ha hb tag)
    split
    · rename_i hhas
      refine rowCount_of_not_meets (.tracked a b tag) nofun fun hm => ?_
      exact absurd (hiff.mp hm) (Bool.not_eq_false _ ▸ hhas)
    · rename_i hlacks
      exact rowCount_of_meets (hiff.mpr (Bool.not_eq_true _ ▸ hlacks))
  · intro q hq
    have hanchor : Cell.anchor q ∈ sig.anchors := Signature.mem_anchors.mpr ⟨q, hq, rfl⟩
    refine ⟨rowCount_of_meets (s := .rewind) (.inr hanchor), fun head c hc => ?_⟩
    obtain ⟨rest, hrest, rfl⟩ := hc.exists_rest
    exact rowCount_of_meets (s := .stepLeft head rest) ⟨hrest, .inr hanchor⟩
  · intro head c hc
    obtain ⟨rest, hrest, rfl⟩ := hc.exists_rest
    exact rowCount_of_meets (s := .stepRight head rest) ⟨hrest, .inr rfl⟩

/-- A machine whose next state looks like the name of a control state. -/
def masked : List Transition :=
  [⟨startState, blank, blank, "(rewind)", "a", "b", .left, .right⟩]

theorem reduce_closed_and_exact_masked :
    rowCount masked (.locating 1 ["a"]) (.tracked "b" blank .both) = 1 ∧
    rowCount masked (.moving .clamp 2 ["a"] [.stay]) (.tracked "a" "b" .both) = 0 ∧
    rowCount masked (.moving .clamp 2 ["a"] [.stay]) (.tracked "a" "b" ⟨true, false⟩) = 1 ∧
    rowCount masked .rewinding (.anchor "(rewind)") = 1 := by
  obtain ⟨-, hsweeping, hcarrying, hanchor, -⟩ := reduce_closed_and_exact masked
  have hclamp := hcarrying .clamp (by decide) .two _ (.pending (s := "a") (by decide) .stay)
    "a" (by decide) "b" (by decide)
  refine ⟨?_, hclamp .both, hclamp ⟨true, false⟩, (hanchor "(rewind)" (by decide)).1⟩
  exact hsweeping _ (.locateOther .one (by decide)) "b" (by decide) blank (by decide) .both

end Multitrack
