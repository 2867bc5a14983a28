import Mathlib.Tactic
import Multitrack.Construction.Request
import Multitrack.Proofs.Naming

/-! # The construction as a function

A stage is what a control state of the emulation means. In a stage, the cell under the head decides
what happens; `Stage.rule` says what, and `Stage.Meets` says on which cells. The rules of layout,
locate and move are exactly these, so no two of them are for one control state and cell. Firing is
the only thing that a listing of transitions adds. -/
namespace Multitrack

/-- What the emulating machine is doing. -/
inductive Stage where
  | start
  | carry (held : Letter)
  | shiftBack
  | pack
  | packBack
  | place
  /-- Looks for letters, or brings both of them to the anchor. -/
  | scan (k : Capture)
  | seek (p : Pending)
  | stepLeft (head : Head) (rest : Option Action)
  | stepRight (head : Head) (rest : Option Action)
  | clamp (head : Head) (rest : Option Action)
  | rewind
deriving DecidableEq, Repr

namespace Stage

def control : Stage → Control
  | .start => .bare .init
  | .carry held => .carrying held
  | .shiftBack => .bare .shiftReturn
  | .pack => .bare .pack
  | .packBack => .bare .packReturn
  | .place => .bare .packHead
  | .scan k => k.control
  | .seek p => p.control
  | .stepLeft head rest => .withActions .stepLeft head.number rest.toList
  | .stepRight head rest => .withActions .stepRight head.number rest.toList
  | .clamp head rest => .withActions .clamp head.number rest.toList
  | .rewind => .rewinding

/-- The stage after a head has been dropped. -/
def resuming (head : Head) : Option Action → Stage
  | some action => .seek (.only head.other action)
  | none => .rewind

theorem control_resuming (head : Head) (rest : Option Action) :
    (resuming head rest).control = resume head rest := by
  cases rest <;> rfl

/-! ## Stages and control states -/

/-- The actions that a control state of the move remembers for one head. -/
def restOf : List Letter → List Dir → Option Action
  | [s], [d] => some ⟨s, d⟩
  | _, _ => none

def ofControl (c : Control) : Stage :=
  match c.phase with
  | .init | .accept | .reject => .start
  | .shiftCarry => .carry (c.letters.headD "")
  | .shiftReturn => .shiftBack
  | .pack => .pack
  | .packReturn => .packBack
  | .packHead => .place
  | .locate =>
    if c.heads = 0 then .scan .empty
    else if c.heads = 1 then .scan ⟨c.letters.head?, none⟩
    else .scan ⟨none, c.letters.head?⟩
  | .deliver => .scan ⟨c.letters.head?, c.letters.getLast?⟩
  | .seek =>
    match c.letters, c.dirs with
    | [s, t], [d, e] => .seek (.both ⟨s, d⟩ ⟨t, e⟩)
    | ls, ds => .seek (.only (.ofNumber c.heads) ⟨ls.headD "", ds.headD .stay⟩)
  | .stepLeft => .stepLeft (.ofNumber c.heads) (restOf c.letters c.dirs)
  | .stepRight => .stepRight (.ofNumber c.heads) (restOf c.letters c.dirs)
  | .clamp => .clamp (.ofNumber c.heads) (restOf c.letters c.dirs)
  | .rewind => .rewind

/-- A control state of the construction stands for one stage. -/
theorem ofControl_control (s : Stage) : ofControl s.control = s := by
  cases s with
  | scan k => obtain ⟨_ | _, _ | _⟩ := k <;> rfl
  | seek p =>
    cases p with
    | both first second => rfl
    | only head action => cases head <;> rfl
  | stepLeft head rest => cases head <;> cases rest <;> rfl
  | stepRight head rest => cases head <;> cases rest <;> rfl
  | clamp head rest => cases head <;> cases rest <;> rfl
  | _ => rfl

theorem control_injective {s s' : Stage} (h : s.control = s'.control) : s = s' := by
  rw [← ofControl_control s, h, ofControl_control]

theorem control_regular (s : Stage) : s.control.Regular := by
  cases s with
  | scan k => obtain ⟨_ | _, _ | _⟩ := k <;> simp [control, Capture.control, Control.Regular,
      Control.locating, Control.delivering]
  | seek p =>
    cases p with
    | both first second =>
      exact ⟨rfl, show 0 ≤ HeadSet.both.mask by decide, show HeadSet.both.mask ≤ 3 by decide⟩
    | only head action =>
      exact ⟨rfl, show 0 ≤ head.number by cases head <;> decide,
        show head.number ≤ 3 by cases head <;> decide⟩
  | stepLeft head rest => cases rest <;> rfl
  | stepRight head rest => cases rest <;> rfl
  | clamp head rest => cases rest <;> rfl
  | carry held => exact ⟨rfl, rfl⟩
  | _ => exact ⟨rfl, rfl, rfl⟩

/-- The name of a stage is its own. -/
theorem name_injective (g : Guard) {s s' : Stage} (h : g.control s.control = g.control s'.control) :
    s = s' :=
  control_injective (g.control_injective s.control_regular s'.control_regular h)

/-- No stage is over. -/
theorem name_not_halting (g : Guard) (s : Stage) : isHalting (g.control s.control) = false := by
  have hend : ∀ phase : Phase, phase = .accept ∨ phase = .reject →
      g.control s.control ≠ g.control (.bare phase) := by
    intro phase hp h
    have hr : (Control.bare phase).Regular := by
      rcases hp with rfl | rfl <;> exact ⟨rfl, rfl, rfl⟩
    have hs := congrArg ofControl (g.control_injective s.control_regular hr h)
    have hc := congrArg Control.phase (g.control_injective s.control_regular hr h)
    rw [ofControl_control] at hs
    rcases hp with rfl | rfl <;> rw [hs] at hc <;> cases hc
  simp only [isHalting, Bool.or_eq_false_iff, beq_eq_false_iff_ne]
  exact ⟨hend .accept (Or.inl rfl), hend .reject (Or.inr rfl)⟩

/-! ## What a stage does -/

/-- What happens in a stage on a cell that the stage can meet. -/
def rule (s : Stage) (cell : Cell) : Rule :=
  match s with
  | .start =>
    if cell = .plain blank then ⟨s.control, cell, pack.control, .sentinel, .right⟩
    else ⟨s.control, cell, (carry cell.letter1).control, .sentinel, .right⟩
  | .carry held =>
    if cell = .plain blank then ⟨s.control, cell, shiftBack.control, .plain held, .left⟩
    else ⟨s.control, cell, (carry cell.letter1).control, .plain held, .right⟩
  | .shiftBack =>
    if cell.kind = .anchor then ⟨s.control, cell, pack.control, cell, .right⟩
    else .pass s.control cell .left
  | .pack =>
    if cell = .plain blank then ⟨s.control, cell, packBack.control, cell, .left⟩
    else ⟨s.control, cell, s.control, .tracked cell.letter1 blank .none, .right⟩
  | .packBack =>
    if cell.kind = .anchor then ⟨s.control, cell, place.control, cell, .right⟩
    else .pass s.control cell .left
  | .place => ⟨s.control, cell, (scan .empty).control, .tracked cell.letter1 blank .both, .stay⟩
  | .scan k => k.rule cell
  | .seek p => p.rule cell
  | .stepLeft head rest =>
    if cell.kind = .anchor then ⟨s.control, cell, (clamp head rest).control, cell, .right⟩
    else ⟨s.control, cell, resume head rest, cell.withTag (cell.tag.insert head),
      if rest.isSome then .right else .left⟩
  | .stepRight head rest =>
    if cell.kind = .plain then
      ⟨s.control, cell, resume head rest, .tracked blank blank (.only head), .left⟩
    else ⟨s.control, cell, resume head rest, cell.withTag (cell.tag.insert head), .left⟩
  | .clamp head rest =>
    ⟨s.control, cell, resume head rest, cell.withTag (cell.tag.insert head),
      if rest.isSome then .stay else .left⟩
  | .rewind =>
    if cell.kind = .anchor then ⟨s.control, cell, (scan .empty).control, cell, .right⟩
    else .pass s.control cell .left

theorem source_rule (s : Stage) (cell : Cell) : (s.rule cell).source = s.control := by
  cases s with
  | scan k => rfl
  | seek p =>
    simp only [rule, Pending.rule]
    split
    · rfl
    · split <;> rfl
  | place | clamp => rfl
  | _ => simp only [rule]; split <;> rfl

theorem read_rule (s : Stage) (cell : Cell) : (s.rule cell).read = cell := by
  cases s with
  | scan k => rfl
  | seek p =>
    simp only [rule, Pending.rule]
    split
    · rfl
    · split <;> rfl
  | place | clamp => rfl
  | _ => simp only [rule]; split <;> rfl

theorem plain_ne_plain_blank {s : Letter} (h : s ≠ blank) : Cell.plain s ≠ .plain blank :=
  fun he => h (congrArg Cell.letter1 he)

theorem rule_start {s : Letter} (h : s ≠ blank) : start.rule (.plain s) =
    ⟨start.control, .plain s, (carry s).control, .sentinel, .right⟩ :=
  if_neg (plain_ne_plain_blank h)

theorem rule_carry {held s : Letter} (h : s ≠ blank) : (carry held).rule (.plain s) =
    ⟨(carry held).control, .plain s, (carry s).control, .plain held, .right⟩ :=
  if_neg (plain_ne_plain_blank h)

theorem rule_pack {s : Letter} (h : s ≠ blank) : pack.rule (.plain s) =
    ⟨pack.control, .plain s, pack.control, .tracked s blank .none, .right⟩ :=
  if_neg (plain_ne_plain_blank h)

section Landing

variable {head : Head} {rest : Option Action} {cell : Cell}

theorem rule_stepLeft (h : cell.kind = .tracked) : (stepLeft head rest).rule cell =
    ⟨(stepLeft head rest).control, cell, resume head rest, cell.withTag (cell.tag.insert head),
      if rest.isSome then .right else .left⟩ :=
  if_neg (by rw [h]; nofun)

theorem rule_stepLeft_anchor (h : cell.kind = .anchor) : (stepLeft head rest).rule cell =
    ⟨(stepLeft head rest).control, cell, (clamp head rest).control, cell, .right⟩ :=
  if_pos h

theorem rule_stepRight (h : cell.kind = .tracked) : (stepRight head rest).rule cell =
    ⟨(stepRight head rest).control, cell, resume head rest, cell.withTag (cell.tag.insert head),
      .left⟩ :=
  if_neg (by rw [h]; nofun)

theorem rule_rewind (h : cell.kind = .tracked) :
    rewind.rule cell = .pass rewind.control cell .left :=
  if_neg (by rw [h]; nofun)

theorem rule_rewind_anchor (h : cell.kind = .anchor) : rewind.rule cell =
    ⟨rewind.control, cell, (scan .empty).control, cell, .right⟩ :=
  if_pos h

end Landing

end Stage

/-! ## Cells and letters of a signature -/

namespace Signature

/-- What the construction relies on: the blank comes first and once, a run can begin, and the guard
stands above every letter. -/
structure Proper (sig : Signature) : Prop where
  alphabet_eq : sig.alphabet = blank :: sig.nonBlank
  blank_not_mem : blank ∉ sig.nonBlank
  start_mem : startState ∈ sig.states
  guarded : ∀ s ∈ sig.alphabet, openParens s < sig.guard.depth

variable {sig : Signature}

theorem Proper.blank_mem (h : sig.Proper) : blank ∈ sig.alphabet := by
  rw [h.alphabet_eq]
  exact List.mem_cons_self

theorem Proper.mem_alphabet (h : sig.Proper) {s : Letter} (hs : s ∈ sig.nonBlank) :
    s ∈ sig.alphabet := by
  rw [h.alphabet_eq]
  exact List.mem_cons_of_mem _ hs

theorem Proper.ne_blank (h : sig.Proper) {s : Letter} (hs : s ∈ sig.nonBlank) : s ≠ blank :=
  fun he => h.blank_not_mem (he ▸ hs)

theorem mem_trackedCells {cell : Cell} : cell ∈ sig.trackedCells ↔
    ∃ a ∈ sig.alphabet, ∃ b ∈ sig.alphabet, ∃ tag, cell = .tracked a b tag := by
  have hall : ∀ tag : HeadSet, tag ∈ HeadSet.all := by
    rintro ⟨_ | _, _ | _⟩ <;> decide
  simp only [trackedCells, List.mem_flatMap, List.mem_map]
  constructor
  · rintro ⟨a, ha, b, hb, tag, -, rfl⟩
    exact ⟨a, ha, b, hb, tag, rfl⟩
  · rintro ⟨a, ha, b, hb, tag, rfl⟩
    exact ⟨a, ha, b, hb, tag, hall tag, rfl⟩

theorem kind_of_mem_trackedCells {cell : Cell} (h : cell ∈ sig.trackedCells) :
    cell.kind = .tracked := by
  obtain ⟨a, -, b, -, tag, rfl⟩ := mem_trackedCells.mp h
  rfl

theorem mem_anchors {cell : Cell} : cell ∈ sig.anchors ↔ ∃ q ∈ sig.anchorStates, cell = .anchor q := by
  simp only [anchors, List.mem_map, eq_comm]

theorem kind_of_mem_anchors {cell : Cell} (h : cell ∈ sig.anchors) : cell.kind = .anchor := by
  obtain ⟨q, -, rfl⟩ := mem_anchors.mp h
  rfl

theorem mem_actions {a : Action} : a ∈ sig.actions ↔ a.letter ∈ sig.alphabet := by
  have hall : ∀ d : Dir, d ∈ Dir.all := by
    intro d
    cases d <;> decide
  simp only [actions, List.mem_flatMap, List.mem_map]
  constructor
  · rintro ⟨s, hs, d, -, rfl⟩
    exact hs
  · intro hs
    exact ⟨a.letter, hs, a.dir, hall _, rfl⟩

theorem mem_anchorStates {q : StateName} :
    q ∈ sig.anchorStates ↔ q ∈ sig.states ∧ isHalting q = false := by
  simp [anchorStates]

end Signature

def Capture.Over (sig : Signature) (k : Capture) : Prop :=
  (∀ s ∈ k.first, s ∈ sig.alphabet) ∧ ∀ s ∈ k.second, s ∈ sig.alphabet

def Pending.Over (sig : Signature) : Pending → Prop
  | .both first second => first ∈ sig.actions ∧ second ∈ sig.actions
  | .only _ action => action ∈ sig.actions

theorem Pending.found?_over {sig : Signature} {p : Pending} (hp : p.Over sig) {tag : HeadSet} {f : Found}
    (hf : p.found? tag = some f) : f.action ∈ sig.actions ∧ ∀ a ∈ f.rest, a ∈ sig.actions := by
  cases p with
  | both first second =>
    simp only [found?] at hf
    split at hf
    · cases hf
      exact ⟨hp.1, by rintro _ ⟨⟩; exact hp.2⟩
    · split at hf
      · cases hf
        exact ⟨hp.2, by rintro _ ⟨⟩; exact hp.1⟩
      · cases hf
  | only head action =>
    simp only [found?] at hf
    split at hf
    · cases hf
      exact ⟨hp, nofun⟩
    · cases hf

namespace Stage

def Meets (sig : Signature) : Stage → Cell → Prop
  | .start, cell => ∃ s, (s = blank ∨ s ∈ sig.nonBlank) ∧ cell = .plain s
  | .carry held, cell => held ∈ sig.nonBlank ∧ ∃ s, (s = blank ∨ s ∈ sig.nonBlank) ∧ cell = .plain s
  | .shiftBack, cell => cell = .sentinel ∨ ∃ s ∈ sig.nonBlank, cell = .plain s
  | .pack, cell => ∃ s, (s = blank ∨ s ∈ sig.nonBlank) ∧ cell = .plain s
  | .packBack, cell => cell = .sentinel ∨ ∃ s ∈ sig.nonBlank, cell = .tracked s blank .none
  | .place, cell => cell = .plain blank ∨ ∃ s ∈ sig.nonBlank, cell = .tracked s blank .none
  | .scan k, cell => k.Over sig ∧ cell ∈ sig.trackedCells
  | .seek p, cell => p.Over sig ∧ cell ∈ sig.trackedCells
  | .stepLeft head rest, cell => (∀ a ∈ rest, a ∈ sig.actions) ∧
      ((cell ∈ sig.trackedCells ∧ cell.tag.has head = false) ∨ cell ∈ sig.anchors)
  | .stepRight head rest, cell => (∀ a ∈ rest, a ∈ sig.actions) ∧
      ((cell ∈ sig.trackedCells ∧ cell.tag.has head = false) ∨ cell = .plain blank)
  | .clamp head rest, cell => (∀ a ∈ rest, a ∈ sig.actions) ∧
      cell ∈ sig.trackedCells ∧ cell.tag.has head = false
  | .rewind, cell => cell ∈ sig.trackedCells ∨ cell ∈ sig.anchors

def part : Stage → Request
  | .start | .carry _ | .shiftBack | .pack | .packBack | .place => .layout
  | .scan _ => .locate
  | .seek _ | .stepLeft _ _ | .stepRight _ _ | .clamp _ _ | .rewind => .move

/-- The rules of the layout are those of its stages. -/
theorem mem_layoutRules {sig : Signature} (hsig : sig.Proper) {r : Rule} :
    r ∈ sig.layoutRules ↔ ∃ s cell, part s = .layout ∧ s.Meets sig cell ∧ r = s.rule cell := by
  simp only [Signature.layoutRules, Signature.shiftRules, Signature.packRules, List.mem_append,
    List.mem_map, List.mem_flatMap, List.mem_cons, List.not_mem_nil, or_false]
  constructor
  · rintro (((((⟨s, hs, rfl⟩ | rfl) | ⟨held, hheld, ⟨s, hs, rfl⟩ | rfl⟩) | ⟨s, hs, rfl⟩) | rfl) |
      ⟨s, hs, rfl | rfl | rfl⟩ | rfl | rfl | rfl)
    · exact ⟨.start, .plain s, rfl, ⟨s, .inr hs, rfl⟩, (rule_start (hsig.ne_blank hs)).symm⟩
    · exact ⟨.start, .plain blank, rfl, ⟨blank, .inl rfl, rfl⟩, rfl⟩
    · exact ⟨.carry held, .plain s, rfl, ⟨hheld, s, .inr hs, rfl⟩,
        (rule_carry (hsig.ne_blank hs)).symm⟩
    · exact ⟨.carry held, .plain blank, rfl, ⟨hheld, blank, .inl rfl, rfl⟩, rfl⟩
    · exact ⟨.shiftBack, .plain s, rfl, .inr ⟨s, hs, rfl⟩, rfl⟩
    · exact ⟨.shiftBack, .sentinel, rfl, .inl rfl, rfl⟩
    · exact ⟨.pack, .plain s, rfl, ⟨s, .inr hs, rfl⟩, (rule_pack (hsig.ne_blank hs)).symm⟩
    · exact ⟨.packBack, .tracked s blank .none, rfl, .inr ⟨s, hs, rfl⟩, rfl⟩
    · exact ⟨.place, .tracked s blank .none, rfl, .inr ⟨s, hs, rfl⟩, rfl⟩
    · exact ⟨.pack, .plain blank, rfl, ⟨blank, .inl rfl, rfl⟩, rfl⟩
    · exact ⟨.packBack, .sentinel, rfl, .inl rfl, rfl⟩
    · exact ⟨.place, .plain blank, rfl, .inl rfl, rfl⟩
  · rintro ⟨stage, cell, hpart, hm, rfl⟩
    cases stage with
    | start =>
      obtain ⟨s, rfl | hs, rfl⟩ := hm
      · exact .inl (.inl (.inl (.inl (.inr rfl))))
      · exact .inl (.inl (.inl (.inl (.inl ⟨s, hs, (rule_start (hsig.ne_blank hs)).symm⟩))))
    | carry held =>
      obtain ⟨hheld, s, rfl | hs, rfl⟩ := hm
      · exact .inl (.inl (.inl (.inr ⟨held, hheld, .inr rfl⟩)))
      · exact .inl (.inl (.inl (.inr ⟨held, hheld, .inl ⟨s, hs,
          (rule_carry (hsig.ne_blank hs)).symm⟩⟩)))
    | shiftBack =>
      obtain rfl | ⟨s, hs, rfl⟩ := hm
      · exact .inl (.inr rfl)
      · exact .inl (.inl (.inr ⟨s, hs, rfl⟩))
    | pack =>
      obtain ⟨s, rfl | hs, rfl⟩ := hm
      · exact .inr (.inr (.inl rfl))
      · exact .inr (.inl ⟨s, hs, .inl (rule_pack (hsig.ne_blank hs))⟩)
    | packBack =>
      obtain rfl | ⟨s, hs, rfl⟩ := hm
      · exact .inr (.inr (.inr (.inl rfl)))
      · exact .inr (.inl ⟨s, hs, .inr (.inl rfl)⟩)
    | place =>
      obtain rfl | ⟨s, hs, rfl⟩ := hm
      · exact .inr (.inr (.inr (.inr rfl)))
      · exact .inr (.inl ⟨s, hs, .inr (.inr rfl)⟩)
    | _ => cases hpart

/-- The rules of the sweep for letters are those of its captures, full ones included. -/
theorem mem_locateRules {sig : Signature} {r : Rule} :
    r ∈ sig.locateRules ↔ ∃ s cell, part s = .locate ∧ s.Meets sig cell ∧ r = s.rule cell := by
  simp only [Signature.locateRules, Signature.captures, List.mem_append, List.mem_flatMap,
    List.mem_map, List.mem_cons, List.not_mem_nil, or_false]
  constructor
  · rintro (⟨k, rfl | ⟨s, hs, rfl | rfl⟩, cell, hcell, rfl⟩ | ⟨s, hs, t, ht, cell, hcell, rfl⟩)
    · exact ⟨.scan .empty, cell, rfl, ⟨⟨nofun, nofun⟩, hcell⟩, rfl⟩
    · refine ⟨.scan ⟨some s, none⟩, cell, rfl, ⟨⟨?_, nofun⟩, hcell⟩, rfl⟩
      rintro _ ⟨⟩
      exact hs
    · refine ⟨.scan ⟨none, some s⟩, cell, rfl, ⟨⟨nofun, ?_⟩, hcell⟩, rfl⟩
      rintro _ ⟨⟩
      exact hs
    · refine ⟨.scan ⟨some s, some t⟩, cell, rfl, ⟨⟨?_, ?_⟩, hcell⟩, rfl⟩
      · rintro _ ⟨⟩
        exact hs
      · rintro _ ⟨⟩
        exact ht
  · rintro ⟨stage, cell, hpart, hm, rfl⟩
    cases stage with
    | scan k =>
      obtain ⟨⟨hs, ht⟩, hcell⟩ := hm
      obtain ⟨_ | s, _ | t⟩ := k
      · exact .inl ⟨.empty, .inl rfl, cell, hcell, rfl⟩
      · exact .inl ⟨_, .inr ⟨t, ht t rfl, .inr rfl⟩, cell, hcell, rfl⟩
      · exact .inl ⟨_, .inr ⟨s, hs s rfl, .inl rfl⟩, cell, hcell, rfl⟩
      · exact .inr ⟨s, hs s rfl, t, ht t rfl, cell, hcell, rfl⟩
    | _ => cases hpart

/-- The rules that drop a head are those of the three stages in which it is lifted. -/
theorem mem_dropRules {sig : Signature} {head : Head} {rest : Option Action}
    (hrest : ∀ a ∈ rest, a ∈ sig.actions) {r : Rule} :
    r ∈ sig.dropRules head rest ↔
      ∃ s cell, (s = stepLeft head rest ∨ s = stepRight head rest ∨ s = clamp head rest) ∧
        s.Meets sig cell ∧ r = s.rule cell := by
  simp only [Signature.dropRules, List.mem_append, List.mem_flatMap, List.mem_map, List.mem_filter,
    List.mem_cons, List.not_mem_nil, or_false, Bool.not_eq_true']
  constructor
  · rintro ((⟨cell, ⟨hc, hh⟩, rfl | rfl | rfl⟩ | ⟨cell, hc, rfl⟩) | rfl)
    · exact ⟨stepLeft head rest, cell, .inl rfl, ⟨hrest, .inl ⟨hc, hh⟩⟩,
        (rule_stepLeft (Signature.kind_of_mem_trackedCells hc)).symm⟩
    · exact ⟨stepRight head rest, cell, .inr (.inl rfl), ⟨hrest, .inl ⟨hc, hh⟩⟩,
        (rule_stepRight (Signature.kind_of_mem_trackedCells hc)).symm⟩
    · exact ⟨clamp head rest, cell, .inr (.inr rfl), ⟨hrest, hc, hh⟩, rfl⟩
    · exact ⟨stepLeft head rest, cell, .inl rfl, ⟨hrest, .inr hc⟩,
        (rule_stepLeft_anchor (Signature.kind_of_mem_anchors hc)).symm⟩
    · exact ⟨stepRight head rest, .plain blank, .inr (.inl rfl), ⟨hrest, .inr rfl⟩, rfl⟩
  · rintro ⟨stage, cell, rfl | rfl | rfl, ⟨-, hm⟩, rfl⟩
    · obtain ⟨hc, hh⟩ | hc := hm
      · exact .inl (.inl ⟨cell, ⟨hc, hh⟩,
          .inl (rule_stepLeft (Signature.kind_of_mem_trackedCells hc))⟩)
      · exact .inl (.inr ⟨cell, hc,
          (rule_stepLeft_anchor (Signature.kind_of_mem_anchors hc)).symm⟩)
    · obtain ⟨hc, hh⟩ | rfl := hm
      · exact .inl (.inl ⟨cell, ⟨hc, hh⟩,
          .inr (.inl (rule_stepRight (Signature.kind_of_mem_trackedCells hc)))⟩)
      · exact .inr rfl
    · exact .inl (.inl ⟨cell, hm, .inr (.inr rfl)⟩)

theorem mem_rewindRules {sig : Signature} {r : Rule} :
    r ∈ sig.rewindRules ↔ ∃ cell, rewind.Meets sig cell ∧ r = rewind.rule cell := by
  simp only [Signature.rewindRules, List.mem_append, List.mem_map]
  constructor
  · rintro (⟨cell, hc, rfl⟩ | ⟨cell, hc, rfl⟩)
    · exact ⟨cell, .inl hc, (rule_rewind (Signature.kind_of_mem_trackedCells hc)).symm⟩
    · exact ⟨cell, .inr hc, (rule_rewind_anchor (Signature.kind_of_mem_anchors hc)).symm⟩
  · rintro ⟨cell, hc | hc, rfl⟩
    · exact .inl ⟨cell, hc, (rule_rewind (Signature.kind_of_mem_trackedCells hc)).symm⟩
    · exact .inr ⟨cell, hc, (rule_rewind_anchor (Signature.kind_of_mem_anchors hc)).symm⟩

/-- The rules of the move are those of its stages. -/
theorem mem_moveRules {sig : Signature} {r : Rule} :
    r ∈ sig.moveRules ↔ ∃ s cell, part s = .move ∧ s.Meets sig cell ∧ r = s.rule cell := by
  have hnone : ∀ a ∈ (none : Option Action), a ∈ sig.actions := nofun
  have hsome : ∀ {action : Action}, action ∈ sig.actions → ∀ a ∈ some action, a ∈ sig.actions := by
    rintro action h _ ⟨⟩
    exact h
  have hall : ∀ head : Head, head ∈ Head.all := by
    intro head
    cases head <;> decide
  simp only [Signature.moveRules, Signature.seekRules, List.mem_append, List.mem_flatMap,
    List.mem_map, mem_rewindRules]
  constructor
  · rintro ((⟨first, hf, second, hs, cell, hc, rfl⟩ |
      ⟨head, -, hr | ⟨action, ha, ⟨cell, hc, rfl⟩ | hr⟩⟩) | ⟨cell, hm, rfl⟩)
    · exact ⟨seek (.both first second), cell, rfl, ⟨⟨hf, hs⟩, hc⟩, rfl⟩
    · obtain ⟨s, cell, rfl | rfl | rfl, hm, rfl⟩ := (mem_dropRules hnone).mp hr
      all_goals exact ⟨_, cell, rfl, hm, rfl⟩
    · exact ⟨seek (.only head action), cell, rfl, ⟨ha, hc⟩, rfl⟩
    · obtain ⟨s, cell, rfl | rfl | rfl, hm, rfl⟩ := (mem_dropRules (hsome ha)).mp hr
      all_goals exact ⟨_, cell, rfl, hm, rfl⟩
    · exact ⟨rewind, cell, rfl, hm, rfl⟩
  · -- a lifted head without and with an action left for the other one
    have hdrop : ∀ {s : Stage} {head : Head} {rest : Option Action} {cell : Cell},
        (s = stepLeft head rest ∨ s = stepRight head rest ∨ s = clamp head rest) →
        (∀ a ∈ rest, a ∈ sig.actions) → s.Meets sig cell →
        ∃ h ∈ Head.all, s.rule cell ∈ sig.dropRules h none ∨ ∃ a ∈ sig.actions,
          (∃ c ∈ sig.trackedCells, (Pending.only h a).rule c = s.rule cell) ∨
            s.rule cell ∈ sig.dropRules h.other (some a) := by
      intro s head rest cell hs hrest hm
      cases rest with
      | none => exact ⟨head, hall _, .inl ((mem_dropRules hnone).mpr ⟨s, cell, hs, hm, rfl⟩)⟩
      | some action =>
        have ha := hrest action rfl
        refine ⟨head.other, hall _, .inr ⟨action, ha, .inr ?_⟩⟩
        rw [Head.other_other]
        exact (mem_dropRules (hsome ha)).mpr ⟨s, cell, hs, hm, rfl⟩
    rintro ⟨stage, cell, hpart, hm, rfl⟩
    cases stage with
    | seek p =>
      obtain ⟨hp, hc⟩ := hm
      cases p with
      | both first second => exact .inl (.inl ⟨first, hp.1, second, hp.2, cell, hc, rfl⟩)
      | only head action =>
        exact .inl (.inr ⟨head, hall _, .inr ⟨action, hp, .inl ⟨cell, hc, rfl⟩⟩⟩)
    | stepLeft head rest => exact .inl (.inr (hdrop (.inl rfl) hm.1 hm))
    | stepRight head rest => exact .inl (.inr (hdrop (.inr (.inl rfl)) hm.1 hm))
    | clamp head rest => exact .inl (.inr (hdrop (.inr (.inr rfl)) hm.1 hm))
    | rewind => exact .inr ⟨cell, hm, rfl⟩
    | _ => cases hpart

end Stage

end Multitrack
