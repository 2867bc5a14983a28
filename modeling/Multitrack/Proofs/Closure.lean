import Mathlib.Tactic
import Multitrack.Proofs.Stages

/-! # The construction stays within its signature

A stage is over a signature when all that it remembers are letters of the alphabet, and a cell is over
it when it shows letters of the alphabet or a state of the machine. A rule for a stage and a cell that
it meets leads to a stage and writes a cell that are over the signature again. So the construction makes
up no letter and no state, whatever sweep it is in. -/
namespace Multitrack

variable {sig : Signature}

/-! ## Cells -/

/-- The cell shows letters and states of the machine only. -/
inductive Cell.Over (sig : Signature) : Cell → Prop
  | plain {s : Letter} (letter : s ∈ sig.alphabet) : Over sig (.plain s)
  | tracked {a b : Letter} (first : a ∈ sig.alphabet) (second : b ∈ sig.alphabet) (tag : HeadSet) :
      Over sig (.tracked a b tag)
  | anchor {q : StateName} (state : q ∈ sig.states) : Over sig (.anchor q)

namespace Signature

variable {cell : Cell}

theorem over_of_mem_trackedCells (h : cell ∈ sig.trackedCells) : cell.Over sig := by
  obtain ⟨a, ha, b, hb, tag, rfl⟩ := mem_trackedCells.mp h
  exact .tracked ha hb tag

theorem over_of_mem_anchors (h : cell ∈ sig.anchors) : cell.Over sig := by
  obtain ⟨q, hq, rfl⟩ := mem_anchors.mp h
  exact .anchor (mem_anchorStates.mp hq).1

theorem withTag_mem_trackedCells (h : cell ∈ sig.trackedCells) (tag : HeadSet) :
    cell.withTag tag ∈ sig.trackedCells := by
  obtain ⟨a, ha, b, hb, _, rfl⟩ := mem_trackedCells.mp h
  exact mem_trackedCells.mpr ⟨a, ha, b, hb, tag, rfl⟩

theorem withLetter_mem_trackedCells (h : cell ∈ sig.trackedCells) (head : Head) {s : Letter}
    (hs : s ∈ sig.alphabet) : cell.withLetter head s ∈ sig.trackedCells := by
  obtain ⟨a, ha, b, hb, tag, rfl⟩ := mem_trackedCells.mp h
  cases head with
  | one => exact mem_trackedCells.mpr ⟨s, hs, b, hb, tag, rfl⟩
  | two => exact mem_trackedCells.mpr ⟨a, ha, s, hs, tag, rfl⟩

theorem Proper.over_plain (hsig : sig.Proper) {s : Letter} (hs : s = blank ∨ s ∈ sig.nonBlank) :
    (Cell.plain s).Over sig := by
  rcases hs with rfl | hs
  · exact .plain hsig.blank_mem
  · exact .plain (hsig.mem_alphabet hs)

theorem Proper.over_packed (hsig : sig.Proper) {s : Letter} (hs : s ∈ sig.alphabet)
    (tag : HeadSet) : (Cell.tracked s blank tag).Over sig :=
  .tracked hs hsig.blank_mem tag

theorem Proper.over_sentinel (hsig : sig.Proper) : Cell.sentinel.Over sig :=
  .anchor hsig.start_mem

end Signature

/-- The guard keeps the cells of a signature apart. -/
theorem Cell.Over.covers (hsig : sig.Proper) {cell : Cell} (h : cell.Over sig) :
    sig.guard.Covers cell := by
  cases h with
  | plain letter => exact .plain (hsig.guarded _ letter)
  | tracked first second tag => exact .tracked _ _ tag
  | anchor state => exact .anchor _

/-! ## Stages -/

theorem Capture.Over.look {k : Capture} (hk : k.Over sig) {cell : Cell}
    (hcell : cell ∈ sig.trackedCells) : (k.look cell).Over sig := by
  obtain ⟨a, ha, b, hb, tag, rfl⟩ := Signature.mem_trackedCells.mp hcell
  obtain ⟨first, second⟩ := k
  obtain ⟨t1, t2⟩ := tag
  refine ⟨fun s hs => ?_, fun s hs => ?_⟩
  · cases first with
    | some s' => exact hk.1 s hs
    | none =>
      cases t1 with
      | true => exact Option.some.inj hs ▸ ha
      | false => cases hs
  · cases second with
    | some s' => exact hk.2 s hs
    | none =>
      cases t2 with
      | true => exact Option.some.inj hs ▸ hb
      | false => cases hs

namespace Stage

def Over (sig : Signature) : Stage → Prop
  | .carry held => held ∈ sig.nonBlank
  | .scan k => k.Over sig
  | .seek p => p.Over sig
  | .stepLeft _ rest | .stepRight _ rest | .clamp _ rest => ∀ a ∈ rest, a ∈ sig.actions
  | .start | .shiftBack | .pack | .packBack | .place | .rewind => True

theorem over_scan_empty : (scan .empty).Over sig :=
  ⟨nofun, nofun⟩

theorem over_resuming (head : Head) {rest : Option Action} (h : ∀ a ∈ rest, a ∈ sig.actions) :
    (resuming head rest).Over sig := by
  cases rest with
  | none => trivial
  | some action => exact h action rfl

variable {s : Stage} {cell : Cell}

theorem Meets.over (h : s.Meets sig cell) : s.Over sig := by
  cases s with
  | carry held | scan k | seek p | stepLeft head rest | stepRight head rest | clamp head rest =>
    exact h.1
  | _ => trivial

theorem Meets.over_cell (hsig : sig.Proper) (h : s.Meets sig cell) : cell.Over sig := by
  cases s with
  | start | pack =>
    obtain ⟨a, ha, rfl⟩ := h
    exact hsig.over_plain ha
  | carry held =>
    obtain ⟨-, a, ha, rfl⟩ := h
    exact hsig.over_plain ha
  | shiftBack =>
    obtain rfl | ⟨a, ha, rfl⟩ := h
    · exact hsig.over_sentinel
    · exact hsig.over_plain (.inr ha)
  | packBack =>
    obtain rfl | ⟨a, ha, rfl⟩ := h
    · exact hsig.over_sentinel
    · exact hsig.over_packed (hsig.mem_alphabet ha) .none
  | place =>
    obtain rfl | ⟨a, ha, rfl⟩ := h
    · exact hsig.over_plain (.inl rfl)
    · exact hsig.over_packed (hsig.mem_alphabet ha) .none
  | scan k | seek p => exact Signature.over_of_mem_trackedCells h.2
  | stepLeft head rest =>
    obtain ⟨-, ⟨hc, -⟩ | hc⟩ := h
    · exact Signature.over_of_mem_trackedCells hc
    · exact Signature.over_of_mem_anchors hc
  | stepRight head rest =>
    obtain ⟨-, ⟨hc, -⟩ | rfl⟩ := h
    · exact Signature.over_of_mem_trackedCells hc
    · exact hsig.over_plain (.inl rfl)
  | clamp head rest => exact Signature.over_of_mem_trackedCells h.2.1
  | rewind => exact h.elim Signature.over_of_mem_trackedCells Signature.over_of_mem_anchors

/-! ## Rules -/

/-- **A rule leads to a stage over the signature.** -/
theorem Meets.exists_target (hsig : sig.Proper) (h : s.Meets sig cell) :
    ∃ s' : Stage, (s.rule cell).target = s'.control ∧ s'.Over sig := by
  have hresume : ∀ (head : Head) {rest : Option Action}, (∀ a ∈ rest, a ∈ sig.actions) →
      ∃ s' : Stage, resume head rest = s'.control ∧ s'.Over sig :=
    fun head rest hrest =>
      ⟨resuming head rest, (control_resuming head rest).symm, over_resuming head hrest⟩
  cases s with
  | start =>
    obtain ⟨a, rfl | ha, rfl⟩ := h
    · exact ⟨.pack, by rw [rule, if_pos rfl], trivial⟩
    · exact ⟨.carry a, by rw [rule_start (hsig.ne_blank ha)], ha⟩
  | carry held =>
    obtain ⟨-, a, rfl | ha, rfl⟩ := h
    · exact ⟨.shiftBack, by rw [rule, if_pos rfl], trivial⟩
    · exact ⟨.carry a, by rw [rule_carry (hsig.ne_blank ha)], ha⟩
  | shiftBack =>
    simp only [rule]
    split
    · exact ⟨.pack, rfl, trivial⟩
    · exact ⟨.shiftBack, rfl, trivial⟩
  | pack =>
    simp only [rule]
    split
    · exact ⟨.packBack, rfl, trivial⟩
    · exact ⟨.pack, rfl, trivial⟩
  | packBack =>
    simp only [rule]
    split
    · exact ⟨.place, rfl, trivial⟩
    · exact ⟨.packBack, rfl, trivial⟩
  | place => exact ⟨.scan .empty, rfl, over_scan_empty⟩
  | scan k => exact ⟨.scan (k.look cell), rfl, h.1.look h.2⟩
  | seek p =>
    simp only [rule, Pending.rule]
    split
    · exact ⟨.seek p, rfl, h.1⟩
    · rename_i f hf
      obtain ⟨-, hrest⟩ := Pending.found?_over h.1 hf
      split
      · exact hresume f.head hrest
      · exact ⟨.stepLeft f.head f.rest, rfl, hrest⟩
      · exact ⟨.stepRight f.head f.rest, rfl, hrest⟩
  | stepLeft head rest =>
    simp only [rule]
    split
    · exact ⟨.clamp head rest, rfl, h.1⟩
    · exact hresume head h.1
  | stepRight head rest =>
    simp only [rule]
    split <;> exact hresume head h.1
  | clamp head rest => exact hresume head h.1
  | rewind =>
    simp only [rule]
    split
    · exact ⟨.scan .empty, rfl, over_scan_empty⟩
    · exact ⟨.rewind, rfl, trivial⟩

/-- **A rule writes a cell over the signature.** -/
theorem Meets.over_write (hsig : sig.Proper) (h : s.Meets sig cell) :
    (s.rule cell).write.Over sig := by
  have hcell := h.over_cell hsig
  -- a head is set down on a tracked cell, which stays one
  have hdrop : ∀ tag : HeadSet, cell ∈ sig.trackedCells → (cell.withTag tag).Over sig :=
    fun tag hc => Signature.over_of_mem_trackedCells (Signature.withTag_mem_trackedCells hc tag)
  cases s with
  | start =>
    simp only [rule]
    split <;> exact hsig.over_sentinel
  | carry held =>
    simp only [rule]
    split <;> exact hsig.over_plain (.inr h.1)
  | shiftBack | packBack | rewind =>
    simp only [rule]
    split <;> exact hcell
  | pack =>
    obtain ⟨a, rfl | ha, rfl⟩ := h
    · rw [rule, if_pos rfl]
      exact hcell
    · rw [rule_pack (hsig.ne_blank ha)]
      exact hsig.over_packed (hsig.mem_alphabet ha) .none
  | place =>
    obtain rfl | ⟨a, ha, rfl⟩ := h
    · exact hsig.over_packed hsig.blank_mem .both
    · exact hsig.over_packed (hsig.mem_alphabet ha) .both
  | scan k => exact hcell
  | seek p =>
    simp only [rule, Pending.rule]
    split
    · exact hcell
    · rename_i f hf
      obtain ⟨haction, -⟩ := Pending.found?_over h.1 hf
      have hwritten : cell.withLetter f.head f.action.letter ∈ sig.trackedCells :=
        Signature.withLetter_mem_trackedCells h.2 f.head (Signature.mem_actions.mp haction)
      have hlifted : ∀ tag : HeadSet,
          ((cell.withLetter f.head f.action.letter).withTag tag).Over sig := fun tag =>
        Signature.over_of_mem_trackedCells (Signature.withTag_mem_trackedCells hwritten tag)
      split
      · exact Signature.over_of_mem_trackedCells hwritten
      · exact hlifted _
      · exact hlifted _
  | stepLeft head rest =>
    obtain ⟨-, ⟨hc, -⟩ | hc⟩ := h
    · rw [rule_stepLeft (Signature.kind_of_mem_trackedCells hc)]
      exact hdrop _ hc
    · rw [rule_stepLeft_anchor (Signature.kind_of_mem_anchors hc)]
      exact hcell
  | stepRight head rest =>
    obtain ⟨-, ⟨hc, -⟩ | rfl⟩ := h
    · rw [rule_stepRight (Signature.kind_of_mem_trackedCells hc)]
      exact hdrop _ hc
    · exact hsig.over_packed hsig.blank_mem (.only head)
  | clamp head rest => exact hdrop _ h.2.1

end Stage

end Multitrack
