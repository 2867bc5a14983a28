import Mathlib.Data.List.Nodup
import Mathlib.Tactic
import Multitrack.Proofs.Signatures

/-! # Rules counted by stage

A stage has one rule for each cell that it meets, and a rule tells its stage and its cell. So a part
of the construction has as many different rules as there are pairs of a stage and a cell that it
meets. The construction goes over these pairs in loops of another shape. Its loops enter every rule,
and no more rules than there are pairs, so they enter none of them twice. -/
namespace Multitrack

/-! ## Lists of lists -/

section Blocks

variable {α β : Type} {l : List α} {f : α → List β}

theorem length_flatMap_of_forall {n : Nat} (h : ∀ a ∈ l, (f a).length = n) :
    (l.flatMap f).length = l.length * n := by
  rw [List.length_flatMap, List.map_congr_left h, List.map_const', List.sum_replicate, smul_eq_mul]

/-- Blocks without repetitions have none together if an element tells its block. -/
theorem nodup_flatMap_of_unique (hl : l.Nodup) (hf : ∀ a ∈ l, (f a).Nodup)
    (hunique : ∀ a b x, x ∈ f a → x ∈ f b → a = b) : (l.flatMap f).Nodup := by
  refine List.nodup_flatMap.mpr ⟨hf, hl.imp ?_⟩
  intro a b hne x ha hb
  exact hne (hunique a b x ha hb)

/-- A list that is no longer than a list of some of its members without repetitions has none either. -/
theorem nodup_of_length_le {l l' : List α} (hl : l.Nodup) (hsub : l ⊆ l') (hlen : l'.length ≤ l.length) :
    l'.Nodup :=
  ((hl.subperm hsub).perm_of_length_le hlen).nodup_iff.mp hl

end Blocks

namespace Signature

variable {sig : Signature}

/-! ## Cells and actions -/

theorem nodup_trackedCells (h : sig.Distinct) : sig.trackedCells.Nodup := by
  refine nodup_flatMap_of_unique h.alphabet (fun a _ => ?_) ?_
  · refine nodup_flatMap_of_unique h.alphabet (fun b _ => ?_) ?_
    · exact List.Nodup.map (fun t t' ht => congrArg Cell.tag ht) (by decide)
    · intro b b' cell hb hb'
      obtain ⟨t, -, rfl⟩ := List.mem_map.mp hb
      obtain ⟨t', -, he⟩ := List.mem_map.mp hb'
      exact (congrArg Cell.letter2 he).symm
  · intro a a' cell ha ha'
    simp only [List.mem_flatMap, List.mem_map] at ha ha'
    obtain ⟨b, -, t, -, rfl⟩ := ha
    obtain ⟨b', -, t', -, he⟩ := ha'
    exact (congrArg Cell.letter1 he).symm

theorem nodup_anchors (h : sig.Distinct) : sig.anchors.Nodup :=
  (h.states.filter _).map fun _ _ hq => congrArg Cell.marker hq

theorem nodup_actions (h : sig.Distinct) : sig.actions.Nodup := by
  refine nodup_flatMap_of_unique h.alphabet (fun s _ => ?_) ?_
  · exact List.Nodup.map (fun d d' hd => congrArg Action.dir hd) (by decide)
  · intro s s' action hs hs'
    obtain ⟨d, -, rfl⟩ := List.mem_map.mp hs
    obtain ⟨d', -, he⟩ := List.mem_map.mp hs'
    exact (congrArg Action.letter he).symm

theorem length_trackedCells (sig : Signature) :
    sig.trackedCells.length = 4 * sig.alphabet.length ^ 2 := by
  rw [trackedCells, length_flatMap_of_forall fun a _ => length_flatMap_of_forall fun b _ =>
    List.length_map _]
  simp only [HeadSet.all, List.length_cons, List.length_nil]
  ring

/-- Half of the tracked cells are without a given head. -/
theorem length_filter_trackedCells (sig : Signature) (head : Head) :
    (sig.trackedCells.filter fun cell => !cell.tag.has head).length =
      2 * sig.alphabet.length ^ 2 := by
  have htags : ∀ a b : Letter,
      ((HeadSet.all.map (Cell.tracked a b)).filter fun cell => !cell.tag.has head).length = 2 := by
    intro a b
    cases head <;> rfl
  rw [trackedCells, List.filter_flatMap, length_flatMap_of_forall fun a _ => by
    rw [List.filter_flatMap, length_flatMap_of_forall fun b _ => htags a b]]
  ring

theorem length_actions (sig : Signature) : sig.actions.length = 3 * sig.alphabet.length := by
  rw [actions, length_flatMap_of_forall fun s _ => List.length_map _, Nat.mul_comm]
  rfl

theorem length_anchors (sig : Signature) : sig.anchors.length = sig.anchorStates.length :=
  List.length_map _

end Signature

/-! ## Stages and their cells -/

namespace Stage

variable {sig : Signature}

def cells (sig : Signature) : Stage → List Cell
  | .start | .carry _ | .pack => sig.alphabet.map .plain
  | .shiftBack => .sentinel :: sig.nonBlank.map .plain
  | .packBack => .sentinel :: sig.nonBlank.map fun s => .tracked s blank .none
  | .place => .plain blank :: sig.nonBlank.map fun s => .tracked s blank .none
  | .scan _ | .seek _ => sig.trackedCells
  | .stepLeft head _ => (sig.trackedCells.filter fun cell => !cell.tag.has head) ++ sig.anchors
  | .stepRight head _ => .plain blank :: sig.trackedCells.filter fun cell => !cell.tag.has head
  | .clamp head _ => sig.trackedCells.filter fun cell => !cell.tag.has head
  | .rewind => sig.trackedCells ++ sig.anchors

theorem meets_iff (hsig : sig.Proper) {s : Stage} {cell : Cell} :
    s.Meets sig cell ↔ s.Over sig ∧ cell ∈ s.cells sig := by
  have hplain : (∃ a, (a = blank ∨ a ∈ sig.nonBlank) ∧ cell = .plain a) ↔
      cell ∈ sig.alphabet.map .plain := by
    simp only [hsig.alphabet_eq, List.mem_map, List.mem_cons, eq_comm]
  cases s with
  | start | pack => exact hplain.trans (and_iff_right trivial).symm
  | carry held => exact and_congr_right' hplain
  | shiftBack | packBack | place => simp [Meets, Over, cells, eq_comm]
  | scan k | seek p => exact Iff.rfl
  | stepLeft head rest => simp [Meets, Over, cells]
  | stepRight head rest => simp [Meets, Over, cells, or_comm]
  | clamp head rest => simp [Meets, Over, cells]
  | rewind => simp [Meets, Over, cells]

theorem nodup_cells (hsig : sig.Proper) (h : sig.Distinct) (s : Stage) : (s.cells sig).Nodup := by
  have hplain : ∀ {l : List Letter}, l.Nodup → (l.map Cell.plain).Nodup :=
    fun hl => hl.map fun _ _ he => congrArg Cell.letter1 he
  have hnonBlank : sig.nonBlank.Nodup := by
    have := h.alphabet
    rw [hsig.alphabet_eq] at this
    exact this.of_cons
  have hpacked : (sig.nonBlank.map fun s => Cell.tracked s blank .none).Nodup :=
    hnonBlank.map fun _ _ he => congrArg Cell.letter1 he
  have hlacking : ∀ head : Head, (sig.trackedCells.filter fun cell => !cell.tag.has head).Nodup :=
    fun head => (Signature.nodup_trackedCells h).filter _
  -- a tracked cell is neither an anchor nor a plain one
  have hkind : ∀ {cell : Cell}, cell ∈ sig.trackedCells → cell ∉ sig.anchors := by
    intro cell hc ha
    have := (Signature.kind_of_mem_trackedCells hc).symm.trans (Signature.kind_of_mem_anchors ha)
    cases this
  cases s with
  | start | carry held | pack => exact hplain h.alphabet
  | shiftBack => exact List.nodup_cons.mpr ⟨by simp [Cell.sentinel, Cell.anchor, Cell.plain],
      hplain hnonBlank⟩
  | packBack => exact List.nodup_cons.mpr ⟨by simp [Cell.sentinel, Cell.anchor, Cell.tracked],
      hpacked⟩
  | place => exact List.nodup_cons.mpr ⟨by simp [Cell.plain, Cell.tracked], hpacked⟩
  | scan k | seek p => exact Signature.nodup_trackedCells h
  | stepLeft head rest =>
    exact List.nodup_append'.mpr ⟨hlacking head, Signature.nodup_anchors h,
      fun cell hc ha => hkind (List.mem_filter.mp hc).1 ha⟩
  | stepRight head rest =>
    refine List.nodup_cons.mpr ⟨fun hc => ?_, hlacking head⟩
    cases Signature.kind_of_mem_trackedCells (List.mem_filter.mp hc).1
  | clamp head rest => exact hlacking head
  | rewind =>
    exact List.nodup_append'.mpr ⟨Signature.nodup_trackedCells h, Signature.nodup_anchors h,
      fun cell hc ha => hkind hc ha⟩

end Stage

namespace Signature

variable {sig : Signature}

/-- What a stage can remember of one head: nothing, or an action over the alphabet. -/
def rests (sig : Signature) : List (Option Action) := none :: sig.actions.map some

/-- What can have been collected of one head: nothing, or a letter. -/
def finds (sig : Signature) : List (Option Letter) := none :: sig.alphabet.map some

def stages (sig : Signature) : Request → List Stage
  | .layout => [.start, .shiftBack, .pack, .packBack, .place] ++ sig.nonBlank.map .carry
  | .locate => sig.finds.flatMap fun a => sig.finds.map fun b => .scan ⟨a, b⟩
  | .move =>
    (sig.actions.flatMap fun a => sig.actions.map fun b => .seek (.both a b))
      ++ (Head.all.flatMap fun head => sig.actions.map fun a => .seek (.only head a))
      ++ (Head.all.flatMap fun head => sig.rests.map fun rest => .stepLeft head rest)
      ++ (Head.all.flatMap fun head => sig.rests.map fun rest => .stepRight head rest)
      ++ (Head.all.flatMap fun head => sig.rests.map fun rest => .clamp head rest)
      ++ [.rewind]
  | .fire _ | .rule _ => []

theorem mem_rests {rest : Option Action} : rest ∈ sig.rests ↔ ∀ a ∈ rest, a ∈ sig.actions := by
  cases rest <;> simp [rests]

theorem mem_finds {found : Option Letter} : found ∈ sig.finds ↔ ∀ s ∈ found, s ∈ sig.alphabet := by
  cases found <;> simp [finds]

theorem mem_stages {part : Request} {s : Stage} :
    s ∈ sig.stages part ↔ s.part = part ∧ s.Over sig := by
  have hall : ∀ head : Head, head ∈ Head.all := by
    intro head
    cases head <;> decide
  cases part with
  | layout => cases s <;> simp [stages, Stage.part, Stage.Over]
  | locate =>
    cases s with
    | scan k =>
      obtain ⟨a, b⟩ := k
      simp [stages, Stage.part, Stage.Over, Capture.Over, mem_finds]
    | _ => simp [stages, Stage.part]
  | move =>
    cases s with
    | seek p => cases p <;> simp [stages, Stage.part, Stage.Over, Pending.Over, hall]
    | stepLeft | stepRight | clamp | rewind =>
      simp [stages, Stage.part, Stage.Over, mem_rests, hall]
    | _ => simp [stages, Stage.part]
  | fire t => cases s <;> simp [stages, Stage.part]
  | rule r => cases s <;> simp [stages, Stage.part]

theorem nodup_stages (hsig : sig.Proper) (h : sig.Distinct) (part : Request) :
    (sig.stages part).Nodup := by
  have hactions := nodup_actions h
  have hsome : ∀ {α : Type} {l : List α}, l.Nodup → (none :: l.map some).Nodup := fun hl =>
    List.nodup_cons.mpr ⟨by simp, hl.map (Option.some_injective _)⟩
  -- a family of stages that is indexed by two lists
  have hfamily : ∀ {α β : Type} {l : List α} {l' : List β} (f : α → β → Stage), l.Nodup → l'.Nodup →
      (∀ a a' b b', f a b = f a' b' → a = a' ∧ b = b') →
      (l.flatMap fun a => l'.map (f a)).Nodup := by
    intro α β l l' f hl hl' hinj
    refine nodup_flatMap_of_unique hl (fun a _ => ?_) ?_
    · exact hl'.map fun b b' he => (hinj a a b b' he).2
    · intro a a' s hs hs'
      obtain ⟨b, -, rfl⟩ := List.mem_map.mp hs
      obtain ⟨b', -, he⟩ := List.mem_map.mp hs'
      exact (hinj _ _ _ _ he).1.symm
  have hheads : Head.all.Nodup := by decide
  cases part with
  | layout =>
    have hnonBlank : sig.nonBlank.Nodup := by
      have := h.alphabet
      rw [hsig.alphabet_eq] at this
      exact this.of_cons
    refine List.nodup_append'.mpr ⟨by decide, hnonBlank.map fun _ _ he => ?_, by simp⟩
    exact Stage.carry.inj he
  | locate =>
    refine hfamily (fun a b => .scan ⟨a, b⟩) (hsome h.alphabet) (hsome h.alphabet) ?_
    simp
  | move =>
    have hboth := hfamily (fun a b => .seek (.both a b)) hactions hactions (by simp)
    have honly := hfamily (fun head a => .seek (.only head a)) hheads hactions (by simp)
    have hleft := hfamily Stage.stepLeft hheads (hsome hactions) (by simp)
    have hright := hfamily Stage.stepRight hheads (hsome hactions) (by simp)
    have hclamp := hfamily Stage.clamp hheads (hsome hactions) (by simp)
    simp only [stages, List.nodup_append', hboth, honly, rests, hleft, hright, hclamp,
      List.nodup_singleton, true_and, and_assoc]
    -- the families differ in the kind of their stages
    refine ⟨?_, ?_, ?_, ?_, ?_⟩
    all_goals
      intro s hs hs'
      cases s with
      | seek p => cases p <;> simp at hs hs'
      | _ => simp at hs hs'
  | fire t => exact List.nodup_nil
  | rule r => exact List.nodup_nil

def stageRules (sig : Signature) (part : Request) : List Rule :=
  (sig.stages part).flatMap fun s => (s.cells sig).map s.rule

theorem mem_stageRules (hsig : sig.Proper) {part : Request} {r : Rule} :
    r ∈ sig.stageRules part ↔ ∃ s cell, Stage.part s = part ∧ s.Meets sig cell ∧ r = s.rule cell := by
  simp only [stageRules, List.mem_flatMap, List.mem_map, mem_stages, Stage.meets_iff hsig]
  constructor
  · rintro ⟨s, ⟨hpart, hover⟩, cell, hcell, rfl⟩
    exact ⟨s, cell, hpart, ⟨hover, hcell⟩, rfl⟩
  · rintro ⟨s, cell, hpart, ⟨hover, hcell⟩, rfl⟩
    exact ⟨s, ⟨hpart, hover⟩, cell, hcell, rfl⟩

/-- A rule tells its stage and its cell. -/
theorem nodup_stageRules (hsig : sig.Proper) (h : sig.Distinct) (part : Request) :
    (sig.stageRules part).Nodup := by
  refine nodup_flatMap_of_unique (nodup_stages hsig h part) (fun s _ => ?_) ?_
  · refine (s.nodup_cells hsig h).map fun cell cell' he => ?_
    rw [← s.read_rule cell, he, s.read_rule]
  · intro s s' r hs hs'
    obtain ⟨cell, -, rfl⟩ := List.mem_map.mp hs
    obtain ⟨cell', -, he⟩ := List.mem_map.mp hs'
    have hsource := congrArg Rule.source he
    rw [s'.source_rule, s.source_rule] at hsource
    exact (Stage.control_injective hsource).symm

/-! ## Counts -/

theorem Proper.length_alphabet (hsig : sig.Proper) :
    sig.alphabet.length = sig.nonBlank.length + 1 := by
  rw [hsig.alphabet_eq, List.length_cons]

/-- Each stage of the layout meets as many cells as there are letters. -/
theorem length_stageRules_layout (hsig : sig.Proper) :
    (sig.stageRules .layout).length = sig.alphabet.length * (sig.alphabet.length + 4) := by
  have hcells : ∀ s ∈ sig.stages .layout, ((s.cells sig).map s.rule).length = sig.alphabet.length := by
    intro s hs
    have hpart := (mem_stages.mp hs).1
    cases s with
    | start | carry held | shiftBack | pack | packBack | place =>
      simp [Stage.cells, hsig.length_alphabet]
    | _ => cases hpart
  rw [stageRules, length_flatMap_of_forall hcells, stages, List.length_append, List.length_map,
    hsig.length_alphabet]
  simp only [List.length_cons, List.length_nil]
  ring

/-- Each stage of the sweep for letters meets every tracked cell. -/
theorem length_stageRules_locate (sig : Signature) : (sig.stageRules .locate).length =
    4 * sig.alphabet.length ^ 2 * (sig.alphabet.length + 1) ^ 2 := by
  have hcells : ∀ s ∈ sig.stages .locate,
      ((s.cells sig).map s.rule).length = 4 * sig.alphabet.length ^ 2 := by
    intro s hs
    have hpart := (mem_stages.mp hs).1
    cases s with
    | scan k => rw [List.length_map, Stage.cells, length_trackedCells]
    | _ => cases hpart
  rw [stageRules, length_flatMap_of_forall hcells, stages,
    length_flatMap_of_forall fun a _ => List.length_map _]
  simp only [finds, List.length_cons, List.length_map]
  ring

/-- A stage that looks for heads or rewinds meets every tracked cell, and one that carries a head
meets those without it. -/
theorem length_stageRules_move (sig : Signature) : (sig.stageRules .move).length =
    36 * sig.alphabet.length ^ 4 + 60 * sig.alphabet.length ^ 3 + 16 * sig.alphabet.length ^ 2 +
      (6 * sig.alphabet.length + 2) * (sig.anchorStates.length + 1) + sig.anchorStates.length := by
  simp only [stageRules, stages, Stage.cells, List.flatMap_append, List.flatMap_assoc,
    List.flatMap_map, List.flatMap_singleton, List.length_append, List.length_flatMap, List.length_map,
    List.length_cons, length_trackedCells, length_filter_trackedCells, length_anchors, length_actions,
    rests, Head.all, List.map_const', List.sum_replicate, smul_eq_mul, List.length_nil]
  ring

theorem length_layoutRules (hsig : sig.Proper) :
    sig.layoutRules.length = sig.alphabet.length * (sig.alphabet.length + 4) := by
  rw [layoutRules, shiftRules, packRules, hsig.length_alphabet]
  simp only [List.length_append, List.length_flatMap, List.length_map, List.map_const',
    List.sum_replicate, smul_eq_mul, List.length_cons, List.length_nil]
  ring

theorem length_locateRules (sig : Signature) : sig.locateRules.length =
    4 * sig.alphabet.length ^ 2 * (sig.alphabet.length + 1) ^ 2 := by
  rw [locateRules, captures]
  simp only [List.length_append, List.length_flatMap, List.length_map, length_trackedCells,
    List.map_const', List.sum_replicate, smul_eq_mul, List.length_cons, List.length_nil]
  ring

theorem length_dropRules (sig : Signature) (head : Head) (rest : Option Action) :
    (sig.dropRules head rest).length =
      6 * sig.alphabet.length ^ 2 + sig.anchorStates.length + 1 := by
  simp only [dropRules, List.length_append, List.length_flatMap, List.length_map, List.map_const',
    List.sum_replicate, smul_eq_mul, List.length_cons, List.length_nil, length_filter_trackedCells,
    length_anchors]
  ring

theorem length_moveRules (sig : Signature) : sig.moveRules.length =
    36 * sig.alphabet.length ^ 4 + 60 * sig.alphabet.length ^ 3 + 16 * sig.alphabet.length ^ 2 +
      (6 * sig.alphabet.length + 2) * (sig.anchorStates.length + 1) + sig.anchorStates.length := by
  simp only [moveRules, seekRules, rewindRules, List.length_append, List.length_flatMap,
    List.length_map, length_dropRules, length_trackedCells, length_anchors, length_actions,
    List.map_const', List.sum_replicate, smul_eq_mul, List.length_cons, List.length_nil, Head.all]
  ring

/-- **No loop of the construction enters a rule twice.** -/
theorem nodup_layoutRules (hsig : sig.Proper) (h : sig.Distinct) : sig.layoutRules.Nodup := by
  refine nodup_of_length_le (nodup_stageRules hsig h .layout) (fun r hr => ?_) ?_
  · exact (Stage.mem_layoutRules hsig).mpr ((mem_stageRules hsig).mp hr)
  · rw [length_layoutRules hsig, length_stageRules_layout hsig]

theorem nodup_locateRules (hsig : sig.Proper) (h : sig.Distinct) : sig.locateRules.Nodup := by
  refine nodup_of_length_le (nodup_stageRules hsig h .locate) (fun r hr => ?_) ?_
  · exact Stage.mem_locateRules.mpr ((mem_stageRules hsig).mp hr)
  · rw [length_locateRules, length_stageRules_locate]

theorem nodup_moveRules (hsig : sig.Proper) (h : sig.Distinct) : sig.moveRules.Nodup := by
  refine nodup_of_length_le (nodup_stageRules hsig h .move) (fun r hr => ?_) ?_
  · exact Stage.mem_moveRules.mpr ((mem_stageRules hsig).mp hr)
  · rw [length_moveRules, length_stageRules_move]

end Signature

end Multitrack
