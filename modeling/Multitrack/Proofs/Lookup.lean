import Mathlib.Tactic
import Multitrack.Proofs.Books
import Multitrack.Proofs.Closure
import Multitrack.Reduction

/-! # Looking rows up

The rows of a reduction are searched by the names of a control state and a cell. Since names can be
read back, the search finds what a search among the rules finds: for a stage and a cell that it
meets, the stage's own rule; for two delivered letters on an anchor, the rule of the first
transition that matches them. -/
namespace Multitrack

/-! ## Signatures of listings -/

/-- The guard above some tokens is as deep as they ask for. -/
theorem Guard.depth_above_le_iff {tokens : List String} {n : Nat} :
    (Guard.above tokens).depth ≤ n + 1 ↔ ∀ s ∈ tokens, openParens s ≤ n := by
  have hfold : ∀ (ns : List Nat) (m : Nat), ns.foldl max m ≤ n ↔ m ≤ n ∧ ∀ k ∈ ns, k ≤ n := by
    intro ns
    induction ns with
    | nil => exact fun m => (and_iff_left nofun).symm
    | cons a rest ih =>
      intro m
      rw [List.foldl_cons, ih, Nat.max_le, List.forall_mem_cons, and_assoc]
  rw [above, Nat.succ_le_succ_iff, hfold, and_iff_right (Nat.zero_le n), List.forall_mem_map]

theorem Guard.openParens_lt_above {tokens : List String} {s : String} (h : s ∈ tokens) :
    openParens s < (Guard.above tokens).depth :=
  Nat.lt_succ_of_le (depth_above_le_iff.mp (Nat.le_refl _) s h)

namespace Signature

variable {ts : List Transition}

theorem mem_nonBlank {s : Letter} : s ∈ (ofTransitions ts).nonBlank ↔
    (∃ t ∈ ts, s ∈ t.letters) ∧ s ≠ blank := by
  simp [ofTransitions]

theorem mem_alphabet {s : Letter} : s ∈ (ofTransitions ts).alphabet ↔
    s = blank ∨ s ∈ (ofTransitions ts).nonBlank :=
  List.mem_cons

theorem mem_alphabet_of_letters {t : Transition} (ht : t ∈ ts) {s : Letter} (hs : s ∈ t.letters) :
    s ∈ (ofTransitions ts).alphabet := by
  by_cases hb : s = blank
  · exact mem_alphabet.mpr (.inl hb)
  · exact mem_alphabet.mpr (.inr (mem_nonBlank.mpr ⟨⟨t, ht, hs⟩, hb⟩))

theorem mem_states {q : StateName} : q ∈ (ofTransitions ts).states ↔
    q = startState ∨ ∃ t ∈ ts, q ∈ t.states := by
  simp [ofTransitions]

theorem proper_ofTransitions (ts : List Transition) : (ofTransitions ts).Proper where
  alphabet_eq := rfl
  blank_not_mem h := (mem_nonBlank.mp h).2 rfl
  start_mem := mem_states.mpr (.inl rfl)
  guarded := by
    intro s hs
    rcases mem_alphabet.mp hs with rfl | hs
    · exact Nat.lt_of_lt_of_le Nat.one_pos (ofTransitions ts).guard.positive
    · obtain ⟨⟨t, ht, hst⟩, -⟩ := mem_nonBlank.mp hs
      exact Guard.openParens_lt_above
        (List.mem_append_left _ (List.mem_flatMap.mpr ⟨t, ht, hst⟩))

end Signature

/-! ## The rules of a reduction -/

/-- The rules that a reduction enters, repetitions included. -/
def enteredRules (ts : List Transition) : List Rule :=
  let sig := Signature.ofTransitions ts
  sig.layoutRules ++ sig.locateRules ++ ts.filterMap Transition.fireRule? ++ sig.moveRules

def bookOf (ts : List Transition) : RuleBook := RuleBook.empty.insertAll (enteredRules ts)

/-- Firing the transitions one by one enters the rules of those that can fire. -/
theorem foldl_serve_fire (ts : List Transition) (b : RuleBook) (sig : Signature) :
    ts.foldl (fun book t => book.serve sig (.fire t)) b =
      b.insertAll (ts.filterMap Transition.fireRule?) := by
  induction ts generalizing b with
  | nil => rfl
  | cons t rest ih =>
    rw [List.foldl_cons, ih, List.filterMap_cons]
    cases h : t.fireRule? with
    | none => simp [RuleBook.serve, Request.rules, h, RuleBook.insertAll]
    | some r => simp [RuleBook.serve, Request.rules, h, RuleBook.insertAll]

theorem reduce_eq_map (ts : List Transition) :
    reduce ts = (bookOf ts).rules.toList.map (Signature.ofTransitions ts).guard.row := by
  simp only [reduce, Reduction.ofTransitions, foldl_serve_fire, bookOf, enteredRules]
  simp only [RuleBook.serve, Request.rules, RuleBook.insertAll_append]

theorem toList_rules_bookOf_eq_eraseDups (ts : List Transition) :
    (bookOf ts).rules.toList = (enteredRules ts).eraseDups :=
  RuleBook.toList_rules_insertAll_empty _

theorem mem_rules_bookOf {ts : List Transition} {r : Rule} :
    r ∈ (bookOf ts).rules.toList ↔ r ∈ enteredRules ts := by
  rw [toList_rules_bookOf_eq_eraseDups, List.mem_eraseDups]

theorem nodup_bookOf (ts : List Transition) : (bookOf ts).rules.toList.Nodup := by
  rw [toList_rules_bookOf_eq_eraseDups]
  exact nodup_eraseDups _

theorem find?_bookOf (ts : List Transition) (p : Rule → Bool) :
    (bookOf ts).rules.toList.find? p = (enteredRules ts).find? p := by
  rw [toList_rules_bookOf_eq_eraseDups, find?_eraseDups]

namespace Control

theorem halting?_eq_none {q : StateName} (h : isHalting q = false) : halting? q = none := by
  simp only [isHalting, Bool.or_eq_false_iff, beq_eq_false_iff_ne] at h
  rw [halting?, if_neg h.1, if_neg h.2]

/-- A halting control state has the name of the state that it stands for. -/
theorem halting?_eq_some {q : StateName} (h : isHalting q = true) :
    ∃ c, halting? q = some c ∧ ∀ g : Guard, g.control c = q := by
  simp only [isHalting, Bool.or_eq_true, beq_iff_eq] at h
  rcases h with rfl | rfl
  · exact ⟨bare .accept, rfl, fun _ => rfl⟩
  · exact ⟨bare .reject, rfl, fun _ => rfl⟩

theorem eq_of_halting? {q : StateName} {c : Control} (h : halting? q = some c) :
    c = bare .accept ∨ c = bare .reject := by
  unfold halting? at h
  split at h
  · exact .inl (Option.some.inj h).symm
  · split at h
    · exact .inr (Option.some.inj h).symm
    · cases h

theorem letters_of_halting? {q : StateName} {c : Control} (h : halting? q = some c) :
    c.letters = [] := by
  rcases eq_of_halting? h with rfl | rfl <;> rfl

end Control

namespace Transition

def seekStage (t : Transition) : Stage := .seek (.both ⟨t.write1, t.dir1⟩ ⟨t.write2, t.dir2⟩)

def fireStage (t : Transition) : Stage := .scan ⟨some t.read1, some t.read2⟩

theorem fireRule?_of_halting {t : Transition} (h : isHalting t.state = false) {halt : Control}
    (hn : Control.halting? t.next = some halt) :
    t.fireRule? = some ⟨t.fireStage.control, .anchor t.state, halt, .sentinel, .stay⟩ := by
  rw [fireRule?, if_neg (by rw [h]; nofun), hn]
  rfl

theorem fireRule?_of_not_halting {t : Transition} (h : isHalting t.state = false)
    (hn : isHalting t.next = false) : t.fireRule? =
      some ⟨t.fireStage.control, .anchor t.state, t.seekStage.control, .anchor t.next, .right⟩ := by
  rw [fireRule?, if_neg (by rw [h]; nofun), Control.halting?_eq_none hn]
  rfl

theorem fireRule?_isSome {t : Transition} (h : isHalting t.state = false) :
    ∃ r, t.fireRule? = some r := by
  cases hn : isHalting t.next with
  | false => exact ⟨_, fireRule?_of_not_halting h hn⟩
  | true =>
    obtain ⟨c, hc, -⟩ := Control.halting?_eq_some hn
    exact ⟨_, fireRule?_of_halting h hc⟩

theorem fireRule?_spec {t : Transition} {r : Rule} (h : t.fireRule? = some r) :
    isHalting t.state = false ∧ r.source = t.fireStage.control ∧ r.read = .anchor t.state := by
  cases hs : isHalting t.state with
  | true => rw [fireRule?, if_pos hs] at h; cases h
  | false =>
    refine ⟨rfl, ?_⟩
    cases hn : isHalting t.next with
    | false => rw [fireRule?_of_not_halting hs hn] at h; cases h; exact ⟨rfl, rfl⟩
    | true =>
      obtain ⟨c, hc, -⟩ := Control.halting?_eq_some hn
      rw [fireRule?_of_halting hs hc] at h; cases h; exact ⟨rfl, rfl⟩

/-- Rules for one control state and anchor fire transitions for one state and pair of letters. -/
theorem key_eq_of_fireRule? {t u : Transition} {r r' : Rule} (ht : t.fireRule? = some r)
    (hu : u.fireRule? = some r') (hs : r.source = r'.source) (hc : r.read = r'.read) :
    t.key = u.key := by
  obtain ⟨-, hts, htc⟩ := fireRule?_spec ht
  obtain ⟨-, hus, huc⟩ := fireRule?_spec hu
  rw [hts, hus] at hs
  rw [htc, huc] at hc
  have hstage := Stage.control_injective hs
  simp only [fireStage, Stage.scan.injEq, Capture.mk.injEq, Option.some.injEq] at hstage
  rw [key, hstage.1, hstage.2, show t.state = u.state from congrArg Cell.marker hc]
  rfl

theorem over_seekStage {ts : List Transition} {t : Transition} (ht : t ∈ ts) :
    t.seekStage.Over (.ofTransitions ts) :=
  ⟨Signature.mem_actions.mpr (Signature.mem_alphabet_of_letters ht (by simp [letters])),
    Signature.mem_actions.mpr (Signature.mem_alphabet_of_letters ht (by simp [letters]))⟩

end Transition

theorem mem_enteredRules {ts : List Transition} {r : Rule} : r ∈ enteredRules ts ↔
    (∃ s cell, Stage.Meets (.ofTransitions ts) s cell ∧ r = s.rule cell) ∨
      ∃ t ∈ ts, t.fireRule? = some r := by
  simp only [enteredRules, List.mem_append, List.mem_filterMap, Stage.mem_locateRules,
    Stage.mem_layoutRules (Signature.proper_ofTransitions ts), Stage.mem_moveRules]
  constructor
  · rintro (((⟨s, cell, -, h⟩ | ⟨s, cell, -, h⟩) | h) | ⟨s, cell, -, h⟩)
    · exact .inl ⟨s, cell, h⟩
    · exact .inl ⟨s, cell, h⟩
    · exact .inr h
    · exact .inl ⟨s, cell, h⟩
  · rintro (⟨s, cell, h⟩ | h)
    · cases hp : s.part with
      | layout => exact .inl (.inl (.inl ⟨s, cell, hp, h⟩))
      | locate => exact .inl (.inl (.inr ⟨s, cell, hp, h⟩))
      | move => exact .inr ⟨s, cell, hp, h⟩
      | fire t => cases s <;> cases hp
      | rule r => cases s <;> cases hp
    · exact .inl (.inr h)

namespace Stage

variable {sig : Signature}

/-- The guard keeps the cells apart that a stage can meet. -/
theorem Meets.covers (hsig : sig.Proper) {s : Stage} {cell : Cell} (h : s.Meets sig cell) :
    sig.guard.Covers cell :=
  (h.over_cell hsig).covers hsig

/-- Delivered letters meet no anchor outside of a fired transition. -/
theorem not_meets_anchor {a b : Letter} {q : StateName} :
    ¬ (scan ⟨some a, some b⟩).Meets sig (.anchor q) := by
  intro h
  cases Signature.kind_of_mem_trackedCells h.2

end Stage

/-! ## From rows to rules -/

/-- Every rule that is entered is for a stage and for a cell that the guard keeps apart. -/
theorem exists_stage_of_mem {ts : List Transition} {r : Rule} (h : r ∈ enteredRules ts) :
    ∃ s : Stage, r.source = s.control ∧ (Signature.ofTransitions ts).guard.Covers r.read := by
  rcases mem_enteredRules.mp h with ⟨s, cell, hm, rfl⟩ | ⟨t, -, ht⟩
  · refine ⟨s, s.source_rule cell, ?_⟩
    rw [s.read_rule cell]
    exact hm.covers (Signature.proper_ofTransitions ts)
  · obtain ⟨-, hs, hr⟩ := Transition.fireRule?_spec ht
    exact ⟨_, hs, hr ▸ .anchor t.state⟩

/-- Every rule that is entered leads to a stage over the signature or ends the run, and what it writes
is kept apart by the guard. -/
theorem exists_target_of_mem {ts : List Transition} {r : Rule} (h : r ∈ enteredRules ts) :
    ((∃ s : Stage, r.target = s.control ∧ s.Over (.ofTransitions ts)) ∨
      r.target = .bare .accept ∨ r.target = .bare .reject) ∧
    (Signature.ofTransitions ts).guard.Covers r.write := by
  have hsig := Signature.proper_ofTransitions ts
  rcases mem_enteredRules.mp h with ⟨s, cell, hm, rfl⟩ | ⟨t, ht, hfire⟩
  · exact ⟨.inl (hm.exists_target hsig), (hm.over_write hsig).covers hsig⟩
  · obtain ⟨hs, -⟩ := Transition.fireRule?_spec hfire
    cases hn : isHalting t.next with
    | false =>
      rw [Transition.fireRule?_of_not_halting hs hn] at hfire
      cases hfire
      exact ⟨.inl ⟨t.seekStage, rfl, Transition.over_seekStage ht⟩, .anchor _⟩
    | true =>
      obtain ⟨c, hc, -⟩ := Control.halting?_eq_some hn
      rw [Transition.fireRule?_of_halting hs hc] at hfire
      cases hfire
      exact ⟨.inr (Control.eq_of_halting? hc), .anchor _⟩

/-- A row is for the names of a stage and a cell exactly if its rule is for the stage and the cell. -/
theorem key_row_eq_iff {ts : List Transition} {r : Rule} (hr : r ∈ enteredRules ts) (s : Stage)
    {cell : Cell} (hcell : (Signature.ofTransitions ts).guard.Covers cell) :
    let g := (Signature.ofTransitions ts).guard
    (g.row r).key = ⟨g.control s.control, g.cell cell⟩ ↔ r.source = s.control ∧ r.read = cell := by
  intro g
  obtain ⟨s', hs', hc'⟩ := exists_stage_of_mem hr
  simp only [Guard.row, Row.key, Row.Key.mk.injEq]
  constructor
  · rintro ⟨h1, h2⟩
    rw [hs'] at h1 ⊢
    exact ⟨by rw [Stage.name_injective g h1], g.cell_injective hc' hcell h2⟩
  · rintro ⟨h1, h2⟩
    rw [h1, h2]
    exact ⟨rfl, rfl⟩

/-- A search among the rows by two names is a search among the rules. -/
theorem find?_reduce (ts : List Transition) (s : Stage) {cell : Cell}
    (hcell : (Signature.ofTransitions ts).guard.Covers cell) :
    let g := (Signature.ofTransitions ts).guard
    ((reduce ts).find? fun row => row.key = ⟨g.control s.control, g.cell cell⟩) =
      ((enteredRules ts).find? fun r => r.source = s.control ∧ r.read = cell).map g.row := by
  intro g
  rw [reduce_eq_map, List.find?_map, find?_bookOf]
  congr 1
  refine List.find?_congr fun r hr => ?_
  rw [Function.comp_apply]
  exact decide_eq_decide.mpr (key_row_eq_iff hr s hcell)

/-- Only its own rule is entered for a stage and a cell that it meets. -/
theorem eq_rule_of_mem {ts : List Transition} {s : Stage} {cell : Cell}
    (hm : s.Meets (.ofTransitions ts) cell) {r : Rule} (hr : r ∈ enteredRules ts)
    (hs : r.source = s.control) (hc : r.read = cell) : r = s.rule cell := by
  rcases mem_enteredRules.mp hr with ⟨s', cell', -, rfl⟩ | ⟨t, -, ht⟩
  · rw [Stage.source_rule] at hs
    rw [Stage.read_rule] at hc
    rw [Stage.control_injective hs, hc]
  · obtain ⟨-, hs', hr'⟩ := Transition.fireRule?_spec ht
    have hstage : t.fireStage = s := Stage.control_injective (hs'.symm.trans hs)
    rw [← hstage, ← hc, hr'] at hm
    exact absurd hm Stage.not_meets_anchor

theorem find?_of_meets {ts : List Transition} {s : Stage} {cell : Cell}
    (hm : s.Meets (.ofTransitions ts) cell) :
    ((enteredRules ts).find? fun r => r.source = s.control ∧ r.read = cell) =
      some (s.rule cell) := by
  cases hf : (enteredRules ts).find? fun r => r.source = s.control ∧ r.read = cell with
  | none =>
    have hmem : s.rule cell ∈ enteredRules ts := mem_enteredRules.mpr (.inl ⟨s, cell, hm, rfl⟩)
    have := List.find?_eq_none.mp hf _ hmem
    simp [Stage.source_rule, Stage.read_rule] at this
  | some r =>
    have hp := List.find?_some hf
    simp only [decide_eq_true_eq] at hp
    rw [eq_rule_of_mem hm (List.mem_of_find?_eq_some hf) hp.1 hp.2]

/-- On an anchor the delivered letters select the first transition that matches them. -/
theorem find?_fire (ts : List Transition) {q : StateName} (hq : isHalting q = false)
    (a b : Letter) :
    ((enteredRules ts).find? fun r =>
        r.source = (Stage.scan ⟨some a, some b⟩).control ∧ r.read = .anchor q) =
      (ts.find? fun t => t.key = ⟨q, a, b⟩).bind Transition.fireRule? := by
  have hgeneric : ∀ rs : List Rule,
      (∀ r ∈ rs, ∃ s cell, Stage.Meets (.ofTransitions ts) s cell ∧ r = s.rule cell) →
      (rs.find? fun r => r.source = (Stage.scan ⟨some a, some b⟩).control ∧ r.read = .anchor q) =
        none := by
    intro rs hrs
    refine List.find?_eq_none.mpr fun r hr => ?_
    obtain ⟨s, cell, hm, rfl⟩ := hrs r hr
    simp only [Stage.source_rule, Stage.read_rule, decide_eq_true_eq]
    rintro ⟨hs, rfl⟩
    rw [Stage.control_injective hs] at hm
    exact Stage.not_meets_anchor hm
  have hsig := Signature.proper_ofTransitions ts
  have hlayout := hgeneric (Signature.ofTransitions ts).layoutRules fun r hr => by
    obtain ⟨s, cell, -, h⟩ := (Stage.mem_layoutRules hsig).mp hr
    exact ⟨s, cell, h⟩
  have hlocate := hgeneric (Signature.ofTransitions ts).locateRules fun r hr => by
    obtain ⟨s, cell, -, h⟩ := Stage.mem_locateRules.mp hr
    exact ⟨s, cell, h⟩
  have hmove := hgeneric (Signature.ofTransitions ts).moveRules fun r hr => by
    obtain ⟨s, cell, -, h⟩ := Stage.mem_moveRules.mp hr
    exact ⟨s, cell, h⟩
  simp only [enteredRules, List.find?_append, hlayout, hlocate, hmove, Option.none_or,
    Option.or_none, List.find?_filterMap]
  congr 1
  refine List.find?_congr fun t ht => ?_
  -- a transition fires on the two letters and the anchor exactly when it matches them
  rw [Bool.eq_iff_iff, decide_eq_true_eq, Option.any_eq_true]
  constructor
  · rintro ⟨r, hr, hp⟩
    simp only [decide_eq_true_eq] at hp
    obtain ⟨-, hsource, hread⟩ := Transition.fireRule?_spec hr
    have hstage : t.fireStage = .scan ⟨some a, some b⟩ :=
      Stage.control_injective (hsource.symm.trans hp.1)
    have hanchor := hread.symm.trans hp.2
    simp only [Transition.fireStage, Stage.scan.injEq, Capture.mk.injEq, Option.some.injEq] at hstage
    rw [Transition.key, hstage.1, hstage.2, show t.state = q from congrArg Cell.marker hanchor]
  · intro hkey
    obtain ⟨rfl, rfl, rfl⟩ : t.state = q ∧ t.read1 = a ∧ t.read2 = b := by
      simpa [Transition.key] using hkey
    obtain ⟨r, hr⟩ := Transition.fireRule?_isSome hq
    obtain ⟨-, hsource, hread⟩ := Transition.fireRule?_spec hr
    exact ⟨r, hr, by simpa using ⟨hsource, hread⟩⟩

end Multitrack
