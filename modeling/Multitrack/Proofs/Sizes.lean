import Mathlib.Data.Set.Card
import Mathlib.Tactic
import Multitrack.Proofs.RuleCounts
import Multitrack.Proofs.TableSoundness

/-! # The size of a reduction

A rule tells the part of the construction that it belongs to, so the parts have no rule in common,
and firing is the only part that can enter a rule twice. The rule book of a reduction is thus layout,
locate, the different rules that fire, and move, one after the other. Their numbers are polynomials
in the number of letters and states, but for the rules that fire: there is one for each class of
transitions that match the same and do the same. -/
namespace Multitrack

/-! ## Parts of the construction -/

namespace Rule

def part (r : Rule) : Request := (Stage.ofControl r.source).part

theorem part_eq {r : Rule} {s : Stage} (h : r.source = s.control) : r.part = s.part := by
  rw [part, h, Stage.ofControl_control]

variable {sig : Signature} {r : Rule}

theorem part_of_mem_layoutRules (hsig : sig.Proper) (h : r ∈ sig.layoutRules) : r.part = .layout := by
  obtain ⟨s, cell, hpart, -, rfl⟩ := (Stage.mem_layoutRules hsig).mp h
  rw [part_eq (s.source_rule cell), hpart]

theorem part_of_mem_locateRules (h : r ∈ sig.locateRules) : r.part = .locate := by
  obtain ⟨s, cell, hpart, -, rfl⟩ := Stage.mem_locateRules.mp h
  rw [part_eq (s.source_rule cell), hpart]

theorem part_of_mem_moveRules (h : r ∈ sig.moveRules) : r.part = .move := by
  obtain ⟨s, cell, hpart, -, rfl⟩ := Stage.mem_moveRules.mp h
  rw [part_eq (s.source_rule cell), hpart]

theorem part_of_fireRule? {t : Transition} (h : t.fireRule? = some r) : r.part = .locate :=
  part_eq (Transition.fireRule?_spec h).2.1

/-- A transition fires on an anchor, where no letters are looked for. -/
theorem fireRule?_ne_of_mem_locateRules {t : Transition} (h : r ∈ sig.locateRules) :
    t.fireRule? ≠ some r := by
  intro hfire
  obtain ⟨s, cell, hpart, hmeets, rfl⟩ := Stage.mem_locateRules.mp h
  have hread := (Transition.fireRule?_spec hfire).2.2
  rw [s.read_rule] at hread
  cases s with
  | scan k =>
    have hkind := Signature.kind_of_mem_trackedCells hmeets.2
    rw [hread] at hkind
    cases hkind
  | _ => cases hpart

end Rule

def fireRules (ts : List Transition) : List Rule := (ts.filterMap Transition.fireRule?).eraseDups

theorem mem_fireRules {ts : List Transition} {r : Rule} :
    r ∈ fireRules ts ↔ ∃ t ∈ ts, t.fireRule? = some r := by
  rw [fireRules, List.mem_eraseDups, List.mem_filterMap]

theorem nodup_fireRules (ts : List Transition) : (fireRules ts).Nodup :=
  nodup_eraseDups _

section Parts

variable {sig : Signature} (hsig : sig.Proper) (hdistinct : sig.Distinct)
include hsig hdistinct

theorem eraseDups_layoutRules : sig.layoutRules.eraseDups = sig.layoutRules :=
  eraseDups_of_nodup (Signature.nodup_layoutRules hsig hdistinct)

theorem eraseDups_layout_locate :
    (sig.layoutRules ++ sig.locateRules).eraseDups = sig.layoutRules ++ sig.locateRules := by
  have hdisjoint : sig.layoutRules.Disjoint sig.locateRules := by
    intro r hr hr'
    have := (Rule.part_of_mem_layoutRules hsig hr).symm.trans (Rule.part_of_mem_locateRules hr')
    cases this
  rw [eraseDups_append_of_disjoint hdisjoint, eraseDups_layoutRules hsig hdistinct,
    eraseDups_of_nodup (Signature.nodup_locateRules hsig hdistinct)]

theorem eraseDups_layout_locate_fire (ts : List Transition) :
    (sig.layoutRules ++ sig.locateRules ++ ts.filterMap Transition.fireRule?).eraseDups =
      sig.layoutRules ++ sig.locateRules ++ fireRules ts := by
  have hdisjoint : (sig.layoutRules ++ sig.locateRules).Disjoint
      (ts.filterMap Transition.fireRule?) := by
    intro r hr hr'
    obtain ⟨t, -, hfire⟩ := List.mem_filterMap.mp hr'
    rcases List.mem_append.mp hr with hr | hr
    · have := (Rule.part_of_mem_layoutRules hsig hr).symm.trans (Rule.part_of_fireRule? hfire)
      cases this
    · exact Rule.fireRule?_ne_of_mem_locateRules hr hfire
  rw [eraseDups_append_of_disjoint hdisjoint, eraseDups_layout_locate hsig hdistinct, fireRules]

theorem eraseDups_parts (ts : List Transition) :
    (sig.layoutRules ++ sig.locateRules ++ ts.filterMap Transition.fireRule?
        ++ sig.moveRules).eraseDups =
      sig.layoutRules ++ sig.locateRules ++ fireRules ts ++ sig.moveRules := by
  have hdisjoint : (sig.layoutRules ++ sig.locateRules
      ++ ts.filterMap Transition.fireRule?).Disjoint sig.moveRules := by
    intro r hr hr'
    have hmove := Rule.part_of_mem_moveRules hr'
    rcases List.mem_append.mp hr with hr | hr
    · rcases List.mem_append.mp hr with hr | hr
      · rw [Rule.part_of_mem_layoutRules hsig hr] at hmove
        cases hmove
      · rw [Rule.part_of_mem_locateRules hr] at hmove
        cases hmove
    · obtain ⟨t, -, hfire⟩ := List.mem_filterMap.mp hr
      rw [Rule.part_of_fireRule? hfire] at hmove
      cases hmove
  rw [eraseDups_append_of_disjoint hdisjoint, eraseDups_layout_locate_fire hsig hdistinct,
    eraseDups_of_nodup (Signature.nodup_moveRules hsig hdistinct)]

end Parts

/-- **The rules of a reduction, part by part.** Firing alone can repeat a rule. -/
theorem toList_rules_bookOf (ts : List Transition) : (bookOf ts).rules.toList =
    (Signature.ofTransitions ts).layoutRules ++ (Signature.ofTransitions ts).locateRules
      ++ fireRules ts ++ (Signature.ofTransitions ts).moveRules := by
  rw [toList_rules_bookOf_eq_eraseDups, enteredRules]
  exact eraseDups_parts (Signature.proper_ofTransitions ts) (Signature.distinct_ofTransitions ts) ts

/-! ## Statistics -/

theorem Transition.fireRule?_isNone (t : Transition) : t.fireRule?.isNone = isHalting t.state := by
  cases h : isHalting t.state with
  | true => rw [fireRule?, if_pos h, Option.isNone_none]
  | false =>
    obtain ⟨r, hr⟩ := fireRule?_isSome h
    rw [hr, Option.isNone_some]

/-- Every transition fires or is skipped. -/
theorem length_filterMap_fireRule? (ts : List Transition) :
    (ts.countP fun t => isHalting t.state) + (ts.filterMap Transition.fireRule?).length =
      ts.length := by
  have hfires : ∀ t : Transition, t.fireRule?.isSome = decide (¬ isHalting t.state = true) := by
    intro t
    rw [← t.fireRule?_isNone]
    cases t.fireRule? <;> rfl
  rw [List.length_filterMap_eq_countP, List.length_eq_countP_add_countP fun t => isHalting t.state]
  simp only [hfires]

/-- The statistics count the parts of the rule book. -/
theorem statistics_ofTransitions (ts : List Transition) :
    (Reduction.ofTransitions ts).statistics =
      { alphabetSize := (Signature.ofTransitions ts).alphabet.length
        stateCount := (Signature.ofTransitions ts).states.length
        layoutRules := (Signature.ofTransitions ts).layoutRules.length
        locateRules := (Signature.ofTransitions ts).locateRules.length
        fireRules := (fireRules ts).length
        moveRules := (Signature.ofTransitions ts).moveRules.length
        duplicates := (ts.filterMap Transition.fireRule?).length - (fireRules ts).length
        skipped := ts.countP fun t => isHalting t.state } := by
  have hsig := Signature.proper_ofTransitions ts
  have hdistinct := Signature.distinct_ofTransitions ts
  have hsize : ∀ rs : List Rule, (RuleBook.empty.insertAll rs).size = rs.eraseDups.length := by
    intro rs
    rw [← RuleBook.toList_rules_insertAll_empty, Array.length_toList]
    rfl
  have hduplicates : ∀ rs : List Rule,
      (RuleBook.empty.insertAll rs).duplicates = rs.length - rs.eraseDups.length := by
    intro rs
    have hcount := RuleBook.size_add_duplicates_insertAll .empty rs
    rw [hsize] at hcount
    have hempty : RuleBook.empty.size + RuleBook.empty.duplicates = 0 := rfl
    omega
  simp only [Reduction.ofTransitions, foldl_serve_fire]
  simp only [RuleBook.serve, Request.rules, ← RuleBook.insertAll_append, hsize, hduplicates,
    eraseDups_layoutRules hsig hdistinct, eraseDups_layout_locate hsig hdistinct,
    eraseDups_layout_locate_fire hsig hdistinct, eraseDups_parts hsig hdistinct, List.length_append,
    Transition.fireRule?_isNone]
  simp only [Nat.add_sub_cancel_left, Nat.add_sub_add_left, Nat.add_sub_add_right]

/-! ## Transitions that share a rule -/

namespace Transition

theorem SameEffect.symm {t u : Transition} (h : t.SameEffect u) : u.SameEffect t := by
  rcases h with ⟨hn, h1, h2, h3, h4⟩ | ⟨hhalt, hn⟩
  · exact .inl ⟨hn.symm, h1.symm, h2.symm, h3.symm, h4.symm⟩
  · exact .inr ⟨hn ▸ hhalt, hn.symm⟩

theorem SameEffect.trans {t u v : Transition} (h : t.SameEffect u) (h' : u.SameEffect v) :
    t.SameEffect v := by
  have hnext := h.next_eq.trans h'.next_eq
  rcases h with ⟨hn, h1, h2, h3, h4⟩ | ⟨hhalt, -⟩
  · rcases h' with ⟨-, h1', h2', h3', h4'⟩ | ⟨hhalt', -⟩
    · exact .inl ⟨hnext, h1.trans h1', h2.trans h2', h3.trans h3', h4.trans h4'⟩
    · exact .inr ⟨hn.symm ▸ hhalt', hnext⟩
  · exact .inr ⟨hhalt, hnext⟩

/-- Two transitions are alike when they match the same state and letters and do the same. -/
def alike : Setoid Transition where
  r t u := t.key = u.key ∧ t.SameEffect u
  iseqv :=
    { refl := fun _ => ⟨rfl, .inl ⟨rfl, rfl, rfl, rfl, rfl⟩⟩
      symm := fun h => ⟨h.1.symm, h.2.symm⟩
      trans := fun h h' => ⟨h.1.trans h'.1, h.2.trans h'.2⟩ }

theorem fireRule?_eq_of_alike {t u : Transition} (h : alike t u) : t.fireRule? = u.fireRule? := by
  obtain ⟨hkey, heffect⟩ := h
  cases hs : isHalting t.state with
  | false => exact (fireRule?_eq_iff hs hkey).mpr heffect
  | true =>
    have hu : isHalting u.state = true := by
      rw [← hs]
      exact congrArg isHalting (congrArg Key.state hkey).symm
    rw [fireRule?, if_pos hs, fireRule?, if_pos hu]

theorem alike_of_fireRule?_eq {t u : Transition} (hs : isHalting t.state = false)
    (h : t.fireRule? = u.fireRule?) : alike t u := by
  obtain ⟨r, hr⟩ := fireRule?_isSome hs
  have hkey := key_eq_of_fireRule? hr (h ▸ hr) rfl rfl
  exact ⟨hkey, (fireRule?_eq_iff hs hkey).mp h⟩

end Transition

/-- There are as many rules that fire as classes of transitions that can. -/
theorem length_fireRules (ts : List Transition) : (fireRules ts).length =
    (Quotient.mk Transition.alike '' {t | t ∈ ts ∧ isHalting t.state = false}).ncard := by
  let fire : Quotient Transition.alike → Option Rule :=
    Quotient.lift Transition.fireRule? fun _ _ h => Transition.fireRule?_eq_of_alike h
  have hinj : Set.InjOn fire
      (Quotient.mk Transition.alike '' {t | t ∈ ts ∧ isHalting t.state = false}) := by
    rintro _ ⟨t, ⟨-, hs⟩, rfl⟩ _ ⟨u, -, rfl⟩ h
    exact Quotient.sound (Transition.alike_of_fireRule?_eq hs h)
  have himage : fire '' (Quotient.mk Transition.alike '' {t | t ∈ ts ∧ isHalting t.state = false}) =
      some '' {r | r ∈ fireRules ts} := by
    ext o
    simp only [Set.mem_image, Set.mem_ofPred_eq, exists_exists_and_eq_and, mem_fireRules]
    constructor
    · rintro ⟨t, ⟨ht, hs⟩, rfl⟩
      obtain ⟨r, hr⟩ := Transition.fireRule?_isSome hs
      exact ⟨r, ⟨t, ht, hr⟩, hr.symm⟩
    · rintro ⟨r, ⟨t, ht, hr⟩, rfl⟩
      exact ⟨t, ⟨ht, (Transition.fireRule?_spec hr).1⟩, hr⟩
  calc (fireRules ts).length
      = (fireRules ts).toFinset.card := (List.toFinset_card_of_nodup (nodup_fireRules ts)).symm
    _ = {r | r ∈ fireRules ts}.ncard := by rw [← List.coe_toFinset, Set.ncard_coe_finset]
    _ = (some '' {r | r ∈ fireRules ts}).ncard :=
        (Set.ncard_image_of_injective _ (Option.some_injective _)).symm
    _ = _ := by rw [← himage, hinj.ncard_image]

/-! ## Rows -/

/-- Different rules of a reduction have different rows. -/
theorem row_injOn (ts : List Transition) :
    Set.InjOn (Signature.ofTransitions ts).guard.row {r | r ∈ enteredRules ts} := by
  intro r hr r' hr' h
  have hregular : ∀ {r : Rule}, r ∈ enteredRules ts → r.target.Regular := by
    intro r hr
    rcases (exists_target_of_mem hr).1 with ⟨s, hs, -⟩ | hs | hs <;> rw [hs]
    · exact s.control_regular
    · exact ⟨rfl, rfl, rfl⟩
    · exact ⟨rfl, rfl, rfl⟩
  obtain ⟨s, hs, hc⟩ := exists_stage_of_mem hr
  obtain ⟨s', hs', hc'⟩ := exists_stage_of_mem hr'
  have hw := (exists_target_of_mem hr).2
  have hw' := (exists_target_of_mem hr').2
  simp only [Guard.row, Row.mk.injEq] at h
  obtain ⟨hstate, hread, hnext, hwrite, hdir⟩ := h
  have hsource : r.source = r'.source := by
    rw [hs, hs'] at hstate ⊢
    rw [Stage.name_injective _ hstate]
  exact Rule.mk.injEq .. ▸ ⟨hsource, Guard.cell_injective _ hc hc' hread,
    Guard.control_injective _ (hregular hr) (hregular hr') hnext,
    Guard.cell_injective _ hw hw' hwrite, hdir⟩

theorem nodup_reduce (ts : List Transition) : (reduce ts).Nodup := by
  rw [reduce_eq_map, List.nodup_map_iff_inj_on (nodup_bookOf ts)]
  intro r hr r' hr' h
  exact row_injOn ts (mem_rules_bookOf.mp hr) (mem_rules_bookOf.mp hr') h

/-- **The exact size of a reduction**, where `g` letters and `a` states that do not halt occur. The
layout, the sweep for letters and the move have as many rows as these numbers say, and there is one
more row for each class of transitions that match the same state and letters and do the same, among
those whose state does not halt. Nothing else is produced, and nothing twice. -/
theorem size_reduce (ts : List Transition) :
    let g := (Signature.ofTransitions ts).alphabet.length
    let a := (Signature.ofTransitions ts).anchorStates.length
    let stats := (Reduction.ofTransitions ts).statistics
    stats.layoutRules = g * (g + 4) ∧
    stats.locateRules = 4 * g ^ 2 * (g + 1) ^ 2 ∧
    stats.moveRules = 36 * g ^ 4 + 60 * g ^ 3 + 16 * g ^ 2 + (6 * g + 2) * (a + 1) + a ∧
    stats.skipped = (ts.countP fun t => isHalting t.state) ∧
    stats.fireRules =
      (Quotient.mk Transition.alike '' {t | t ∈ ts ∧ isHalting t.state = false}).ncard ∧
    stats.skipped + stats.fireRules ≤ ts.length ∧
    stats.duplicates = ts.length - stats.skipped - stats.fireRules ∧
    (reduce ts).Nodup ∧
    (reduce ts).length =
      stats.layoutRules + stats.locateRules + stats.fireRules + stats.moveRules ∧
    (Table.ofRows (reduce ts)).size = (reduce ts).length := by
  intro g a stats
  have hsig := Signature.proper_ofTransitions ts
  have hstats : stats = _ := statistics_ofTransitions ts
  have hlive := length_filterMap_fireRule? ts
  have hle : (fireRules ts).length ≤ (ts.filterMap Transition.fireRule?).length :=
    ((nodup_fireRules ts).subperm fun r hr => List.mem_eraseDups.mp hr).length_le
  have hrows : (reduce ts).length =
      stats.layoutRules + stats.locateRules + stats.fireRules + stats.moveRules := by
    rw [reduce_eq_map, List.length_map, toList_rules_bookOf, hstats]
    simp only [List.length_append]
  simp only [hstats] at hrows ⊢
  exact ⟨Signature.length_layoutRules hsig, Signature.length_locateRules _,
    Signature.length_moveRules _, trivial, length_fireRules ts, by omega, by omega, nodup_reduce ts,
    hrows, by rw [Table.size, Table.ofRows]⟩

end Multitrack
