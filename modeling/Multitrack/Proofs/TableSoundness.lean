import Mathlib.Data.List.Nodup
import Mathlib.Tactic
import Multitrack.Proofs.Conflicts
import Multitrack.Proofs.Lookup
import Multitrack.Proofs.SortedRows

/-! # Soundness of the produced table

A table has no fault exactly when no row leaves a halting state and no two rows have one key. The
rows of a reduction never leave a halting state, and the rules of its stages never share a key. So
the table has a fault only where two transitions fire on the same letters and anchor with different
effects. -/
namespace Multitrack

/-! ## Keys of the produced rows -/

/-- Two transitions do the same when they fire: they agree in everything but what they match, or
they end the run in one state. -/
def Transition.SameEffect (t u : Transition) : Prop :=
  (t.next = u.next ∧ t.write1 = u.write1 ∧ t.write2 = u.write2 ∧ t.dir1 = u.dir1 ∧ t.dir2 = u.dir2) ∨
    (isHalting t.next = true ∧ t.next = u.next)

instance (t u : Transition) : Decidable (t.SameEffect u) :=
  inferInstanceAs (Decidable (_ ∨ _))

theorem Transition.SameEffect.next_eq {t u : Transition} (h : t.SameEffect u) : t.next = u.next :=
  h.elim (·.1) (·.2)

/-- A rule that ends the run is never one that goes on to the moves. -/
theorem Transition.fireRule?_ne {t u : Transition} (ht : isHalting t.state = false)
    (hu : isHalting u.state = false) (hn : isHalting t.next = false) (hm : isHalting u.next = true) :
    t.fireRule? ≠ u.fireRule? := by
  obtain ⟨c, hc, -⟩ := Control.halting?_eq_some hm
  rw [fireRule?_of_not_halting ht hn, fireRule?_of_halting hu hc]
  intro h
  cases (Rule.mk.inj (Option.some.inj h)).2.2.2.2

/-- Transitions that match the same state and letters share their rule if and only if they do the
same. -/
theorem Transition.fireRule?_eq_iff {t u : Transition} (hs : isHalting t.state = false)
    (hkey : t.key = u.key) : t.fireRule? = u.fireRule? ↔ t.SameEffect u := by
  obtain ⟨hstate, h1, h2⟩ : t.state = u.state ∧ t.read1 = u.read1 ∧ t.read2 = u.read2 := by
    simpa [key] using hkey
  have hu : isHalting u.state = false := hstate ▸ hs
  have hstage : t.fireStage = u.fireStage := by rw [fireStage, h1, h2, fireStage]
  cases hn : isHalting t.next <;> cases hm : isHalting u.next
  · rw [fireRule?_of_not_halting hs hn, fireRule?_of_not_halting hu hm, hstage, hstate]
    simp only [Option.some.injEq, Rule.mk.injEq, true_and, and_true, SameEffect, hn]
    constructor
    · rintro ⟨hseek, hnext⟩
      have := Stage.control_injective hseek
      simp only [seekStage, Stage.seek.injEq, Pending.both.injEq, Action.mk.injEq] at this
      exact .inl ⟨congrArg Cell.marker hnext, this.1.1, this.2.1, this.1.2, this.2.2⟩
    · rintro (⟨hnext, hw1, hw2, hd1, hd2⟩ | ⟨h, -⟩)
      · rw [seekStage, hw1, hw2, hd1, hd2, hnext]
        exact ⟨rfl, rfl⟩
      · cases h
  · refine iff_of_false (fireRule?_ne hs hu hn hm) fun h => ?_
    rw [h.next_eq, hm] at hn
    cases hn
  · refine iff_of_false (fireRule?_ne hu hs hm hn).symm fun h => ?_
    rw [h.next_eq, hm] at hn
    cases hn
  · obtain ⟨c, hc, hcn⟩ := Control.halting?_eq_some hn
    obtain ⟨d, hd, hdn⟩ := Control.halting?_eq_some hm
    rw [fireRule?_of_halting hs hc, fireRule?_of_halting hu hd, hstage, hstate]
    simp only [Option.some.injEq, Rule.mk.injEq, true_and, and_true]
    constructor
    · rintro rfl
      have g : Guard := ⟨1, Nat.one_pos⟩
      exact .inr ⟨hn, (hcn g).symm.trans (hdn g)⟩
    · intro h
      rw [h.next_eq, hd] at hc
      exact (Option.some.inj hc).symm

/-- No produced row leaves a halting state. -/
theorem not_halting_of_mem_reduce {ts : List Transition} {row : Row} (h : row ∈ reduce ts) :
    isHalting row.state = false := by
  rw [reduce_eq_map] at h
  obtain ⟨r, hr, rfl⟩ := List.mem_map.mp h
  obtain ⟨s, hs, -⟩ := exists_stage_of_mem (mem_rules_bookOf.mp hr)
  simp only [Guard.row, hs]
  exact s.name_not_halting _

/-- Produced rows have keys of their own exactly when no two rules are for one control state and
cell. -/
theorem nodup_keys_reduce_iff (ts : List Transition) :
    ((reduce ts).map Row.key).Nodup ↔ ∀ r ∈ enteredRules ts, ∀ r' ∈ enteredRules ts,
      r.source = r'.source → r.read = r'.read → r = r' := by
  rw [reduce_eq_map, List.map_map, List.nodup_map_iff_inj_on (nodup_bookOf ts)]
  simp only [mem_rules_bookOf, Function.comp_apply, Guard.row, Row.key, Row.Key.mk.injEq]
  constructor
  · intro h r hr r' hr' hs hc
    exact h r hr r' hr' ⟨by rw [hs], by rw [hc]⟩
  · rintro h r hr r' hr' ⟨hs, hc⟩
    obtain ⟨s, hrs, hrc⟩ := exists_stage_of_mem hr
    obtain ⟨s', hrs', hrc'⟩ := exists_stage_of_mem hr'
    refine h r hr r' hr' ?_ (Guard.cell_injective _ hrc hrc' hc)
    rw [hrs, hrs'] at hs ⊢
    rw [Stage.name_injective _ hs]

/-- Rules for one control state and cell are equal unless they fire transitions of different effect.
-/
theorem eq_of_sameEffect {ts : List Transition}
    (heffect : ∀ t ∈ ts, ∀ u ∈ ts, t.key = u.key → isHalting t.state = false → t.SameEffect u)
    {r r' : Rule} (hr : r ∈ enteredRules ts) (hr' : r' ∈ enteredRules ts)
    (hs : r.source = r'.source) (hc : r.read = r'.read) : r = r' := by
  rcases mem_enteredRules.mp hr with ⟨s, cell, hm, rfl⟩ | ⟨t, ht, htr⟩
  · rw [Stage.source_rule] at hs
    rw [Stage.read_rule] at hc
    exact (eq_rule_of_mem hm hr' hs.symm hc.symm).symm
  · rcases mem_enteredRules.mp hr' with ⟨s, cell, hm, rfl⟩ | ⟨u, hu, hur⟩
    · rw [Stage.source_rule] at hs
      rw [Stage.read_rule] at hc
      exact eq_rule_of_mem hm hr hs hc
    · obtain ⟨hth, -⟩ := Transition.fireRule?_spec htr
      have hkey := Transition.key_eq_of_fireRule? htr hur hs hc
      have hfire := (Transition.fireRule?_eq_iff hth hkey).mpr (heffect t ht u hu hkey hth)
      rw [htr, hur] at hfire
      exact Option.some.inj hfire

/-- Keys stay apart exactly where transitions that fire together have one effect. -/
theorem nodup_keys_reduce_iff_sameEffect (ts : List Transition) :
    ((reduce ts).map Row.key).Nodup ↔
      ∀ t ∈ ts, ∀ u ∈ ts, t.key = u.key → isHalting t.state = false → t.SameEffect u := by
  rw [nodup_keys_reduce_iff]
  constructor
  · intro h t ht u hu hkey hth
    obtain ⟨hstate, h1, h2⟩ : t.state = u.state ∧ t.read1 = u.read1 ∧ t.read2 = u.read2 := by
      simpa [Transition.key] using hkey
    obtain ⟨r, hr⟩ := Transition.fireRule?_isSome hth
    obtain ⟨r', hr'⟩ := Transition.fireRule?_isSome (hstate ▸ hth)
    obtain ⟨-, hrs, hrc⟩ := Transition.fireRule?_spec hr
    obtain ⟨-, hrs', hrc'⟩ := Transition.fireRule?_spec hr'
    refine (Transition.fireRule?_eq_iff hth hkey).mp ?_
    rw [hr, hr', h r (mem_enteredRules.mpr (.inr ⟨t, ht, hr⟩)) r'
      (mem_enteredRules.mpr (.inr ⟨u, hu, hr'⟩))]
    · rw [hrs, hrs', Transition.fireStage, h1, h2, Transition.fireStage]
    · rw [hrc, hrc', hstate]
  · intro heffect r hr r' hr' hs hc
    exact eq_of_sameEffect heffect hr hr' hs hc

/-- A listing without a conflict gives a table without a fault. -/
theorem fault?_reduce_eq_none {ts : List Transition} (h : TwoTape.conflict? ts = none) :
    (Table.ofRows (reduce ts)).fault? = none := by
  rw [Table.fault?_ofRows_eq_none_iff, nodup_keys_reduce_iff_sameEffect]
  refine ⟨fun row hrow => not_halting_of_mem_reduce hrow, fun t ht u hu hkey _ => ?_⟩
  rw [TwoTape.eq_of_conflict?_eq_none h ht hu hkey]
  exact .inl ⟨rfl, rfl, rfl, rfl, rfl⟩

/-- **The reduction keeps determinism, and nothing less is needed.** The produced table has no fault
exactly when transitions that match the same state and letters, in a state that does not halt, have
one effect. A listing without a conflict therefore gives a table in which no two rows have one key
and no row leaves a halting state, whatever its tokens are. -/
theorem fault?_reduce_iff (ts : List Transition) :
    ((Table.ofRows (reduce ts)).fault? = none ↔
      ∀ t ∈ ts, ∀ u ∈ ts, t.key = u.key → isHalting t.state = false → t.SameEffect u) ∧
    (TwoTape.conflict? ts = none → (Table.ofRows (reduce ts)).fault? = none ∧
      ((reduce ts).map Row.key).Nodup ∧ ∀ row ∈ reduce ts, isHalting row.state = false) := by
  have hhalt : ∀ row ∈ reduce ts, isHalting row.state = false :=
    fun row hrow => not_halting_of_mem_reduce hrow
  have hfault : (Table.ofRows (reduce ts)).fault? = none ↔ ((reduce ts).map Row.key).Nodup := by
    rw [Table.fault?_ofRows_eq_none_iff, and_iff_right hhalt]
  refine ⟨hfault.trans (nodup_keys_reduce_iff_sameEffect ts), fun hconf => ?_⟩
  have hnodup : ((reduce ts).map Row.key).Nodup := by
    refine (nodup_keys_reduce_iff_sameEffect ts).mpr fun t ht u hu hkey _ => ?_
    rw [TwoTape.eq_of_conflict?_eq_none hconf ht hu hkey]
    exact .inl ⟨rfl, rfl, rfl, rfl, rfl⟩
  exact ⟨hfault.mpr hnodup, hnodup, hhalt⟩

end Multitrack
