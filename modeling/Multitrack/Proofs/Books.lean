import Mathlib.Tactic
import Multitrack.RuleBook

/-! # Rule books as sets in order

Entering rules adds those that are new, at the end and once. A rule book that began empty therefore
holds the list of all its entries without the repetitions, and a scan from the front finds in it
what it finds in that list. -/
namespace Multitrack

/-! ## Lists without their repetitions -/

section FirstOccurrences

variable {α β : Type} [DecidableEq α] [DecidableEq β]

/-- An element at the end of a list is kept exactly if it is new. -/
theorem eraseDups_concat (l : List α) (a : α) :
    (l ++ [a]).eraseDups = if a ∈ l then l.eraseDups else l.eraseDups ++ [a] := by
  rw [List.eraseDups_append, List.cons_removeAll]
  by_cases h : a ∈ l <;> simp [h, List.eraseDups_cons]

theorem nodup_eraseDups (l : List α) : l.eraseDups.Nodup := by
  induction l using List.reverseRecOn with
  | nil => exact List.nodup_nil
  | append_singleton l a ih =>
    rw [eraseDups_concat]
    split
    · exact ih
    · rename_i ha
      exact List.nodup_append'.mpr ⟨ih, List.nodup_singleton a,
        List.disjoint_singleton.mpr (mt List.mem_eraseDups.mp ha)⟩

theorem eraseDups_of_nodup {l : List α} (h : l.Nodup) : l.eraseDups = l := by
  induction l using List.reverseRecOn with
  | nil => rfl
  | append_singleton l a ih =>
    obtain ⟨hl, -, ha⟩ := List.nodup_append'.mp h
    rw [eraseDups_concat, if_neg (List.disjoint_singleton.mp ha), ih hl]

theorem eraseDups_append_of_disjoint {l l' : List α} (h : l.Disjoint l') :
    (l ++ l').eraseDups = l.eraseDups ++ l'.eraseDups := by
  have hself : l'.removeAll l = l' :=
    List.filter_eq_self.mpr fun a ha => by simpa using fun hl => h hl ha
  rw [List.eraseDups_append, hself]

theorem eraseDups_append_of_subset {l l' : List α} (h : l' ⊆ l) :
    (l ++ l').eraseDups = l.eraseDups := by
  have hnone : l'.removeAll l = [] :=
    List.filter_eq_nil_iff.mpr fun a ha => by simpa using h ha
  rw [List.eraseDups_append, hnone, List.eraseDups_nil, List.append_nil]

/-- Repetitions do not change what a scan from the front finds. -/
theorem find?_eraseDups (l : List α) (p : α → Bool) : l.eraseDups.find? p = l.find? p := by
  induction l using List.reverseRecOn with
  | nil => rfl
  | append_singleton l a ih =>
    rw [eraseDups_concat, List.find?_append, ← ih]
    split
    · rename_i ha
      cases hf : l.eraseDups.find? p with
      | some b => rfl
      | none =>
        have hpa := List.find?_eq_none.mp hf a (List.mem_eraseDups.mpr ha)
        simp [hpa]
    · rw [List.find?_append]

/-- What repetitions of an element are turned into are repetitions again. -/
theorem eraseDups_filterMap_eraseDups (f : α → Option β) (l : List α) :
    (l.eraseDups.filterMap f).eraseDups = (l.filterMap f).eraseDups := by
  induction l using List.reverseRecOn with
  | nil => rfl
  | append_singleton l a ih =>
    have hmem : ∀ b, b ∈ l.eraseDups.filterMap f ↔ b ∈ l.filterMap f := by
      intro b
      simp only [List.mem_filterMap, List.mem_eraseDups]
    rw [eraseDups_concat, List.filterMap_append]
    cases hf : f a with
    | none =>
      rw [List.filterMap_cons_none hf, List.filterMap_nil, List.append_nil, ← ih]
      split
      · rfl
      · rw [List.filterMap_append, List.filterMap_cons_none hf, List.filterMap_nil, List.append_nil]
    | some b =>
      rw [List.filterMap_cons_some hf, List.filterMap_nil, eraseDups_concat, ← ih]
      split
      · rename_i ha
        rw [if_pos (List.mem_filterMap.mpr ⟨a, ha, hf⟩)]
      · rw [List.filterMap_append, List.filterMap_cons_some hf, List.filterMap_nil,
          eraseDups_concat]
        simp only [hmem]

end FirstOccurrences

namespace RuleBook

/-! ## Entering rules -/

theorem toList_rules_insert (b : RuleBook) (r : Rule) :
    (b.insert r).rules.toList =
      if r ∈ b.rules.toList then b.rules.toList else b.rules.toList ++ [r] := by
  rw [rules_insert]
  by_cases h : r ∈ b.rules
  · rw [if_pos h, if_pos (Array.mem_toList_iff.mpr h)]
  · rw [if_neg h, if_neg (fun hm => h (Array.mem_toList_iff.mp hm)), Array.toList_push]

theorem insertAll_append (b : RuleBook) (rs rs' : List Rule) :
    b.insertAll (rs ++ rs') = (b.insertAll rs).insertAll rs' :=
  List.foldl_append

/-- **A rule book holds its entries without the repetitions**, in the order of first entry. -/
theorem toList_rules_insertAll_empty (rs : List Rule) :
    (empty.insertAll rs).rules.toList = rs.eraseDups := by
  induction rs using List.reverseRecOn with
  | nil => rfl
  | append_singleton rs r ih =>
    rw [insertAll_append, show (empty.insertAll rs).insertAll [r] = (empty.insertAll rs).insert r
      from rfl, toList_rules_insert, ih, eraseDups_concat]
    simp only [List.mem_eraseDups]

/-- Every entry is kept or counted as a repetition. -/
theorem size_add_duplicates_insertAll (b : RuleBook) (rs : List Rule) :
    (b.insertAll rs).size + (b.insertAll rs).duplicates = b.size + b.duplicates + rs.length := by
  induction rs generalizing b with
  | nil => rfl
  | cons r rest ih =>
    have hstep : (b.insert r).size + (b.insert r).duplicates = b.size + b.duplicates + 1 := by
      rw [insert]
      split
      · exact (Nat.add_assoc ..).symm
      · simp only [size, Array.size_push]
        exact Nat.add_right_comm ..
    rw [List.length_cons, Nat.add_comm rest.length, ← Nat.add_assoc, ← hstep]
    exact ih (b.insert r)

end RuleBook

end Multitrack
