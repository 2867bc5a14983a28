import Mathlib.Tactic
import Multitrack.TwoTape.Determinism

/-! # What the check of a listing reports

A place of a listing clashes if an earlier one holds a different transition for the same state and
letters. The check goes through the places in order and compares each transition with the first one
for its state and letters, and with no other. That is enough: as long as no place has clashed, all
transitions for one state and letters are equal to the first of them. So the check passes exactly when
no two transitions are rivals, and otherwise reports the first place that clashes. -/
namespace Multitrack

/-! ## Searching by place -/

section Places

variable {α β κ : Type} {items : List α} {n : Nat}

theorem mem_zipIdx_place (items : List α) (n : Nat) (i : Fin items.length) :
    (items[i], n + i.val) ∈ items.zipIdx n := by
  refine List.mem_iff_getElem.mpr ⟨i, by simp, ?_⟩
  simp

/-- A search among numbered items finds the first place with a key. -/
theorem exists_place_of_find? [DecidableEq κ] (key : α → κ) {k : κ} {a : α} {p : Nat}
    (h : (items.zipIdx n).find? (fun x => key x.1 = k) = some (a, p)) :
    ∃ i : Fin items.length, items[i] = a ∧ n + i.val = p ∧ key items[i] = k ∧
      ∀ l < i, key items[l] ≠ k := by
  obtain ⟨hk, i, hi, hx, hfirst⟩ := List.find?_eq_some_iff_getElem.mp h
  rw [List.getElem_zipIdx, Prod.mk.injEq] at hx
  obtain ⟨rfl, rfl⟩ := hx
  rw [List.length_zipIdx] at hi
  refine ⟨⟨i, hi⟩, rfl, rfl, of_decide_eq_true hk, fun l hl => ?_⟩
  have hl' := hfirst l hl
  simpa [List.getElem_zipIdx] using hl'

/-- The first answer of a scan of numbered items is given at a place before which there is none. -/
theorem exists_place_of_findSome? {f : α × Nat → Option β} {b : β}
    (h : (items.zipIdx n).findSome? f = some b) :
    ∃ j : Fin items.length, f (items[j], n + j.val) = some b ∧
      ∀ l < j, f (items[l], n + l.val) = none := by
  obtain ⟨l₁, x, l₂, hsplit, hx, hbefore⟩ := List.findSome?_eq_some_iff.mp h
  obtain ⟨before, rest, rfl, rfl, hrest⟩ := List.zipIdx_eq_append_iff.mp hsplit
  obtain ⟨a, after, rfl, rfl, -⟩ := List.zipIdx_eq_cons_iff.mp hrest.symm
  refine ⟨⟨before.length, by simp⟩, by simpa using hx, fun l hl => ?_⟩
  have hget : (before ++ a :: after)[l] = before[(⟨l, hl⟩ : Fin before.length)] :=
    List.getElem_append_left hl
  rw [hget]
  exact hbefore _ (mem_zipIdx_place before n ⟨l, hl⟩)

end Places

namespace TwoTape

variable {ts : List Transition}

/-! ## Places that clash -/

/-- The transition at the place differs from an earlier one for the same state and letters. -/
def Clashes (ts : List Transition) (j : Fin ts.length) : Prop :=
  ∃ i < j, ts[i].key = ts[j].key ∧ ts[i] ≠ ts[j]

/-- Of all places with a transition for the state and letters of the one at `j`, `i` is the first. -/
structure IsFirst (ts : List Transition) (i j : Fin ts.length) : Prop where
  key_eq : ts[i].key = ts[j].key
  le : ∀ l, ts[l].key = ts[j].key → i ≤ l

/-- The conflict that there is to report: the first place that clashes, together with the first place
for its state and letters, counted from one. -/
inductive Blames (ts : List Transition) : Conflict → Prop
  | pair {i j : Fin ts.length} (clashes : Clashes ts j) (least : ∀ l < j, ¬ Clashes ts l)
      (first : IsFirst ts i j) (differ : ts[i] ≠ ts[j]) : Blames ts ⟨i + 1, j + 1, ts[j].key⟩

theorem IsFirst.unique {i i' j : Fin ts.length} (h : IsFirst ts i j) (h' : IsFirst ts i' j) :
    i = i' :=
  le_antisymm (h.le i' h'.key_eq) (h'.le i h.key_eq)

theorem IsFirst.of_key_eq {i j l : Fin ts.length} (h : IsFirst ts i j)
    (hkey : ts[j].key = ts[l].key) : IsFirst ts i l :=
  ⟨h.key_eq.trans hkey, fun k hk => h.le k (hk.trans hkey.symm)⟩

theorem Blames.unique {c c' : Conflict} (h : Blames ts c) (h' : Blames ts c') : c = c' := by
  obtain ⟨clashes, least, first, -⟩ := h
  obtain ⟨clashes', least', first', -⟩ := h'
  obtain rfl := le_antisymm (not_lt.mp fun hlt => least' _ hlt clashes)
    (not_lt.mp fun hlt => least _ hlt clashes')
  rw [first.unique first']

/-- The index of first transitions holds, for every place, the first one for its state and letters. -/
theorem exists_first (ts : List Transition) (j : Fin ts.length) :
    ∃ i, IsFirst ts i j ∧
      (firstByKey (fun x : Transition × Nat => x.1.key) (ts.zipIdx 1))[ts[j].key]? =
        some (ts[i], 1 + i.val) := by
  rw [getElem?_firstByKey]
  cases hfind : (ts.zipIdx 1).find? fun x => x.1.key = ts[j].key with
  | none =>
    have hj := List.find?_eq_none.mp hfind _ (mem_zipIdx_place ts 1 j)
    simp at hj
  | some x =>
    obtain ⟨i, hi, hplace, hkey, hfirst⟩ := exists_place_of_find? Transition.key hfind
    refine ⟨i, ⟨hkey, fun l hl => not_lt.mp fun hlt => hfirst l hlt hl⟩, ?_⟩
    rw [hi, hplace]

/-- Where transitions are equal to the first one for their state and letters, no two are rivals. -/
theorem not_clashes_of_eq_first {j : Fin ts.length}
    (h : ∀ l ≤ j, ∀ i, IsFirst ts i l → ts[i] = ts[l]) : ¬ Clashes ts j := by
  rintro ⟨k, hkj, hkey, hne⟩
  obtain ⟨i, hi, -⟩ := exists_first ts j
  exact hne ((h k hkj.le i (hi.of_key_eq hkey.symm)).symm.trans (h j le_rfl i hi))

/-- Without a clash transitions for one state and letters are equal. -/
theorem eq_of_not_clashes (h : ∀ j, ¬ Clashes ts j) {t u : Transition} (ht : t ∈ ts) (hu : u ∈ ts)
    (hkey : t.key = u.key) : t = u := by
  obtain ⟨i, hi, rfl⟩ := List.getElem_of_mem ht
  obtain ⟨j, hj, rfl⟩ := List.getElem_of_mem hu
  by_contra hne
  rcases Nat.lt_trichotomy i j with hij | rfl | hij
  · exact h ⟨j, hj⟩ ⟨⟨i, hi⟩, hij, hkey, hne⟩
  · exact hne rfl
  · exact h ⟨i, hi⟩ ⟨⟨j, hj⟩, hij, hkey.symm, Ne.symm hne⟩

/-! ## The check -/

def reportOn (ts : List Transition) (x : Transition × Nat) : Option Conflict :=
  match (firstByKey (fun y : Transition × Nat => y.1.key) (ts.zipIdx 1))[x.1.key]? with
  | some (u, i) => if u = x.1 then none else some ⟨i, x.2, x.1.key⟩
  | none => none

theorem conflict?_eq_findSome? (ts : List Transition) :
    conflict? ts = (ts.zipIdx 1).findSome? (reportOn ts) := rfl

theorem reportOn_place {i j : Fin ts.length} (h : IsFirst ts i j) :
    reportOn ts (ts[j], 1 + j.val) =
      if ts[i] = ts[j] then none else some ⟨i + 1, j + 1, ts[j].key⟩ := by
  obtain ⟨i', hi', hindex⟩ := exists_first ts j
  obtain rfl := h.unique hi'
  simp only [reportOn, hindex, Nat.add_comm 1]

theorem eq_first_of_reportOn_eq_none {i j : Fin ts.length} (h : IsFirst ts i j)
    (hnone : reportOn ts (ts[j], 1 + j.val) = none) : ts[i] = ts[j] := by
  rw [reportOn_place h] at hnone
  by_contra hne
  rw [if_neg hne] at hnone
  cases hnone

theorem not_clashes_of_conflict?_eq_none (h : conflict? ts = none) (j : Fin ts.length) :
    ¬ Clashes ts j := by
  rw [conflict?_eq_findSome?, List.findSome?_eq_none_iff] at h
  exact not_clashes_of_eq_first fun l _ i hi =>
    eq_first_of_reportOn_eq_none hi (h _ (mem_zipIdx_place ts 1 l))

/-- What is reported is there to report. -/
theorem blames_of_conflict? {c : Conflict} (h : conflict? ts = some c) : Blames ts c := by
  rw [conflict?_eq_findSome?] at h
  obtain ⟨j, hj, hbefore⟩ := exists_place_of_findSome? h
  obtain ⟨i, hi, -⟩ := exists_first ts j
  rw [reportOn_place hi] at hj
  split at hj
  · cases hj
  · rename_i hne
    cases hj
    have hij : i < j := lt_of_le_of_ne (hi.le j rfl) fun he => hne (by rw [he])
    -- the places passed so far agree with the first ones for their state and letters
    have hleast : ∀ l < j, ¬ Clashes ts l := fun l hl =>
      not_clashes_of_eq_first fun k hk i hi =>
        eq_first_of_reportOn_eq_none hi (hbefore k (lt_of_le_of_lt hk hl))
    exact .pair ⟨i, hij, hi.key_eq, hne⟩ hleast hi hne

/-- Without a conflict, transitions for one state and letters are equal. -/
theorem eq_of_conflict?_eq_none (h : conflict? ts = none) {t u : Transition} (ht : t ∈ ts) (hu : u ∈ ts)
    (hkey : t.key = u.key) : t = u :=
  eq_of_not_clashes (not_clashes_of_conflict?_eq_none h) ht hu hkey

theorem conflict?_eq_none_iff : conflict? ts = none ↔
    ∀ t ∈ ts, ∀ u ∈ ts, t.key = u.key → t = u := by
  constructor
  · intro h t ht u hu hkey
    exact eq_of_conflict?_eq_none h ht hu hkey
  · intro h
    cases hc : conflict? ts with
    | none => rfl
    | some c =>
      obtain ⟨-, -, first, differ⟩ := blames_of_conflict? hc
      exact absurd (h _ (List.getElem_mem _) _ (List.getElem_mem _) first.key_eq) differ

theorem conflict?_eq_some_iff {c : Conflict} : conflict? ts = some c ↔ Blames ts c := by
  refine ⟨blames_of_conflict?, fun h => ?_⟩
  cases hc : conflict? ts with
  | none =>
    obtain ⟨clashes, -, -, -⟩ := h
    exact absurd clashes (not_clashes_of_conflict?_eq_none hc _)
  | some c' => rw [(blames_of_conflict? hc).unique h]

/-- **The check of a listing is exact.** It passes if and only if transitions for the same state and
letters are equal in all their fields. If it does not pass, it reports the first place whose transition
differs from an earlier one for the same state and letters, together with the first place of all for
that state and letters, and the transitions at these two places differ. Whether it passes does not
depend on the order of the listing. -/
theorem conflict?_exact (ts : List Transition) :
    (conflict? ts = none ↔ ∀ t ∈ ts, ∀ u ∈ ts,
      t.state = u.state → t.read1 = u.read1 → t.read2 = u.read2 → t = u) ∧
    (∀ c, conflict? ts = some c ↔ Blames ts c) ∧
    ∀ ts', ts.Perm ts' → (conflict? ts = none ↔ conflict? ts' = none) := by
  refine ⟨?_, fun c => conflict?_eq_some_iff, fun ts' hperm => ?_⟩
  · rw [conflict?_eq_none_iff]
    simp only [Transition.key, Transition.Key.mk.injEq, and_imp]
  · rw [conflict?_eq_none_iff, conflict?_eq_none_iff]
    simp only [hperm.mem_iff]

/-- The second transition is repeated and then contradicted, and the first one is contradicted after
that. -/
def stuttering : List Transition :=
  [⟨"far", "a", "a", "far", "a", "a", .left, .left⟩,
    ⟨startState, "a", blank, "far", "a", "a", .right, .stay⟩,
    ⟨startState, "a", blank, "far", "a", "a", .right, .stay⟩,
    ⟨startState, "a", blank, "far", "a", "a", .right, .right⟩,
    ⟨"far", "a", "a", acceptState, "a", "a", .left, .left⟩]

theorem conflict?_exact_stuttering :
    Blames stuttering ⟨2, 4, ⟨startState, "a", blank⟩⟩ ∧
      stuttering.Perm stuttering.reverse ∧ conflict? stuttering.reverse ≠ none := by
  obtain ⟨-, hsome, hverdict⟩ := conflict?_exact stuttering
  have hconflict : conflict? stuttering = some ⟨2, 4, ⟨startState, "a", blank⟩⟩ := by decide +kernel
  have hperm : stuttering.Perm stuttering.reverse := (List.reverse_perm stuttering).symm
  refine ⟨(hsome _).mp hconflict, hperm, fun hnone => ?_⟩
  rw [(hverdict _ hperm).mpr hnone] at hconflict
  cases hconflict

end TwoTape

end Multitrack
