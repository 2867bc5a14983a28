import Std.Data.TreeMap

/-! # Orders, indexes and sorted names

Enumerations are ordered by the position of their constructors and records member by member; an order
by a key that tells values apart calls only equal values equal. An index keeps, for every key, the
first element of a list that has it. Finite sets of names are strictly increasing lists, ordered by
code points. -/
namespace Multitrack

theorem lawfulEqCmp_compareOn {α β : Type} [Ord β] [Std.LawfulEqOrd β] (key : α → β)
    (injective : ∀ a b, key a = key b → a = b) : Std.LawfulEqCmp (compareOn key) where
  compare_self := by
    intro a
    exact Std.ReflCmp.compare_self
  eq_of_compare := by
    intro a b h
    exact injective a b (Std.LawfulEqCmp.eq_of_compare h)

/-! ## First match by key -/

section FirstMatch

variable {α κ : Type} [Ord κ]

/-- For every key, the first element of the list that has it. -/
def firstByKey (key : α → κ) (items : List α) : Std.TreeMap κ α :=
  items.foldl (fun index a => index.insertIfNew (key a) a) ∅

private theorem getElem?_foldl_insertIfNew [Std.TransOrd κ] [Std.LawfulEqOrd κ] [DecidableEq κ]
    (key : α → κ) (items : List α) (index : Std.TreeMap κ α) (k : κ) :
    (items.foldl (fun index a => index.insertIfNew (key a) a) index)[k]? =
      index[k]?.or (items.find? fun a => key a = k) := by
  induction items generalizing index with
  | nil => simp
  | cons a rest ih =>
    rw [List.foldl_cons, ih, Std.TreeMap.getElem?_insertIfNew, List.find?_cons]
    by_cases h : key a = k
    · subst h
      by_cases hm : key a ∈ index <;> simp [hm]
    · simp [h]

/-- A look-up finds what a scan from the front finds. -/
theorem getElem?_firstByKey [Std.TransOrd κ] [Std.LawfulEqOrd κ] [DecidableEq κ]
    (key : α → κ) (items : List α) (k : κ) :
    (firstByKey key items)[k]? = items.find? fun a => key a = k := by
  simp [firstByKey, getElem?_foldl_insertIfNew]

end FirstMatch

/-! ## Sorted names -/

/-- Puts a name at its place in an increasing list, unless it is there already. -/
def insertName (s : String) : List String → List String
  | [] => [s]
  | t :: rest =>
    if s < t then s :: t :: rest
    else if s = t then t :: rest
    else t :: insertName s rest

/-- The names that occur in the list, each once, in increasing order. -/
def sortedNames (names : List String) : List String := names.foldr insertName []

@[simp] theorem mem_insertName {s t : String} {names : List String} :
    t ∈ insertName s names ↔ t = s ∨ t ∈ names := by
  induction names with
  | nil => simp [insertName]
  | cons u rest ih =>
    rw [insertName]
    split
    · simp
    · split
      · next h => simp [h]
      · simp [ih, or_left_comm]

@[simp] theorem mem_sortedNames {s : String} {names : List String} :
    s ∈ sortedNames names ↔ s ∈ names := by
  induction names with
  | nil => simp [sortedNames]
  | cons t rest ih => simpa [sortedNames] using or_congr_right ih

end Multitrack
