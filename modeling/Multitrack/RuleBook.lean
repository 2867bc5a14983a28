import Multitrack.Rule
import Std.Data.TreeSet

/-! # Rule books

A rule book is a set of rules that remembers the order in which they were first entered, and how
often a rule was entered again. -/
namespace Multitrack

/-- Rules in the order of their first entry. -/
structure RuleBook where
  rules : Array Rule
  /-- The same rules, for looking them up. -/
  known : Std.TreeSet Rule
  /-- How many entries repeated an earlier one. -/
  duplicates : Nat
  mem_known : ∀ r, r ∈ known ↔ r ∈ rules

namespace RuleBook

def empty : RuleBook := ⟨#[], ∅, 0, by simp⟩

def size (b : RuleBook) : Nat := b.rules.size

def contains (b : RuleBook) (r : Rule) : Bool := b.known.contains r

/-- Enters a rule: at the end if it is new, and as a duplicate otherwise. -/
def insert (b : RuleBook) (r : Rule) : RuleBook :=
  if b.known.contains r then { b with duplicates := b.duplicates + 1 }
  else
    { b with
      rules := b.rules.push r
      known := b.known.insert r
      mem_known := fun s => by
        rw [Std.TreeSet.mem_insert, Std.LawfulEqCmp.compare_eq_iff_eq, Array.mem_push, b.mem_known,
          or_comm, eq_comm] }

def add (b : RuleBook) (r : Rule) : Bool × RuleBook := (!b.contains r, b.insert r)

def insertAll (b : RuleBook) (rs : List Rule) : RuleBook := rs.foldl insert b

@[simp] theorem contains_iff_mem {b : RuleBook} {r : Rule} : b.contains r ↔ r ∈ b.rules := by
  rw [← b.mem_known]; rfl

theorem rules_insert (b : RuleBook) (r : Rule) :
    (b.insert r).rules = if r ∈ b.rules then b.rules else b.rules.push r := by
  rw [insert]
  by_cases h : r ∈ b.rules
  · have hc : b.known.contains r = true := contains_iff_mem.mpr h
    simp [h, hc]
  · have hc : ¬ b.known.contains r = true := fun hc => h (contains_iff_mem.mp hc)
    simp [h, hc]

end RuleBook

end Multitrack
