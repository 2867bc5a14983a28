import Mathlib.Tactic
import Multitrack.Construction.Request
import Multitrack.Proofs.Books

/-! # Rule books under requests

A rule book can be asked for any part of the construction over any signature, and for single rules, in
any order and again and again. Whatever it is asked for, it keeps what was asked for in the order of
first occurrence: a rule that is there stays where it is, and one that comes again is counted and not
entered. So what has been asked for before adds nothing, and which rules a book holds depends on what it
was asked for and not on the order or on repetitions. -/
namespace Multitrack

structure Call where
  signature : Signature
  request : Request
deriving DecidableEq, Repr

/-- Every rule that the calls ask for, in order and with repetitions. -/
def requestedRules (calls : List Call) : List Rule :=
  calls.flatMap fun call => call.request.rules call.signature

theorem requestedRules_append (calls more : List Call) :
    requestedRules (calls ++ more) = requestedRules calls ++ requestedRules more :=
  List.flatMap_append

theorem requestedRules_subset {calls more : List Call} (h : more ⊆ calls) :
    requestedRules more ⊆ requestedRules calls := by
  intro r hr
  obtain ⟨call, hcall, hr⟩ := List.mem_flatMap.mp hr
  exact List.mem_flatMap.mpr ⟨call, h hcall, hr⟩

namespace RuleBook

def serveAll (b : RuleBook) (calls : List Call) : RuleBook :=
  calls.foldl (fun b call => b.serve call.signature call.request) b

theorem serveAll_append (b : RuleBook) (calls more : List Call) :
    b.serveAll (calls ++ more) = (b.serveAll calls).serveAll more :=
  List.foldl_append

theorem serveAll_eq_insertAll (b : RuleBook) (calls : List Call) :
    b.serveAll calls = b.insertAll (requestedRules calls) :=
  List.foldl_flatMap.symm

theorem toList_rules_serveAll_empty (calls : List Call) :
    (empty.serveAll calls).rules.toList = (requestedRules calls).eraseDups := by
  rw [serveAll_eq_insertAll, toList_rules_insertAll_empty]

theorem mem_rules_serveAll_empty {calls : List Call} {r : Rule} :
    r ∈ (empty.serveAll calls).rules ↔ r ∈ requestedRules calls := by
  rw [← Array.mem_toList_iff, toList_rules_serveAll_empty, List.mem_eraseDups]

/-- Further calls leave the rules of a book where they are. -/
theorem prefix_rules_serveAll (calls more : List Call) :
    (empty.serveAll calls).rules.toList <+: ((empty.serveAll calls).serveAll more).rules.toList := by
  rw [← serveAll_append, toList_rules_serveAll_empty, toList_rules_serveAll_empty,
    requestedRules_append, List.eraseDups_append]
  exact List.prefix_append _ _

/-- Calls that were made before add nothing. -/
theorem rules_serveAll_of_subset {calls more : List Call} (h : more ⊆ calls) :
    ((empty.serveAll calls).serveAll more).rules = (empty.serveAll calls).rules := by
  rw [← Array.toList_inj, ← serveAll_append, toList_rules_serveAll_empty,
    toList_rules_serveAll_empty, requestedRules_append,
    eraseDups_append_of_subset (requestedRules_subset h)]

/-- The answer to an entry is whether the rule has not been entered before. -/
theorem add_insertAll_empty (rs : List Rule) (r : Rule) :
    (empty.insertAll rs).add r = (decide (r ∉ rs), empty.insertAll (rs ++ [r])) := by
  have hnew : (!(empty.insertAll rs).contains r) = decide (r ∉ rs) := by
    rw [Bool.eq_iff_iff, Bool.not_eq_true', ← Bool.not_eq_true, contains_iff_mem,
      ← Array.mem_toList_iff, toList_rules_insertAll_empty, List.mem_eraseDups, decide_eq_true_iff]
  rw [add, hnew, insertAll_append]
  rfl

end RuleBook

/-- **A rule book is a set in the order of first occurrence, however it is used.** After any calls it
holds the rules asked for without their later occurrences, and contains these and no others. Every entry
on the way was answered by whether the rule had not occurred before. Each rule asked for is in the book
or counted as a duplicate. Further calls leave the rules of the book where they are. A call that was made
before adds no rule, and the same calls in another order and number lead to the same rules. -/
theorem book_keeps_first_occurrences (calls : List Call) :
    let book := RuleBook.empty.serveAll calls
    book.rules.toList = (requestedRules calls).eraseDups ∧
    (∀ r, book.contains r = true ↔ r ∈ requestedRules calls) ∧
    (∀ i : Fin (requestedRules calls).length,
      (RuleBook.empty.insertAll ((requestedRules calls).take i)).add (requestedRules calls)[i] =
        (decide ((requestedRules calls)[i] ∉ (requestedRules calls).take i),
          RuleBook.empty.insertAll ((requestedRules calls).take (i + 1)))) ∧
    book.size + book.duplicates = (requestedRules calls).length ∧
    (∀ more, book.rules.toList <+: (book.serveAll more).rules.toList) ∧
    (∀ call ∈ calls, (book.serve call.signature call.request).rules = book.rules) ∧
    ∀ calls', (∀ call, call ∈ calls ↔ call ∈ calls') →
      ∀ r, r ∈ book.rules ↔ r ∈ (RuleBook.empty.serveAll calls').rules := by
  intro book
  have hmem : ∀ r, r ∈ book.rules ↔ r ∈ requestedRules calls :=
    fun r => RuleBook.mem_rules_serveAll_empty
  refine ⟨RuleBook.toList_rules_serveAll_empty calls, fun r => ?_, fun i => ?_, ?_,
    RuleBook.prefix_rules_serveAll calls, fun call hcall => ?_, fun calls' hcalls r => ?_⟩
  · rw [RuleBook.contains_iff_mem, hmem]
  · rw [RuleBook.add_insertAll_empty, Fin.getElem_fin, List.take_append_getElem i.isLt]
  · have hcount := RuleBook.size_add_duplicates_insertAll .empty (requestedRules calls)
    rw [← RuleBook.serveAll_eq_insertAll] at hcount
    exact hcount.trans (Nat.zero_add _)
  · exact RuleBook.rules_serveAll_of_subset (List.cons_subset.mpr ⟨hcall, List.nil_subset calls⟩)
  · rw [hmem, RuleBook.mem_rules_serveAll_empty]
    exact ⟨fun h => requestedRules_subset (fun call => (hcalls call).mp) h,
      fun h => requestedRules_subset (fun call => (hcalls call).mpr) h⟩

def doubled : Signature := ⟨[blank, "a", "a"], ["a", "a"], [startState], ⟨1, Nat.one_pos⟩⟩

def repeating : List Call := [⟨doubled, .layout⟩, ⟨doubled, .locate⟩, ⟨doubled, .layout⟩]

theorem book_keeps_first_occurrences_repeating :
    let book := RuleBook.empty.serveAll repeating
    (⟨doubled, .locate⟩ : Call) ∈ repeating ∧ (book.serve doubled .locate).rules = book.rules ∧
    (∀ call, call ∈ repeating ↔ call ∈ repeating.tail.reverse) ∧
    ∀ r, r ∈ book.rules ↔ r ∈ (RuleBook.empty.serveAll repeating.tail.reverse).rules := by
  intro book
  have hmem : (⟨doubled, .locate⟩ : Call) ∈ repeating := by decide
  have hcalls : ∀ call, call ∈ repeating ↔ call ∈ repeating.tail.reverse := by
    intro call
    simp only [repeating, List.tail_cons, List.mem_reverse, List.mem_cons, List.not_mem_nil, or_false]
    tauto
  obtain ⟨-, -, -, -, -, hagain, hset⟩ := book_keeps_first_occurrences repeating
  exact ⟨hmem, hagain ⟨doubled, .locate⟩ hmem, hcalls, hset _ hcalls⟩

end Multitrack
