import Mathlib.Tactic
import Multitrack.Proofs.Representation
import Multitrack.Proofs.SortedRows

/-! # Indexed steps are scans from the front

Both machines look up what applies in an index that is built once. What they do is what a scan of the
rows or transitions from the front does in every step: the first one that matches applies, and a
running machine that nothing matches rejects where it stands. A search by state and letter among the
sorted rows finds the same row. -/
namespace Multitrack

/-! ## Steps that scan -/

/-- One step of a machine that goes through its items from the front. The first item that fits is
applied, which counts as a step; where none fits a running machine rejects. -/
inductive ScanStep {α τ : Type} (items : List α) (Fits : α → Prop) (next : α → StateName × τ)
    (c : Configuration τ) : Configuration τ → Prop
  | ended (halted : c.halted = true) : ScanStep items Fits next c c
  | apply {before after : List α} {a : α} (running : c.halted = false)
      (split : items = before ++ a :: after) (fits : Fits a) (first : ∀ b ∈ before, ¬ Fits b) :
      ScanStep items Fits next c ⟨(next a).1, (next a).2, c.steps + 1⟩
  | reject (running : c.halted = false) (nothing : ∀ a ∈ items, ¬ Fits a) :
      ScanStep items Fits next c { c with state := rejectState }

section ScanStep

variable {α τ : Type} {m : Machine τ} {items : List α} {Fits : α → Prop} [DecidablePred Fits]
  {next : α → StateName × τ} {c : Configuration τ}
  (hnext : m.next? c.state c.tapes = (items.find? fun a => Fits a).map next)
include hnext

theorem step_eq_iff_scanStep {c' : Configuration τ} :
    c.step m = c' ↔ ScanStep items Fits next c c' := by
  constructor
  · rintro rfl
    cases hc : c.halted with
    | true =>
      rw [Configuration.step_of_halted hc]
      exact .ended hc
    | false =>
      cases hfind : items.find? fun a => Fits a with
      | none =>
        rw [hfind, Option.map_none] at hnext
        rw [Configuration.step_of_stuck hc hnext]
        exact .reject hc (by simpa using hfind)
      | some a =>
        rw [hfind, Option.map_some] at hnext
        rw [Configuration.step_of_next hc hnext]
        obtain ⟨hfits, before, after, hsplit, hfirst⟩ := List.find?_eq_some_iff_append.mp hfind
        exact .apply hc hsplit (by simpa using hfits) (by simpa using hfirst)
  · intro h
    cases h with
    | ended hc => exact Configuration.step_of_halted hc
    | @apply before after a hc hsplit hfits hfirst =>
      have hfind : (items.find? fun a => Fits a) = some a :=
        List.find?_eq_some_iff_append.mpr
          ⟨by simpa using hfits, before, after, hsplit, by simpa using hfirst⟩
      rw [hfind, Option.map_some] at hnext
      exact Configuration.step_of_next hc hnext
    | reject hc hnothing =>
      have hfind : (items.find? fun a => Fits a) = none := by simpa using hnothing
      rw [hfind, Option.map_none] at hnext
      exact Configuration.step_of_stuck hc hnext

/-- A running machine rejects without a step exactly where nothing fits. A row that leads to rejection
counts as a step. -/
theorem step_eq_reject_iff (hc : c.halted = false) :
    c.step m = { c with state := rejectState } ↔ ∀ a ∈ items, ¬ Fits a := by
  constructor
  · intro h a ha hfits
    cases hfind : items.find? fun a => Fits a with
    | none => exact List.find?_eq_none.mp hfind a ha (by simpa using hfits)
    | some b =>
      rw [hfind, Option.map_some] at hnext
      rw [Configuration.step_of_next hc hnext] at h
      exact Nat.succ_ne_self c.steps (congrArg Configuration.steps h)
  · intro hnothing
    exact (step_eq_iff_scanStep hnext).mpr (.reject hc hnothing)

end ScanStep

def Row.Fits (c : Configuration Tape) (r : Row) : Prop := r.state = c.state ∧ r.read = c.tapes.read

def Transition.Fits (c : Configuration TapePair) (t : Transition) : Prop :=
  t.state = c.state ∧ t.read1 = c.tapes.first.read ∧ t.read2 = c.tapes.second.read

instance (c : Configuration Tape) : DecidablePred (Row.Fits c) :=
  fun _ => inferInstanceAs (Decidable (_ ∧ _))

instance (c : Configuration TapePair) : DecidablePred (Transition.Fits c) :=
  fun _ => inferInstanceAs (Decidable (_ ∧ _))

def Row.result (c : Configuration Tape) (r : Row) : StateName × Tape :=
  (r.next, (c.tapes.write r.write).move r.dir)

def Transition.result (c : Configuration TapePair) (t : Transition) : StateName × TapePair :=
  (t.next, t.applyTo c.tapes)

theorem Table.next?_eq_scan (rows : List Row) (c : Configuration Tape) :
    (ofRows rows).machine.next? c.state c.tapes =
      (rows.find? fun r => r.Fits c).map (Row.result c) := by
  simp only [Row.Fits, ← Row.key_eq_iff]
  exact next?_index (ofRows rows) c.state c.tapes

theorem TwoTape.next?_eq_scan (ts : List Transition) (c : Configuration TapePair) :
    (machine ts).next? c.state c.tapes =
      (ts.find? fun t => t.Fits c).map (Transition.result c) := by
  have hkey : ∀ t : Transition, t.key = ⟨c.state, c.tapes.first.read, c.tapes.second.read⟩ ↔
      t.Fits c := by
    intro t
    rw [Transition.key, Transition.Key.mk.injEq, Transition.Fits]
  simp only [← hkey]
  exact next?_machine ts c.state c.tapes

namespace Table

/-- A table is built by adding its rows one after the other. -/
theorem foldl_add (rows : List Row) : rows.foldl add (ofRows []) = ofRows rows := by
  have hfrom : ∀ t : Table, rows.foldl add t = { t with rows := t.rows ++ rows } := by
    induction rows with
    | nil => simp
    | cons r rest ih => simp [ih, add]
  exact hfrom (ofRows [])

end Table

/-- **An indexed step is a scan from the front.** Whatever the configuration, a table's machine applies
the first row in the list for the state and the letter under the head, and rejects without a step if
and only if the list has none; a two-tape machine does the same with its transitions and the letters
under both heads. A table that was built row by row has as many rows as the list, its states together
have as many, and its index gives the row that a search by state and letter gives. -/
theorem step_applies_first_match :
    (∀ (rows : List Row) (c : Configuration Tape),
      (∀ c', c.step (Table.ofRows rows).machine = c' ↔
        ScanStep rows (Row.Fits c) (Row.result c) c c') ∧
      (c.halted = false → (c.step (Table.ofRows rows).machine = { c with state := rejectState } ↔
        ∀ r ∈ rows, ¬ r.Fits c))) ∧
    (∀ rows : List Row, rows.foldl Table.add (Table.ofRows []) = Table.ofRows rows ∧
      (Table.ofRows rows).size = rows.length ∧
      ((Table.ofRows rows).rowsByState.map fun x => x.2.length).sum = rows.length ∧
      ∀ q s, (Table.ofRows rows).index[Row.Key.mk q s]? = (Table.ofRows rows).search q s) ∧
    ∀ (ts : List Transition) (c : Configuration TapePair),
      (∀ c', c.step (TwoTape.machine ts) = c' ↔
        ScanStep ts (Transition.Fits c) (Transition.result c) c c') ∧
      (c.halted = false → (c.step (TwoTape.machine ts) = { c with state := rejectState } ↔
        ∀ t ∈ ts, ¬ t.Fits c)) := by
  refine ⟨fun rows c => ?_, fun rows => ?_, fun ts c => ?_⟩
  · have hnext := Table.next?_eq_scan rows c
    exact ⟨fun c' => step_eq_iff_scanStep hnext, step_eq_reject_iff hnext⟩
  · refine ⟨Table.foldl_add rows, rfl, Table.sum_rowsByState (Table.ofRows rows), fun q s => ?_⟩
    rw [Table.search_eq_find?, Table.index, getElem?_firstByKey]
  · have hnext := TwoTape.next?_eq_scan ts c
    exact ⟨fun c' => step_eq_iff_scanStep hnext, step_eq_reject_iff hnext⟩

/-- Two rows for one state and letter, with a row of another state between them. -/
def rivals : List Row :=
  [⟨startState, blank, "far", "a", .right⟩, ⟨"far", "a", acceptState, "a", .stay⟩,
    ⟨startState, blank, rejectState, "b", .stay⟩]

theorem step_applies_first_match_rivals :
    Configuration.step (Table.ofRows rivals).machine ⟨startState, .ofList [], 4⟩ =
      ⟨"far", ⟨["a"], []⟩, 5⟩ ∧
    Configuration.step (Table.ofRows rivals).machine ⟨"far", ⟨["a"], []⟩, 5⟩ =
      ⟨rejectState, ⟨["a"], []⟩, 5⟩ ∧
    Configuration.step (TwoTape.machine parting) ⟨startState, ⟨.ofList ["a"], .ofList ["a"]⟩, 3⟩ =
      ⟨rejectState, ⟨.ofList ["a"], .ofList ["a"]⟩, 3⟩ := by
  obtain ⟨hstep, -, hstep'⟩ := step_applies_first_match
  refine ⟨?_, ?_, ?_⟩
  · have hsplit : rivals = [] ++ ⟨startState, blank, "far", "a", .right⟩ :: rivals.tail := rfl
    exact ((hstep rivals _).1 _).mpr (.apply rfl hsplit ⟨rfl, rfl⟩ nofun)
  · exact ((hstep rivals ⟨"far", ⟨["a"], []⟩, 5⟩).2 rfl).mpr (by decide)
  · exact ((hstep' parting ⟨startState, ⟨.ofList ["a"], .ofList ["a"]⟩, 3⟩).2 rfl).mpr (by decide)

end Multitrack
