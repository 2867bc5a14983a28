import Mathlib.Tactic
import Multitrack.Proofs.Emulation

/-! # Trailing blanks of an input

A tape ends in blanks without end, whether or not some of them have been written. Tapes are alike when
they show the same letters with the head on the same cell, and no machine tells tapes apart that are
alike: it reads the same, writes the same, and leaves the same result once the blanks at the end are
dropped. So blanks at the end of an input have no effect on a run. -/
namespace Multitrack

/-! ## Lists up to blanks at their end -/

theorem trimBlanks_append_blanks (letters : List Letter) (j : Nat) :
    trimBlanks (letters ++ List.replicate j blank) = trimBlanks letters := by
  induction j with
  | zero => rw [List.replicate_zero, List.append_nil]
  | succ j ih =>
    rw [List.replicate_succ', ← List.append_assoc, ← ih, trimBlanks, trimBlanks]
    simp

/-- Of two lists that show the same letters one is the other with blanks after it. -/
theorem eq_append_blanks {l l' : List Letter} (h : ∀ i, l.getD i blank = l'.getD i blank)
    (hle : l.length ≤ l'.length) : l' = l ++ List.replicate (l'.length - l.length) blank := by
  refine List.ext_getElem (by simp; omega) fun i hi hi' => ?_
  rw [← List.getD_eq_getElem l' blank hi, ← List.getD_eq_getElem _ blank hi', getD_append_blanks, h]

/-- Lists that show the same letters are trimmed to the same list. -/
theorem trimBlanks_congr {l l' : List Letter} (h : ∀ i, l.getD i blank = l'.getD i blank) :
    trimBlanks l = trimBlanks l' := by
  rcases Nat.le_total l.length l'.length with hle | hle
  · rw [eq_append_blanks h hle, trimBlanks_append_blanks]
  · rw [eq_append_blanks (fun i => (h i).symm) hle, trimBlanks_append_blanks]

theorem getLast?_trimBlanks (letters : List Letter) : (trimBlanks letters).getLast? ≠ some blank := by
  intro h
  rw [trimBlanks, List.getLast?_reverse] at h
  have hhead := List.head?_dropWhile_not (· == blank) letters.reverse
  rw [h] at hhead
  simp at hhead

/-! ## Tapes that show the same -/

/-- The heads are on the same cell, and every cell shows the same letter. -/
structure Tape.Alike (t t' : Tape) : Prop where
  head_eq : t.head = t'.head
  letter_eq : ∀ i, t.letter i = t'.letter i

namespace Tape.Alike

variable {t t' : Tape}

theorem read_eq (h : t.Alike t') : t.read = t'.read := by
  rw [read_eq_letter, read_eq_letter, h.head_eq, h.letter_eq]

theorem write (h : t.Alike t') (s : Letter) : (t.write s).Alike (t'.write s) := by
  refine ⟨h.head_eq, fun i => ?_⟩
  rw [letter_write, letter_write, h.head_eq, h.letter_eq]

theorem move (h : t.Alike t') (d : Dir) : (t.move d).Alike (t'.move d) := by
  refine ⟨?_, fun i => ?_⟩
  · rw [head_move, head_move, h.head_eq]
  · rw [letter_move, letter_move, h.letter_eq]

theorem trimBlanks_cells (h : t.Alike t') : trimBlanks t.cells = trimBlanks t'.cells :=
  trimBlanks_congr h.letter_eq

end Tape.Alike

structure TapePair.Alike (p p' : TapePair) : Prop where
  first : p.first.Alike p'.first
  second : p.second.Alike p'.second

/-! ## Machines that do not tell tapes apart -/

/-- In one state and on related tapes the machine has no row, or goes on to one state and to related
tapes, and related tapes hold the same result. -/
structure Machine.Respects {τ : Type} (m : Machine τ) (R : τ → τ → Prop) : Prop where
  next : ∀ {q : StateName} {tapes tapes' : τ}, R tapes tapes' →
    Option.Rel (fun x x' => x.1 = x'.1 ∧ R x.2 x'.2) (m.next? q tapes) (m.next? q tapes')
  output : ∀ {tapes tapes' : τ}, R tapes tapes' →
    trimBlanks (m.output tapes).cells = trimBlanks (m.output tapes').cells

structure Configuration.Alike {τ : Type} (R : τ → τ → Prop) (c c' : Configuration τ) : Prop where
  state_eq : c.state = c'.state
  steps_eq : c.steps = c'.steps
  tapes : R c.tapes c'.tapes

namespace Configuration.Alike

variable {τ : Type} {m : Machine τ} {R : τ → τ → Prop} {c c' : Configuration τ}

theorem halted_eq (h : Alike R c c') : c.halted = c'.halted := by
  rw [halted, halted, h.state_eq]

theorem step (hm : m.Respects R) (h : Alike R c c') : Alike R (c.step m) (c'.step m) := by
  cases hc : c.halted with
  | true =>
    rw [step_of_halted hc, step_of_halted (h.halted_eq ▸ hc)]
    exact h
  | false =>
    have hc' : c'.halted = false := h.halted_eq ▸ hc
    have hnext := hm.next (q := c.state) h.tapes
    rw [h.state_eq] at hnext
    generalize hx : m.next? c'.state c.tapes = x at hnext
    generalize hx' : m.next? c'.state c'.tapes = x' at hnext
    cases hnext with
    | none =>
      rw [step_of_stuck hc (h.state_eq ▸ hx), step_of_stuck hc' hx']
      exact ⟨rfl, h.steps_eq, h.tapes⟩
    | some hrel =>
      rw [step_of_next hc (h.state_eq ▸ hx), step_of_next hc' hx']
      exact ⟨hrel.1, congrArg (· + 1) h.steps_eq, hrel.2⟩

theorem iterate (hm : m.Respects R) (h : Alike R c c') (n : Nat) :
    Alike R ((Configuration.step m)^[n] c) ((Configuration.step m)^[n] c') := by
  induction n with
  | zero => exact h
  | succ n ih =>
    rw [Function.iterate_succ_apply', Function.iterate_succ_apply']
    exact ih.step hm

theorem outcome_eq (hm : m.Respects R) (h : Alike R c c') (limit : Int) :
    c.outcome m limit = c'.outcome m limit := by
  simp only [outcome, accepted, h.halted_eq, h.state_eq, h.steps_eq, hm.output h.tapes]

end Configuration.Alike

/-- Inputs that are loaded alike have the same outcome. -/
theorem Machine.Respects.run_eq {τ : Type} {m : Machine τ} {R : τ → τ → Prop} (hm : m.Respects R)
    {input input' : List Letter} (h : R (m.load input) (m.load input')) (limit : Int) :
    m.run limit input = m.run limit input' := by
  have hinitial : Configuration.Alike R (.initial m input) (.initial m input') := ⟨rfl, rfl, h⟩
  rw [run_eq_outcome, run_eq_outcome]
  exact (hinitial.iterate hm limit.toNat).outcome_eq hm limit

theorem Table.respects_machine (t : Table) : t.machine.Respects Tape.Alike where
  next {q tape tape'} h := by
    show Option.Rel _ (t.index.next? q tape) (t.index.next? q tape')
    rw [Index.next?, Index.next?, h.read_eq]
    cases t.index[Row.Key.mk q tape'.read]? with
    | none => exact .none
    | some r => exact .some ⟨rfl, (h.write r.write).move r.dir⟩
  output h := h.trimBlanks_cells

theorem TwoTape.respects_machine (ts : List Transition) :
    (machine ts).Respects TapePair.Alike where
  next {q tapes tapes'} h := by
    show Option.Rel _ ((index ts).next? q tapes) ((index ts).next? q tapes')
    rw [Index.next?, Index.next?, h.first.read_eq, h.second.read_eq]
    cases (index ts)[Transition.Key.mk q tapes'.first.read tapes'.second.read]? with
    | none => exact .none
    | some t =>
      exact .some ⟨rfl, (h.first.write t.write1).move t.dir1, (h.second.write t.write2).move t.dir2⟩
  output h := h.first.trimBlanks_cells

/-- Blanks after an input change nothing that the tape shows. -/
theorem Tape.alike_ofList_append_blanks (input : List Letter) (j : Nat) :
    (ofList (input ++ List.replicate j blank)).Alike (ofList input) := by
  refine ⟨rfl, fun i => ?_⟩
  rw [letter_ofList, letter_ofList, getD_append_blanks]

/-- **Blanks at the end of an input are not seen.** With any table, single-tape or two-tape, and under
any limit, a run on an input followed by blanks has the outcome of the run on the input itself: the
verdict, the number of steps, whether the limit was hit, and the final tape, which never ends in a
blank. -/
theorem run_append_blanks (input : List Letter) (j : Nat) (limit : Int) :
    (∀ t : Table,
      t.machine.run limit (input ++ List.replicate j blank) = t.machine.run limit input ∧
      (t.machine.run limit input).finalTape.getLast? ≠ some blank) ∧
    ∀ ts : List Transition,
      (TwoTape.machine ts).run limit (input ++ List.replicate j blank) =
        (TwoTape.machine ts).run limit input ∧
      ((TwoTape.machine ts).run limit input).finalTape.getLast? ≠ some blank := by
  refine ⟨fun t => ⟨?_, getLast?_trimBlanks _⟩, fun ts => ⟨?_, getLast?_trimBlanks _⟩⟩
  · have hload : (t.machine.load (input ++ List.replicate j blank)).Alike (t.machine.load input) :=
      ⟨rfl, fun i => by rw [t.letter_load, t.letter_load, getD_append_blanks]⟩
    exact t.respects_machine.run_eq hload limit
  · have hfirst := Tape.alike_ofList_append_blanks input j
    have hsecond : (Tape.ofList []).Alike (.ofList []) := ⟨rfl, fun _ => rfl⟩
    exact (TwoTape.respects_machine ts).run_eq ⟨hfirst, hsecond⟩ limit

end Multitrack
