import Mathlib.Tactic
import Multitrack.Proofs.Listings

/-! # Listings can be read back

A transition is read from its own line when its states and letters fit into a line and the line is not
a comment. What is read from any text fits in this way, because the text was divided to find it. So a
listing gives its transitions back exactly when all of them fit, and a text that can be read, written
anew and read again gives nothing new. -/
namespace Multitrack

open Multitrack.Text Multitrack.TwoTape

theorem isToken_letter (d : Dir) : IsToken d.letter := by
  cases d <;> decide

namespace Transition

structure Tokenized (t : Transition) : Prop where
  states : ∀ q ∈ t.states, IsToken q
  letters : ∀ s ∈ t.letters, IsToken s

/-- The transition has a line that is read as it was written: its states and letters can stand as
fields, and the state at the beginning does not make the line a comment. -/
structure Listable (t : Transition) : Prop extends Tokenized t where
  uncommented : ¬ "//".toList <+: t.state.toList

variable {t u : Transition}

theorem tokenized_iff_fields : t.Tokenized ↔ ∀ f ∈ t.fields, IsToken f := by
  constructor
  · intro h f hf
    rcases mem_fields.mp hf with hf | hf | rfl | rfl
    · exact h.letters f hf
    · exact h.states f hf
    · exact isToken_letter t.dir1
    · exact isToken_letter t.dir2
  · intro h
    exact ⟨fun q hq => h q (mem_fields.mpr (.inr (.inl hq))),
      fun s hs => h s (mem_fields.mpr (.inl hs))⟩

theorem fields_injective (h : t.fields = u.fields) : t = u := by
  obtain ⟨q, a, b, p, c, d, d1, d2⟩ := t
  obtain ⟨q', a', b', p', c', d', d1', d2'⟩ := u
  simp only [fields, List.cons.injEq, and_true] at h
  obtain ⟨rfl, rfl, rfl, rfl, rfl, rfl, h1, h2⟩ := h
  rw [Dir.letter_injective h1, Dir.letter_injective h2]

/-! ## From a transition to its line and back -/

theorem Tokenized.holds_line (h : t.Tokenized) : Holds t.line t :=
  dividesInto_spaced (List.cons_ne_nil _ _) fun f hf => (tokenized_iff_fields.mp h f hf).unspaced

theorem Tokenized.wellFormed_line (h : t.Tokenized) : WellFormed t.line := by
  refine ⟨t.fields, h.holds_line, rfl, ?_, ?_⟩
  · intro hempty
    exact (tokenized_iff_fields.mp h "" hempty).filled rfl
  · intro f hf
    simp only [fields, List.drop_succ_cons, List.drop_zero, List.mem_cons, List.not_mem_nil,
      or_false] at hf
    rcases hf with rfl | rfl <;> exact saysDirection_letter _

theorem Tokenized.readLine_line (h : t.Tokenized) : readLine t.line = .ok t := by
  obtain ⟨u, hread, hholds⟩ := exists_readLine_eq_ok h.wellFormed_line
  have hfields : u.fields = t.fields :=
    (pieces_eq_iff.mpr hholds).symm.trans (pieces_eq_iff.mpr h.holds_line)
  rw [hread, fields_injective hfields]

/-- What follows the first state on its line begins with a space. -/
theorem exists_line_eq (t : Transition) : ∃ rest, t.line.toList = t.state.toList ++ ' ' :: rest := by
  refine ⟨(spaced t.fields.tail).toList, ?_⟩
  rw [line, spaced, fields, String.intercalate_cons_of_ne_nil (List.cons_ne_nil _ _)]
  simp [spaced, List.append_assoc]

/-- A line is a comment only where its first state begins as one: two slashes hold no space. -/
theorem uncommented_line_iff :
    "//".toList <+: t.line.toList ↔ "//".toList <+: t.state.toList := by
  obtain ⟨rest, hline⟩ := t.exists_line_eq
  rw [hline]
  constructor
  · intro h
    rcases Nat.lt_or_ge t.state.toList.length "//".toList.length with hlt | hle
    · have hspace : t.state.toList ++ [' '] <+: "//".toList := by
        refine List.prefix_of_prefix_length_le ⟨rest, by simp⟩ h ?_
        rw [List.length_append]
        exact hlt
      exact absurd (hspace.subset (List.mem_append_right _ (List.mem_singleton_self ' ')))
        (by decide)
    · exact List.prefix_of_prefix_length_le h (List.prefix_append _ _) hle
  · intro h
    exact h.trans (List.prefix_append _ _)

theorem Listable.not_skipped (h : t.Listable) : ¬ Skipped t.line := by
  rintro (hempty | hcomment)
  · obtain ⟨rest, hline⟩ := t.exists_line_eq
    rw [hempty] at hline
    exact absurd (congrArg List.length hline) (by simp)
  · exact h.uncommented (uncommented_line_iff.mp hcomment)

/-- A line ends in the letter of a direction, so no carriage return is taken from it. -/
theorem dropReturn_line (t : Transition) : dropReturn t.line = t.line := by
  obtain ⟨front, hfront⟩ := exists_spaced_eq_append
    [t.state, t.read1, t.read2, t.next, t.write1, t.write2, t.dir1.letter] t.dir2.letter
  have hline : t.line = front ++ t.dir2.letter := hfront
  refine dropReturn_eq_iff.mpr (.inr ⟨rfl, ?_⟩)
  intro l hl
  have hreturn := getLast?_toList_eq_return_iff.mpr ⟨l, hl⟩
  rw [hline, String.toList_append] at hreturn
  cases hdir : t.dir2 <;> rw [hdir] at hreturn <;> simp [Dir.letter] at hreturn

end Transition

/-! ## From a text to its transitions -/

namespace TwoTape

theorem Holds.eq_fields {line : String} {t : Transition} (h : Holds line t) :
    Text.fields line = t.fields :=
  fields_eq_iff.mpr h

/-- A line that is neither skipped nor broken holds a transition that fits into a line. -/
theorem Holds.listable {line : String} {t : Transition} (h : Holds line t) (hwell : WellFormed line)
    (hskipped : ¬ Skipped line) (hfeed : '\n' ∉ line.toList) : t.Listable := by
  have hfilled : "" ∉ t.fields := by
    obtain ⟨fs, hfs, hfit⟩ := hwell
    rw [← h.eq_fields, fields_eq_iff.mpr hfs]
    exact hfit.filled
  have htokenized : t.Tokenized := by
    refine Transition.tokenized_iff_fields.mpr fun f hf => ⟨?_, h.unmarked f hf, ?_⟩
    · rintro rfl
      exact hfilled hf
    · intro hbroken
      exact hfeed ((h.mem_toList_iff (by decide)).mpr ⟨f, hf, hbroken⟩)
  refine ⟨htokenized, fun hcomment => hskipped (.inr ?_)⟩
  have hline : line = t.line := h.joined.symm
  rw [hline]
  exact Transition.uncommented_line_iff.mpr hcomment

theorem listable_of_readFrom {ls : List String} (hfeed : ∀ l ∈ ls, '\n' ∉ l.toList) {n : Nat}
    {ts : List Transition} (h : readFrom n ls = .ok ts) : ∀ t ∈ ts, t.Listable := by
  induction ls generalizing n ts with
  | nil =>
    obtain rfl : [] = ts := Except.ok.inj h
    exact fun t ht => absurd ht List.not_mem_nil
  | cons l rest ih =>
    obtain ⟨hl, hrest⟩ := List.forall_mem_cons.mp hfeed
    by_cases hskipped : Skipped l
    · rw [readFrom_cons_of_skipped n rest hskipped] at h
      exact ih hrest h
    · rw [readFrom_cons n rest hskipped] at h
      rcases readLine_cases l with ⟨t, hline, hholds, hwell⟩ | ⟨fault, hline, -⟩
      · rw [hline] at h
        cases hread : readFrom (n + 1) rest with
        | error e => rw [hread] at h; cases h
        | ok us =>
          rw [hread] at h
          obtain rfl : t :: us = ts := Except.ok.inj h
          exact List.forall_mem_cons.mpr ⟨hholds.listable hwell hskipped hl, ih hrest hread⟩
      · rw [hline] at h
        cases h

/-- Whatever is read from a text fits into a line. -/
theorem listable_of_parse {text : String} {ts : List Transition} (h : parse text = .ok ts) :
    ∀ t ∈ ts, t.Listable :=
  listable_of_readFrom (fun _ hl => not_mem_of_mem_map_dropReturn hl) (parse_eq_readFrom text ▸ h)

theorem readFrom_lines {ts : List Transition} (h : ∀ t ∈ ts, t.Listable) (n : Nat) :
    readFrom n (ts.map Transition.line) = .ok ts := by
  induction ts generalizing n with
  | nil => rfl
  | cons t rest ih =>
    obtain ⟨ht, hrest⟩ := List.forall_mem_cons.mp h
    rw [List.map_cons, readFrom_cons n _ ht.not_skipped, ht.readLine_line, ih hrest]
    rfl

theorem parse_listing {ts : List Transition} (h : ∀ t ∈ ts, t.Listable) :
    parse (Transition.listing ts) = .ok ts := by
  have hfeed : ∀ l ∈ ts.map Transition.line, '\n' ∉ l.toList := by
    intro l hl
    obtain ⟨t, ht, rfl⟩ := List.mem_map.mp hl
    exact not_mem_spaced (Transition.tokenized_iff_fields.mp (h t ht).toTokenized)
  have hlines : (lines (Transition.listing ts)).map dropReturn = ts.map Transition.line := by
    rw [Transition.listing, lines_unlines hfeed, List.map_map]
    refine List.map_congr_left fun t _ => ?_
    rw [Function.comp_apply, t.dropReturn_line]
  rw [parse_eq_readFrom, hlines, readFrom_lines h]

/-- **A listing is read back exactly when all its transitions fit into a line**: their states and
letters are filled and hold neither a space nor a line feed, and no source state begins with two
slashes. Transitions that were read from a text always fit, so writing them and reading them again
changes nothing, whatever comments, carriage returns and empty lines the text had. -/
theorem parse_listing_eq_ok_iff (ts : List Transition) :
    (parse (Transition.listing ts) = .ok ts ↔ ∀ t ∈ ts, t.Listable) ∧
      ∀ text, parse text = .ok ts →
        (∀ t ∈ ts, t.Listable) ∧ parse (Transition.listing ts) = parse text := by
  refine ⟨⟨listable_of_parse, parse_listing⟩, fun text h => ?_⟩
  have hlistable := listable_of_parse h
  exact ⟨hlistable, (parse_listing hlistable).trans h.symm⟩

/-- A comment, a transition with slashes and a carriage return in its tokens, and an empty line. -/
def slashedText : String := "// swap\r\nq\r / // p 1 /\r R L\r\n\r\n"

def slashed : List Transition := [⟨"q\r", "/", "//", "p", "1", "/\r", .right, .left⟩]

theorem parse_listing_eq_ok_iff_slashed :
    parse slashedText = .ok slashed ∧ (∀ t ∈ slashed, t.Listable) ∧
      parse (Transition.listing slashed) = parse slashedText := by
  have hparse : parse slashedText = .ok slashed := by decide +kernel
  exact ⟨hparse, (parse_listing_eq_ok_iff slashed).2 slashedText hparse⟩

/-- The line of a state that begins with two slashes is read as a comment. -/
example : parse (Transition.listing [⟨"//q", "0", "0", "p", "1", "1", .right, .left⟩]) = .ok [] := by
  decide +kernel

end TwoTape

end Multitrack
