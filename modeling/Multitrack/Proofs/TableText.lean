import Mathlib.Tactic
import Multitrack.Proofs.Lookup
import Multitrack.Proofs.ReadBack

/-! # The text of a table can be read back

A name is wrapped in parentheses and made of a tag, marks and escaped parts, none of which is a space or
a line feed of its own. So where the letters and states of a machine can stand as fields, every name of
the construction can, and each line of the produced table divides into the five fields of its row. The
text then determines the rows. -/
namespace Multitrack

open Multitrack.Text

/-! ## Names as fields -/

namespace Guard

variable (g : Guard)

theorem mem_escape {c : Char} {s : String} (h : c ∈ (escape s).toList) : c = '\\' ∨ c ∈ s.toList := by
  rw [toList_escape, escapeChars, List.mem_flatMap] at h
  obtain ⟨x, hx, hc⟩ := h
  split at hc
  · rcases List.mem_cons.mp hc with rfl | hc
    · exact .inl rfl
    · exact .inr (List.mem_singleton.mp hc ▸ hx)
  · exact .inr (List.mem_singleton.mp hc ▸ hx)

theorem mem_joinParts {c : Char} {parts : List String} (h : c ∈ (joinParts parts).toList) :
    c ∈ [':', ',', '\\'] ∨ ∃ p ∈ parts, c ∈ p.toList := by
  cases parts with
  | nil => exact absurd h List.not_mem_nil
  | cons p rest =>
    rw [joinParts, String.toList_append, List.mem_append] at h
    · rcases h with h | h
      · obtain rfl : c = ':' := by simpa using h
        exact .inl (by decide)
      · by_cases hcomma : c = ','
        · exact .inl (by simp [hcomma])
        · obtain ⟨q, hq, hc⟩ := (mem_toList_intercalate hcomma).mp h
          obtain ⟨s, hs, rfl⟩ := List.mem_map.mp hq
          rcases mem_escape hc with rfl | hc
          · exact .inl (by decide)
          · exact .inr ⟨s, hs, hc⟩
    · exact List.cons_ne_nil _ _

/-- A character of a name is one of the marks, or it stands in the tag or in a part. -/
theorem mem_wrap {c : Char} {tag : String} {parts : List String}
    (h : c ∈ (g.wrap tag parts).toList) :
    c ∈ ['(', ')', ':', ',', '\\'] ∨ c ∈ tag.toList ∨ ∃ p ∈ parts, c ∈ p.toList := by
  rw [toList_wrap, List.mem_append, List.mem_append, List.mem_append] at h
  rcases h with h | (h | h) | h
  · exact .inl (by simp [List.eq_of_mem_replicate h])
  · exact .inr (.inl h)
  · rcases mem_joinParts h with h | h
    · exact .inl (List.mem_cons_of_mem _ (List.mem_cons_of_mem _ h))
    · exact .inr (.inr h)
  · exact .inl (by simp [List.eq_of_mem_replicate h])

/-- A guarded name can stand as a field if its parts can. -/
theorem isToken_wrap {tag : String} {parts : List String} (htag : tag.toList.all isTagChar = true)
    (hparts : ∀ p ∈ parts, IsToken p) : IsToken (g.wrap tag parts) where
  filled h := by
    have hdepth := g.depth_le_openParens_wrap tag parts
    rw [h] at hdepth
    exact absurd g.positive (Nat.not_lt.mpr hdepth)
  unspaced h := by
    rcases g.mem_wrap h with h | h | ⟨p, hp, h⟩
    · exact absurd h (by decide)
    · exact absurd (List.all_eq_true.mp htag _ h) (by decide)
    · exact (hparts p hp).unspaced h
  unbroken h := by
    rcases g.mem_wrap h with h | h | ⟨p, hp, h⟩
    · exact absurd h (by decide)
    · exact absurd (List.all_eq_true.mp htag _ h) (by decide)
    · exact (hparts p hp).unbroken h

theorem mem_moveParts {p : String} {letters : List Letter} {dirs : List Dir}
    (h : p ∈ moveParts letters dirs) : p ∈ letters ∨ ∃ d : Dir, p = d.letter := by
  fun_induction moveParts letters dirs with
  | case1 dirs => exact absurd h List.not_mem_nil
  | case2 s letters ih =>
    rcases List.mem_cons.mp h with rfl | h
    · exact .inl List.mem_cons_self
    · exact (ih h).imp_left (List.mem_cons_of_mem _)
  | case3 s letters d dirs ih =>
    rcases List.mem_cons.mp h with rfl | h
    · exact .inl List.mem_cons_self
    · rcases List.mem_cons.mp h with rfl | h
      · exact .inr ⟨d, rfl⟩
      · exact (ih h).imp_left (List.mem_cons_of_mem _)

/-- A control state has a name that can stand as a field if its letters can. -/
theorem isToken_control {c : Control} (h : ∀ s ∈ c.letters, IsToken s) : IsToken (g.control c) := by
  by_cases hfixed : c.phase.fixed = true
  · rw [g.control_eq_fixedName hfixed]
    rcases Phase.eq_of_fixed hfixed with hp | hp | hp <;> rw [hp] <;> decide
  · rw [g.control_eq_wrap (by simpa using hfixed)]
    refine g.isToken_wrap c.all_isTagChar_tag fun p hp => ?_
    have hmoves : p ∈ moveParts c.letters c.dirs → IsToken p := by
      intro hp
      rcases mem_moveParts hp with hp | ⟨d, rfl⟩
      · exact h p hp
      · exact isToken_letter d
    unfold Control.parts at hp
    split at hp
    · exact h p hp
    · exact h p hp
    · exact h p hp
    · exact hmoves hp
    · exact hmoves hp
    · exact hmoves hp
    · exact hmoves hp
    · exact absurd hp List.not_mem_nil

end Guard

/-! ## Machines over tokens -/

structure Signature.Tokenized (sig : Signature) : Prop where
  letters : ∀ s ∈ sig.alphabet, IsToken s
  states : ∀ q ∈ sig.states, IsToken q

theorem Signature.tokenized_ofTransitions {ts : List Transition} (h : ∀ t ∈ ts, t.Tokenized) :
    (ofTransitions ts).Tokenized where
  letters s hs := by
    rcases mem_alphabet.mp hs with rfl | hs
    · decide
    · obtain ⟨⟨t, ht, hst⟩, -⟩ := mem_nonBlank.mp hs
      exact (h t ht).letters s hst
  states q hq := by
    rcases mem_states.mp hq with rfl | ⟨t, ht, hqt⟩
    · decide
    · exact (h t ht).states q hqt

theorem Guard.isToken_cell (g : Guard) {sig : Signature} (hsig : sig.Tokenized) {cell : Cell}
    (h : cell.Over sig) : IsToken (g.cell cell) := by
  cases h with
  | plain letter => exact hsig.letters _ letter
  | tracked first second tag =>
    rw [Guard.cell_tracked]
    refine g.isToken_wrap (by decide) fun p hp => ?_
    simp only [List.mem_cons, List.not_mem_nil, or_false] at hp
    rcases hp with rfl | rfl | rfl
    · exact hsig.letters _ first
    · exact hsig.letters _ second
    · obtain ⟨_ | _, _ | _⟩ := tag <;> decide
  | anchor state =>
    rw [Guard.cell_anchor]
    split
    · exact g.isToken_wrap (by decide) (List.forall_mem_nil _)
    · refine g.isToken_wrap (by decide) fun p hp => ?_
      rw [List.mem_singleton.mp hp]
      exact hsig.states _ state

/-! ## The rows of a reduction -/

theorem Stage.Over.mem_alphabet {sig : Signature} (hsig : sig.Proper) {s : Stage} (h : s.Over sig) :
    ∀ l ∈ s.control.letters, l ∈ sig.alphabet := by
  have hrest : ∀ {rest : Option Action}, (∀ a ∈ rest, a ∈ sig.actions) →
      ∀ l ∈ rest.toList.map Action.letter, l ∈ sig.alphabet := by
    intro rest hrest l hl
    obtain ⟨a, ha, rfl⟩ := List.mem_map.mp hl
    exact Signature.mem_actions.mp (hrest a (Option.mem_toList.mp ha))
  cases s with
  | carry held =>
    intro l hl
    rw [List.mem_singleton.mp hl]
    exact hsig.mem_alphabet h
  | scan k =>
    obtain ⟨hfirst, hsecond⟩ := h
    obtain ⟨_ | a, _ | b⟩ := k
    · exact List.forall_mem_nil _
    · exact List.forall_mem_singleton.mpr (hsecond b rfl)
    · exact List.forall_mem_singleton.mpr (hfirst a rfl)
    · exact List.forall_mem_cons.mpr ⟨hfirst a rfl, List.forall_mem_singleton.mpr (hsecond b rfl)⟩
  | seek p =>
    cases p with
    | both first second =>
      exact List.forall_mem_cons.mpr ⟨Signature.mem_actions.mp h.1,
        List.forall_mem_singleton.mpr (Signature.mem_actions.mp h.2)⟩
    | only head action => exact List.forall_mem_singleton.mpr (Signature.mem_actions.mp h)
  | stepLeft head rest | stepRight head rest | clamp head rest => exact hrest h
  | start | shiftBack | pack | packBack | place | rewind => exact List.forall_mem_nil _

structure Rule.Over (sig : Signature) (r : Rule) : Prop where
  source : ∀ l ∈ r.source.letters, l ∈ sig.alphabet
  read : r.read.Over sig
  target : ∀ l ∈ r.target.letters, l ∈ sig.alphabet
  write : r.write.Over sig

theorem Transition.over_fireRule? {ts : List Transition} {t : Transition} (ht : t ∈ ts) {r : Rule}
    (h : t.fireRule? = some r) : r.Over (.ofTransitions ts) := by
  have hsig := Signature.proper_ofTransitions ts
  have hletter : ∀ {s : Letter}, s ∈ t.letters → s ∈ (Signature.ofTransitions ts).alphabet :=
    fun hs => Signature.mem_alphabet_of_letters ht hs
  have hstate : ∀ {q : StateName}, q ∈ t.states → q ∈ (Signature.ofTransitions ts).states :=
    fun hq => Signature.mem_states.mpr (.inr ⟨t, ht, hq⟩)
  have hfire : t.fireStage.Over (.ofTransitions ts) :=
    ⟨fun s hs => Option.some.inj hs ▸ hletter (by simp [letters]),
      fun s hs => Option.some.inj hs ▸ hletter (by simp [letters])⟩
  obtain ⟨hs, -⟩ := fireRule?_spec h
  have hread : (Cell.anchor t.state).Over (.ofTransitions ts) := .anchor (hstate (by simp [states]))
  cases hn : isHalting t.next with
  | false =>
    rw [fireRule?_of_not_halting hs hn] at h
    cases h
    exact ⟨hfire.mem_alphabet hsig, hread, (over_seekStage ht).mem_alphabet hsig,
      .anchor (hstate (by simp [states]))⟩
  | true =>
    obtain ⟨c, hc, -⟩ := Control.halting?_eq_some hn
    rw [fireRule?_of_halting hs hc] at h
    cases h
    refine ⟨hfire.mem_alphabet hsig, hread, ?_, hsig.over_sentinel⟩
    rw [Control.letters_of_halting? hc]
    exact List.forall_mem_nil _

/-- **The construction makes up no letter and no state.** -/
theorem over_of_mem_enteredRules {ts : List Transition} {r : Rule} (h : r ∈ enteredRules ts) :
    r.Over (.ofTransitions ts) := by
  have hsig := Signature.proper_ofTransitions ts
  rcases mem_enteredRules.mp h with ⟨s, cell, hmeets, rfl⟩ | ⟨t, ht, hfire⟩
  · obtain ⟨s', htarget, hover⟩ := hmeets.exists_target hsig
    refine ⟨?_, ?_, ?_, hmeets.over_write hsig⟩
    · rw [s.source_rule]
      exact hmeets.over.mem_alphabet hsig
    · rw [s.read_rule]
      exact hmeets.over_cell hsig
    · rw [htarget]
      exact hover.mem_alphabet hsig
  · exact Transition.over_fireRule? ht hfire

/-- Every field of a produced row can stand as one. -/
theorem isToken_of_mem_reduce {ts : List Transition} (h : ∀ t ∈ ts, t.Tokenized) {row : Row}
    (hrow : row ∈ reduce ts) : ∀ f ∈ row.fields, IsToken f := by
  have hsig := Signature.tokenized_ofTransitions h
  rw [reduce_eq_map] at hrow
  obtain ⟨r, hr, rfl⟩ := List.mem_map.mp hrow
  have hover := over_of_mem_enteredRules (mem_rules_bookOf.mp hr)
  intro f hf
  simp only [Row.fields, Guard.row, List.mem_cons, List.not_mem_nil, or_false] at hf
  rcases hf with rfl | rfl | rfl | rfl | rfl
  · exact Guard.isToken_control _ fun s hs => hsig.letters s (hover.source s hs)
  · exact Guard.isToken_cell _ hsig hover.read
  · exact Guard.isToken_control _ fun s hs => hsig.letters s (hover.target s hs)
  · exact Guard.isToken_cell _ hsig hover.write
  · exact isToken_letter r.dir

/-! ## Lines and rows -/

namespace Row

variable {row row' : Row} {rows rows' : List Row}

theorem fields_injective (h : row.fields = row'.fields) : row = row' := by
  obtain ⟨q, s, p, w, d⟩ := row
  obtain ⟨q', s', p', w', d'⟩ := row'
  simp only [fields, List.cons.injEq, and_true] at h
  obtain ⟨rfl, rfl, rfl, rfl, hd⟩ := h
  rw [Dir.letter_injective hd]

theorem fields_line (h : ∀ f ∈ row.fields, IsToken f) : Text.fields row.line = row.fields :=
  fields_spaced (List.cons_ne_nil _ _) fun f hf => (h f hf).unspaced

theorem dividesInto_listing (h : ∀ row ∈ rows, ∀ f ∈ row.fields, IsToken f) :
    DividesInto '\n' (listing rows) (rows.map line ++ [""]) := by
  refine dividesInto_unlines fun l hl => ?_
  obtain ⟨row, hrow, rfl⟩ := List.mem_map.mp hl
  exact not_mem_spaced (h row hrow)

/-- Rows whose fields can stand as such are determined by their text. -/
theorem listing_injective (h : ∀ row ∈ rows, ∀ f ∈ row.fields, IsToken f)
    (h' : ∀ row ∈ rows', ∀ f ∈ row.fields, IsToken f) (heq : listing rows = listing rows') :
    rows = rows' := by
  have hdivides := dividesInto_listing h
  rw [heq] at hdivides
  have hpieces : rows.map line ++ [""] = rows'.map line ++ [""] :=
    (pieces_eq_iff.mpr hdivides).symm.trans (pieces_eq_iff.mpr (dividesInto_listing h'))
  have hread : ∀ {rows : List Row}, (∀ row ∈ rows, ∀ f ∈ row.fields, IsToken f) →
      (rows.map line).map Text.fields = rows.map fields := by
    intro rows h
    rw [List.map_map]
    refine List.map_congr_left fun row hrow => ?_
    rw [Function.comp_apply, fields_line (h row hrow)]
  have hfields := congrArg (List.map Text.fields) (List.append_cancel_right hpieces)
  rw [hread h, hread h'] at hfields
  exact List.map_injective_iff.mpr (fun _ _ => fields_injective) hfields

end Row

/-- **The text of a produced table is read back without ambiguity.** Where every state and letter of a
machine is filled and holds neither a space nor a line feed, the text has one line for each row, in
order and ended by a line feed, and the line divides into the five fields of the row, none of them
empty. So two such machines have one text only if they have the same rows. Every listing that can be
read gives such a machine. -/
theorem listing_reduce_read_back :
    (∀ ts : List Transition, (∀ t ∈ ts, t.Tokenized) →
      ∃ ls, DividesInto '\n' (Row.listing (reduce ts)) (ls ++ [""]) ∧
        List.Forall₂ (fun l row => Text.fields l = row.fields ∧ "" ∉ row.fields) ls (reduce ts)) ∧
    (∀ ts us : List Transition, (∀ t ∈ ts, t.Tokenized) → (∀ t ∈ us, t.Tokenized) →
      Row.listing (reduce ts) = Row.listing (reduce us) → reduce ts = reduce us) ∧
    ∀ text ts, TwoTape.parse text = .ok ts → ∀ t ∈ ts, t.Tokenized := by
  have htokens : ∀ {ts : List Transition}, (∀ t ∈ ts, t.Tokenized) →
      ∀ row ∈ reduce ts, ∀ f ∈ row.fields, IsToken f :=
    fun h row hrow => isToken_of_mem_reduce h hrow
  refine ⟨fun ts h => ?_, fun ts us h h' => Row.listing_injective (htokens h) (htokens h'), ?_⟩
  · refine ⟨(reduce ts).map Row.line, Row.dividesInto_listing (htokens h), ?_⟩
    rw [List.forall₂_map_left_iff, List.forall₂_same]
    intro row hrow
    exact ⟨Row.fields_line (htokens h row hrow), fun hf => (htokens h row hrow "" hf).filled rfl⟩
  · intro text ts h t ht
    exact (TwoTape.listable_of_parse h t ht).toTokenized

/-- A machine that accepts at once, with a direction that comes to nothing. -/
def accepting (d : Dir) : List Transition := [⟨startState, "0", "0", acceptState, "0", "0", d, d⟩]

theorem listing_reduce_read_back_accepting :
    (∃ ls, DividesInto '\n' (Row.listing (reduce TwoTape.slashed)) (ls ++ [""]) ∧
      List.Forall₂ (fun l row => Text.fields l = row.fields ∧ "" ∉ row.fields) ls
        (reduce TwoTape.slashed)) ∧
    accepting .stay ≠ accepting .left ∧ reduce (accepting .stay) = reduce (accepting .left) := by
  obtain ⟨hlines, hrows, hparse⟩ := listing_reduce_read_back
  have hslashed := hparse TwoTape.slashedText TwoTape.slashed (by decide +kernel)
  have htokens : ∀ d : Dir, ∀ t ∈ accepting d, t.Tokenized := by
    intro d t ht
    rw [List.mem_singleton.mp ht]
    cases d <;> exact ⟨by decide, by decide⟩
  have hsig : Signature.ofTransitions (accepting .stay) = Signature.ofTransitions (accepting .left) :=
    by decide +kernel
  have hentered : enteredRules (accepting .stay) = enteredRules (accepting .left) := by
    rw [enteredRules, enteredRules, hsig]
    rfl
  refine ⟨hlines _ hslashed, by decide, hrows _ _ (htokens .stay) (htokens .left) ?_⟩
  rw [reduce_eq_map, reduce_eq_map, bookOf, bookOf, hentered, hsig]

end Multitrack
