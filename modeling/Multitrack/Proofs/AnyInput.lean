import Mathlib.Tactic
import Multitrack.Proofs.Progress

/-! # The layout of any input

An input can be any list of tokens. Followed by blanks it begins with two words without blanks, either
of them perhaps empty, and a blank after each. If the letters of both words are known, the layout
joins and packs them and leaves alone whatever comes after. A token that is not known stops the
layout where it is first met: the stages that read the input have rows for letters of the alphabet
only, even if the token looks like a name that was made up. -/
namespace Multitrack

open Multitrack.Configuration

/-! ## The two words of an input -/

/-- The input, followed by blanks, is two words without blanks and a blank after each, and then
something. -/
structure Words (input u v : List Letter) : Prop where
  first : blank ∉ u
  second : blank ∉ v
  spelled : ∃ pad rest, input ++ List.replicate pad blank = u ++ blank :: v ++ blank :: rest

namespace Words

variable {input u v : List Letter}

/-- A blank after a list ends its first word, if no other does. -/
theorem exists_word (l : List Letter) : ∃ u rest, blank ∉ u ∧ l ++ [blank] = u ++ blank :: rest := by
  induction l with
  | nil => exact ⟨[], [], List.not_mem_nil, rfl⟩
  | cons s rest ih =>
    by_cases hs : s = blank
    · exact ⟨[], rest ++ [blank], List.not_mem_nil, hs ▸ rfl⟩
    · obtain ⟨u, r, hu, hr⟩ := ih
      refine ⟨s :: u, r, ?_, congrArg (s :: ·) hr⟩
      rw [List.mem_cons, not_or]
      exact ⟨Ne.symm hs, hu⟩

theorem exists_words (input : List Letter) : ∃ u v, Words input u v := by
  obtain ⟨u, r, hu, hr⟩ := exists_word input
  obtain ⟨v, rest, hv, hrest⟩ := exists_word r
  refine ⟨u, v, hu, hv, 2, rest, ?_⟩
  calc input ++ List.replicate 2 blank
      = input ++ [blank] ++ [blank] := (List.append_assoc input [blank] [blank]).symm
    _ = u ++ blank :: (r ++ [blank]) := by rw [hr, List.append_assoc, List.cons_append]
    _ = u ++ blank :: v ++ blank :: rest := by rw [hrest, List.append_assoc, List.cons_append]

/-- Each word ends at the first blank, so no other two words spell the same. -/
theorem unique {u' v' : List Letter} (h : Words input u v) (h' : Words input u' v') :
    u = u' ∧ v = v' := by
  obtain ⟨pad, rest, hs⟩ := h.spelled
  obtain ⟨pad', rest', hs'⟩ := h'.spelled
  have heq : u ++ blank :: (v ++ blank :: (rest ++ List.replicate pad' blank)) =
      u' ++ blank :: (v' ++ blank :: (rest' ++ List.replicate pad blank)) := by
    calc u ++ blank :: (v ++ blank :: (rest ++ List.replicate pad' blank))
        = input ++ List.replicate pad blank ++ List.replicate pad' blank := by simp [hs]
      _ = input ++ List.replicate pad' blank ++ List.replicate pad blank := by
          simp only [List.append_assoc, List.replicate_append_replicate, Nat.add_comm]
      _ = u' ++ blank :: (v' ++ blank :: (rest' ++ List.replicate pad blank)) := by simp [hs']
  obtain ⟨hu, htail⟩ := split_at_mark h.first h'.first (by simp) (by simp) heq
  obtain ⟨hv, -⟩ := split_at_mark h.second h'.second (by simp) (by simp) (List.cons.inj htail).2
  exact ⟨hu, hv⟩

/-- A word followed by blanks only is the first one, and the second is empty. -/
theorem of_replicate (hu : blank ∉ u) (j : Nat) : Words (u ++ List.replicate j blank) u [] := by
  refine ⟨hu, List.not_mem_nil, 2, List.replicate j blank, ?_⟩
  rw [List.append_assoc, List.replicate_append_replicate, List.append_assoc]
  rfl

/-! ## Letters on the tape -/

theorem exists_getD_eq (h : Words input u v) : ∃ rest, ∀ i,
    input.getD i blank = (u ++ blank :: v ++ blank :: rest).getD i blank := by
  obtain ⟨pad, rest, hs⟩ := h.spelled
  refine ⟨rest, fun i => ?_⟩
  rw [← hs, getD_append_blanks]

theorem getD_first (h : Words input u v) {i : Nat} (hi : i < u.length) :
    input.getD i blank = u[i] := by
  obtain ⟨rest, hrest⟩ := h.exists_getD_eq
  rw [hrest, List.append_assoc, List.getD_append _ _ _ _ hi, List.getD_eq_getElem _ _ hi]

theorem getD_first_end (h : Words input u v) : input.getD u.length blank = blank := by
  obtain ⟨rest, hrest⟩ := h.exists_getD_eq
  rw [hrest, List.append_assoc, List.getD_append_right _ _ _ _ (Nat.le_refl _), Nat.sub_self]
  rfl

theorem getD_second (h : Words input u v) {i : Nat} (hi : i < v.length) :
    input.getD (u.length + 1 + i) blank = v[i] := by
  obtain ⟨rest, hrest⟩ := h.exists_getD_eq
  rw [hrest, List.append_assoc, List.getD_append_right _ _ _ _ (by omega),
    show u.length + 1 + i - u.length = i + 1 by omega, List.cons_append, List.getD_cons_succ,
    List.getD_append _ _ _ _ hi, List.getD_eq_getElem _ _ hi]

theorem getD_second_end (h : Words input u v) :
    input.getD (u.length + 1 + v.length) blank = blank := by
  obtain ⟨rest, hrest⟩ := h.exists_getD_eq
  rw [hrest, List.append_assoc, List.getD_append_right _ _ _ _ (by omega),
    show u.length + 1 + v.length - u.length = v.length + 1 by omega, List.cons_append,
    List.getD_cons_succ, List.getD_append_right _ _ _ _ (Nat.le_refl _), Nat.sub_self]
  rfl

/-- Without the blank between them the words are joined. -/
theorem closeGap_eq (h : Words input u v) {i : Nat} (hi : i < (u ++ v).length) :
    closeGap (input.getD · blank) u.length i = (u ++ v)[i] := by
  rw [List.length_append] at hi
  rw [closeGap]
  split
  · rename_i hlt
    rw [h.getD_first hlt, List.getElem_append_left hlt]
  · rename_i hge
    have hsecond := h.getD_second (show i - u.length < v.length by omega)
    rw [show u.length + 1 + (i - u.length) = i + 1 by omega] at hsecond
    rw [hsecond, List.getElem_append_right (Nat.not_lt.mp hge)]

theorem closeGap_end (h : Words input u v) :
    closeGap (input.getD · blank) u.length (u ++ v).length = blank := by
  rw [closeGap, if_neg (by simp), List.length_append, Nat.add_right_comm]
  exact h.getD_second_end

end Words

/-! ## Inputs over the alphabet -/

/-- The layout has ended: the words are packed behind the sentinel, both heads are on the first
tracked cell, and the cells beyond are as they were. -/
structure Prepared (ts : List Transition) (input u v : List Letter) (c : Configuration Tape) :
    Prop where
  state_eq : c.state = (Signature.ofTransitions ts).guard.control (.locating 0 [])
  steps_eq : c.steps = 4 * u.length + 2 * v.length + 4
  head_eq : c.tapes.head = 1
  sentinel : c.tapes.letter 0 = (Signature.ofTransitions ts).guard.cell .sentinel
  packed : ∀ i, ∀ h : i < (u ++ v).length, c.tapes.letter (i + 1) =
    (Signature.ofTransitions ts).guard.cell
      (.tracked (u ++ v)[i] blank (if i = 0 then .both else .none))
  empty : u ++ v = [] →
    c.tapes.letter 1 = (Signature.ofTransitions ts).guard.cell (.tracked blank blank .both)
  beyond : ∀ i, max 1 (u ++ v).length < i → c.tapes.letter i = input.getD i blank

namespace Words

variable {ts : List Transition} {input u v : List Letter}

/-- No letter of the words is blank. -/
theorem mem_nonBlank_iff (h : Words input u v) {s : Letter} (hs : s ∈ u ++ v) :
    s ∈ (Signature.ofTransitions ts).nonBlank ↔ s ∈ (Signature.ofTransitions ts).alphabet := by
  refine ⟨(Signature.proper_ofTransitions ts).mem_alphabet, fun hmem => ?_⟩
  refine (Signature.mem_alphabet.mp hmem).resolve_left ?_
  rintro rfl
  exact (List.mem_append.mp hs).elim h.first h.second

theorem run_layout (h : Words input u v)
    (hletters : ∀ s ∈ u ++ v, s ∈ (Signature.ofTransitions ts).alphabet) :
    View.Run (.ofTransitions ts) .layout (4 * u.length + 2 * v.length + 4)
      ⟨.start, 0, fun i => .plain (input.getD i blank)⟩
      ⟨.scan .empty, 1, laidOut (closeGap (input.getD · blank) u.length) (u.length + v.length)⟩ := by
  have hknown : ∀ s ∈ u ++ v, s ∈ (Signature.ofTransitions ts).nonBlank :=
    fun s hs => (h.mem_nonBlank_iff hs).mpr (hletters s hs)
  refine Multitrack.run_layout (Signature.proper_ofTransitions ts) (fun i hi => ?_) h.getD_first_end
    (fun i hi => ?_) h.getD_second_end
  · rw [h.getD_first hi]
    exact hknown _ (List.mem_append_left _ (List.getElem_mem hi))
  · rw [h.getD_second hi]
    exact hknown _ (List.mem_append_right _ (List.getElem_mem hi))

theorem prepared (h : Words input u v)
    (hletters : ∀ s ∈ u ++ v, s ∈ (Signature.ofTransitions ts).alphabet) :
    Prepared ts input u v ((emulator ts).after input (4 * u.length + 2 * v.length + 4)) := by
  have hshown := (Ordinary.shownBy_initial ts input).run (h.run_layout hletters)
  have hlen : (u ++ v).length = u.length + v.length := List.length_append
  have hsteps : ((emulator ts).after input (4 * u.length + 2 * v.length + 4)).steps =
      0 + (4 * u.length + 2 * v.length + 4) := steps_iterate hshown.halted_eq
  refine ⟨hshown.state_eq, by rw [hsteps, Nat.zero_add], hshown.head_eq, hshown.letter_eq 0, ?_, ?_, ?_⟩
  · intro i hi
    refine (hshown.letter_eq (i + 1)).trans (congrArg _ ?_)
    rw [← h.closeGap_eq hi]
    exact laidOut_of_lt (hlen ▸ hi)
  · intro hempty
    have hend := h.closeGap_end
    rw [hempty, List.length_nil] at hend
    refine (hshown.letter_eq 1).trans (congrArg _ ?_)
    exact congrArg (Cell.tracked · blank .both) hend
  · intro i hi
    obtain ⟨j, rfl⟩ : ∃ j, i = j + 1 := ⟨i - 1, by omega⟩
    refine (hshown.letter_eq (j + 1)).trans ((congrArg _ (laidOut_of_le (by omega))).trans ?_)
    rw [Guard.cell_plain, closeGap, if_neg (by omega)]

end Words

/-! ## Tokens outside of the alphabet -/

/-- The layout has met a token that is not a letter of the alphabet, in a stage that reads letters. -/
structure View.AtForeign (sig : Signature) (v : View) : Prop where
  part_eq : v.stage.part = .layout
  reads : ∀ cell, v.stage.Meets sig cell → ∃ a ∈ sig.alphabet, cell = .plain a
  foreign : ∃ s, s ∉ sig.alphabet ∧ v.cells v.pos = .plain s

/-- There is no row for a token that is not a letter, even if it is the name of a cell. -/
theorem View.ShownBy.stuck_of_atForeign {ts : List Transition} {v : View} {c : Configuration Tape}
    (h : v.ShownBy ts c) (hforeign : v.AtForeign (.ofTransitions ts)) : c.Stuck (emulator ts) := by
  obtain ⟨s, hs, hcell⟩ := hforeign.foreign
  refine ⟨h.halted_eq, ?_⟩
  rw [next?_emulator, Option.map_eq_none_iff, List.find?_eq_none, reduce_eq_map]
  intro row hrow
  obtain ⟨r, hr, rfl⟩ := List.mem_map.mp hrow
  simp only [decide_eq_true_eq, Guard.row, Row.key, Row.Key.mk.injEq, h.state_eq, h.read_eq, hcell,
    Guard.cell_plain, not_and]
  intro hstate hread
  rcases mem_enteredRules.mp (mem_rules_bookOf.mp hr) with ⟨s', cell, hm, rfl⟩ | ⟨t, -, ht⟩
  · rw [s'.source_rule] at hstate
    rw [Stage.name_injective _ hstate] at hm
    obtain ⟨a, ha, rfl⟩ := hforeign.reads cell hm
    rw [s'.read_rule, Guard.cell_plain] at hread
    exact hs (hread ▸ ha)
  · rw [(Transition.fireRule?_spec ht).2.1] at hstate
    have hpart := hforeign.part_eq
    rw [← Stage.name_injective _ hstate] at hpart
    cases hpart

section Foreign

variable {sig : Signature} (hsig : sig.Proper) {w : Nat → Letter} {n k : Nat}
include hsig

theorem exists_plain_of_meets {cell : Cell}
    (h : ∃ s, (s = blank ∨ s ∈ sig.nonBlank) ∧ cell = .plain s) :
    ∃ a ∈ sig.alphabet, cell = .plain a := by
  obtain ⟨s, rfl | hs, rfl⟩ := h
  · exact ⟨blank, hsig.blank_mem, rfl⟩
  · exact ⟨s, hsig.mem_alphabet hs, rfl⟩

/-- A token that is not known stops the carry in front of it. -/
theorem exists_atForeign_carry (hw : ∀ i < k, w i ∈ sig.nonBlank) (hs : w k ∉ sig.alphabet) :
    ∃ j v, View.Run sig .layout j ⟨.start, 0, fun i => .plain (w i)⟩ v ∧ v.AtForeign sig := by
  cases k with
  | zero =>
    exact ⟨0, _, .nil _, rfl, fun cell hm => exists_plain_of_meets hsig hm, w 0, hs, rfl⟩
  | succ k =>
    have hcarry := run_carry hsig fun i hi => hw i (Nat.lt_succ_of_le hi)
    exact ⟨_, _, (run_pickUp hsig (hw 0 (Nat.succ_pos k))).trans hcarry, rfl,
      fun cell hm => exists_plain_of_meets hsig hm.2, w (k + 1), hs, shifted_self w k⟩

/-- A token of the second word that is not known stops the packing in front of it. -/
theorem exists_atForeign_pack (hw : ∀ i < n, w i ∈ sig.nonBlank) (hn : w n = blank)
    (hk : ∀ i < k, closeGap w n i ∈ sig.nonBlank) (hs : closeGap w n k ∉ sig.alphabet) :
    ∃ j v, View.Run sig .layout j ⟨.start, 0, fun i => .plain (w i)⟩ v ∧ v.AtForeign sig := by
  have hshift := run_shift hsig hw hn
  rw [shifted_eq_packed] at hshift
  exact ⟨_, _, hshift.trans (run_pack hsig hk), rfl, fun cell hm => exists_plain_of_meets hsig hm,
    closeGap w n k, hs, packed_of_le (Nat.le_refl k)⟩

end Foreign

/-- Where a property fails below a bound it fails somewhere first. -/
theorem exists_first_failure {P : Nat → Prop} {n : Nat} (h : ∃ i < n, ¬ P i) :
    ∃ k < n, ¬ P k ∧ ∀ i < k, P i := by
  classical
  refine ⟨Nat.find h, (Nat.find_spec h).1, (Nat.find_spec h).2, fun i hi => ?_⟩
  by_contra hnot
  exact Nat.find_min h hi ⟨lt_trans hi (Nat.find_spec h).1, hnot⟩

namespace Words

variable {ts : List Transition} {input u v : List Letter}

theorem exists_atForeign (h : Words input u v)
    (hforeign : ∃ s ∈ u ++ v, s ∉ (Signature.ofTransitions ts).alphabet) :
    ∃ j view, View.Run (.ofTransitions ts) .layout j
      ⟨.start, 0, fun i => .plain (input.getD i blank)⟩ view ∧ view.AtForeign (.ofTransitions ts) := by
  have hsig := Signature.proper_ofTransitions ts
  by_cases hfirst : ∃ i < u.length, ¬ input.getD i blank ∈ (Signature.ofTransitions ts).nonBlank
  · obtain ⟨k, hk, hnot, hbefore⟩ := exists_first_failure hfirst
    refine exists_atForeign_carry hsig hbefore ?_
    rw [h.getD_first hk] at hnot ⊢
    exact mt (h.mem_nonBlank_iff (List.mem_append_left _ (List.getElem_mem hk))).mpr hnot
  · -- the first word is known, so that the joined words fail in the second
    have hu : ∀ i < u.length, input.getD i blank ∈ (Signature.ofTransitions ts).nonBlank := by
      intro i hi
      by_contra hnot
      exact hfirst ⟨i, hi, hnot⟩
    have hjoined : ∃ i < (u ++ v).length,
        ¬ closeGap (input.getD · blank) u.length i ∈ (Signature.ofTransitions ts).nonBlank := by
      obtain ⟨s, hs, hnot⟩ := hforeign
      obtain ⟨i, hi, rfl⟩ := List.getElem_of_mem hs
      refine ⟨i, hi, fun hmem => hnot ?_⟩
      rw [h.closeGap_eq hi] at hmem
      exact hsig.mem_alphabet hmem
    obtain ⟨k, hk, hnot, hbefore⟩ := exists_first_failure hjoined
    refine exists_atForeign_pack hsig hu h.getD_first_end hbefore ?_
    rw [h.closeGap_eq hk] at hnot ⊢
    exact mt (h.mem_nonBlank_iff (List.getElem_mem hk)).mpr hnot

/-- A run that meets a token that is not known is stuck there, and never looks for a head. -/
theorem stuck_of_foreign (h : Words input u v)
    (hforeign : ∃ s ∈ u ++ v, s ∉ (Signature.ofTransitions ts).alphabet) :
    (∃ n, ((emulator ts).after input n).Stuck (emulator ts) ∧
      ((emulator ts).after input (n + 1)).state = rejectState) ∧
    ∀ k, ((emulator ts).after input k).state ≠
      (Signature.ofTransitions ts).guard.control (.locating 0 []) := by
  obtain ⟨n, view, hrun, hview⟩ := h.exists_atForeign hforeign
  have hshown : view.ShownBy ts ((emulator ts).after input n) :=
    (Ordinary.shownBy_initial ts input).run hrun
  have hstuck := hshown.stuck_of_atForeign hview
  have hreject : ((emulator ts).after input (n + 1)).state = rejectState := by
    rw [Machine.after_succ, step_of_stuck hstuck.1 hstuck.2]
  refine ⟨⟨n, hstuck, hreject⟩, fun k => ?_⟩
  rcases Nat.lt_trichotomy k n with hk | rfl | hk
  · obtain ⟨w, hpart, hw⟩ := (Ordinary.shownBy_initial ts input).run_within hrun hk
    exact hw.state_ne_locating (hpart ▸ nofun)
  · exact hshown.state_ne_locating (hview.part_eq ▸ nofun)
  · -- a rejected run stays as it is
    have hhalted : ((emulator ts).after input (n + 1)).halted = true := by
      rw [halted, hreject]
      rfl
    intro hstate
    have hlast : (emulator ts).after input k = (emulator ts).after input (n + 1) :=
      iterate_eq_of_halted hk hhalted
    have hrunning := Stage.name_not_halting (Signature.ofTransitions ts).guard (.scan .empty)
    rw [hlast, hreject] at hstate
    exact absurd (hstate ▸ rfl) (Bool.eq_false_iff.mp hrunning)

end Words

/-- **What the layout does with any input.** The input begins with two words in one way only. If their
letters are known, the emulator is for the first time in the state that begins the sweep for letters
after four steps for each letter of the first word, two for each letter of the second, and four, and
the words are packed. If a token of theirs is not known, the emulator rejects for want of a row and
never gets there. An ordinary input is its first word, with nothing but blanks beyond. -/
theorem layout_of_any_input (ts : List Transition) (input : List Letter) :
    (∃! words : List Letter × List Letter, Words input words.1 words.2) ∧
    (∀ u v, Words input u v →
      ((∀ s ∈ u ++ v, s ∈ (Signature.ofTransitions ts).alphabet) →
        Prepared ts input u v ((emulator ts).after input (4 * u.length + 2 * v.length + 4)) ∧
        ∀ k < 4 * u.length + 2 * v.length + 4, ((emulator ts).after input k).state ≠
          (Signature.ofTransitions ts).guard.control (.locating 0 [])) ∧
      ((∃ s ∈ u ++ v, s ∉ (Signature.ofTransitions ts).alphabet) →
        (∃ n, ((emulator ts).after input n).Stuck (emulator ts) ∧
          ((emulator ts).after input (n + 1)).state = rejectState) ∧
        ∀ k, ((emulator ts).after input k).state ≠
          (Signature.ofTransitions ts).guard.control (.locating 0 []))) ∧
    ∀ u j, blank ∉ u → input = u ++ List.replicate j blank →
      Words input u [] ∧ ∀ i, u.length ≤ i → input.getD i blank = blank := by
  refine ⟨?_, fun u v h =>
    ⟨fun hletters => ⟨h.prepared hletters, fun k hk => ?_⟩, h.stuck_of_foreign⟩, ?_⟩
  · obtain ⟨u, v, h⟩ := Words.exists_words input
    refine ⟨(u, v), h, ?_⟩
    rintro ⟨u', v'⟩ h'
    obtain ⟨rfl, rfl⟩ := h.unique h'
    rfl
  · obtain ⟨w, hpart, hw⟩ :=
      (Ordinary.shownBy_initial ts input).run_within (h.run_layout hletters) hk
    exact hw.state_ne_locating (hpart ▸ nofun)
  · rintro u j hu rfl
    refine ⟨Words.of_replicate hu j, fun i hi => ?_⟩
    rw [getD_append_blanks, List.getD_eq_default _ _ hi]

/-- What stands behind the second word is not read, and a token that is the name of the sentinel does
not pass for one. -/
theorem layout_of_any_input_parting :
    Prepared parting ["a", blank, "a", blank, "z"] ["a"] ["a"]
      ((emulator parting).after ["a", blank, "a", blank, "z"] 10) ∧
    ∃ n, ((emulator parting).after
      ["a", blank, (Signature.ofTransitions parting).guard.cell .sentinel] (n + 1)).state =
        rejectState := by
  have hjoined : Words ["a", blank, "a", blank, "z"] ["a"] ["a"] :=
    ⟨by decide, by decide, 0, ["z"], rfl⟩
  have hforeign : Words ["a", blank, (Signature.ofTransitions parting).guard.cell .sentinel] ["a"]
      [(Signature.ofTransitions parting).guard.cell .sentinel] :=
    ⟨by decide, by decide, 1, [], rfl⟩
  obtain ⟨-, hlayout, -⟩ := layout_of_any_input parting ["a", blank, "a", blank, "z"]
  obtain ⟨-, hlayout', -⟩ := layout_of_any_input parting
    ["a", blank, (Signature.ofTransitions parting).guard.cell .sentinel]
  obtain ⟨⟨n, -, hreject⟩, -⟩ := (hlayout' _ _ hforeign).2 (by decide)
  exact ⟨((hlayout _ _ hjoined).1 (by decide)).1, n, hreject⟩

end Multitrack
