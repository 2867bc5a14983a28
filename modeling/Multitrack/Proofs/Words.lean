import Mathlib.Tactic
import Multitrack.Proofs.Pieces

/-! # Fields and words

A line is divided at every single space, and joining its fields by spaces gives it back. A text is
divided at blanks, however many stand together, so that the way back loses them. What is left of it are
its other characters in order, and two of them stay together exactly if no blank is between them. -/
namespace Multitrack.Text

/-! ## Pieces of a list -/

section Pieces

variable {α β : Type} {p : α → Bool}

theorem splitOnP_congr {q : α → Bool} {l : List α} (h : ∀ x ∈ l, p x = q x) :
    l.splitOnP p = l.splitOnP q := by
  induction l using split_induction (p := p) with
  | unmarked l hl =>
    have hl' : ∀ x ∈ l, q x = false := fun x hx => (h x hx).symm.trans (hl x hx)
    rw [List.splitOnP_eq_singleton hl, List.splitOnP_eq_singleton hl']
  | marked l sep rest hl hsep ih =>
    have hl' : ∀ x ∈ l, q x = false := by
      intro x hx
      rw [← h x (List.mem_append_left _ hx), hl x hx]
    have hsep' : q sep = true := by rw [← h sep (by simp), hsep]
    rw [List.splitOnP_append_cons_of_forall_mem hl sep hsep,
      List.splitOnP_append_cons_of_forall_mem hl' sep hsep', ih]
    exact fun x hx => h x (by simp [hx])

theorem splitOnP_map (f : β → α) (l : List β) :
    (l.map f).splitOnP p = (l.splitOnP (p ∘ f)).map (List.map f) := by
  induction l using split_induction (p := p ∘ f) with
  | unmarked l hl =>
    rw [List.splitOnP_eq_singleton hl, List.splitOnP_eq_singleton (by simpa using hl)]
    rfl
  | marked l sep rest hl hsep ih =>
    rw [List.splitOnP_append_cons_of_forall_mem hl sep hsep, List.map_append, List.map_cons,
      List.splitOnP_append_cons_of_forall_mem (by simpa using hl) (f sep) hsep, ih]
    rfl

/-- What has no mark in it stays in one piece. -/
theorem exists_piece_of_unmarked {middle : List α} (hmiddle : ∀ x ∈ middle, p x = false)
    (front back : List α) :
    ∃ piece ∈ (front ++ middle ++ back).splitOnP p, middle ⊆ piece := by
  induction front using split_induction (p := p) with
  | unmarked front hfront =>
    have hstart : ∀ x ∈ front ++ middle, p x = false := by
      intro x hx
      exact (List.mem_append.mp hx).elim (hfront x) (hmiddle x)
    -- the piece ends at the first mark after the middle part, or with the list
    induction back using split_induction (p := p) with
    | unmarked back hback =>
      refine ⟨front ++ middle ++ back, ?_, by simp⟩
      rw [List.splitOnP_eq_singleton fun x hx => (List.mem_append.mp hx).elim (hstart x) (hback x)]
      exact List.mem_singleton_self _
    | marked back sep rest hback hsep =>
      refine ⟨front ++ middle ++ back, ?_, by simp⟩
      rw [← List.append_assoc, List.splitOnP_append_cons_of_forall_mem
        (fun x hx => (List.mem_append.mp hx).elim (hstart x) (hback x)) sep hsep]
      exact List.mem_cons_self
  | marked front sep rest hfront hsep ih =>
    obtain ⟨piece, hpiece, hsubset⟩ := ih
    refine ⟨piece, ?_, hsubset⟩
    rw [List.append_assoc, List.append_assoc, List.cons_append,
      List.splitOnP_append_cons_of_forall_mem hfront sep hsep, ← List.append_assoc]
    exact List.mem_cons_of_mem _ hpiece

/-- A mark parts what stands before it from what stands after it. -/
theorem subset_or_subset_of_marked {front back piece : List α} {sep : α} (hsep : p sep = true)
    (h : piece ∈ (front ++ sep :: back).splitOnP p) : piece ⊆ front ∨ piece ⊆ back := by
  rw [List.splitOnP_append_cons front back hsep] at h
  rcases List.mem_append.mp h with h | h
  · exact .inl fun x hx => (mem_of_mem_splitOnP h hx).1
  · exact .inr fun x hx => (mem_of_mem_splitOnP h hx).1

end Pieces

/-- Positions are in one piece exactly if no mark stands between them. -/
theorem exists_piece_range_iff {p : Nat → Bool} {i j n : Nat} (hi : p i = false) (hj : p j = false)
    (hij : i < j) (hjn : j < n) :
    (∃ piece ∈ (List.range n).splitOnP p, i ∈ piece ∧ j ∈ piece) ↔
      ∀ k, i < k → k < j → p k = false := by
  have hrange : ∀ a b c, List.range (a + b + c) =
      List.range a ++ List.range' a b ++ List.range' (a + b) c := by
    intro a b c
    rw [List.range_eq_range', List.range_eq_range', ← List.range'_append_1, ← List.range'_append_1,
      Nat.zero_add, Nat.zero_add]
  constructor
  · rintro ⟨piece, hpiece, hipiece, hjpiece⟩ k hik hkj
    by_contra hunmarked
    have hk : p k = true := by simpa using hunmarked
    obtain ⟨rest, rfl⟩ := Nat.exists_eq_add_of_le (show k + 1 ≤ n by omega)
    rw [hrange, List.append_assoc] at hpiece
    rcases subset_or_subset_of_marked hk hpiece with hsubset | hsubset
    · have hjk := List.mem_range.mp (hsubset hjpiece)
      omega
    · have hki := List.mem_range'_1.mp (hsubset hipiece)
      omega
  · intro hbetween
    obtain ⟨gap, rfl⟩ := Nat.exists_eq_add_of_lt hij
    obtain ⟨rest, rfl⟩ := Nat.exists_eq_add_of_lt hjn
    have hmiddle : ∀ k ∈ List.range' i (gap + 2), p k = false := by
      intro k hk
      rw [List.mem_range'_1] at hk
      rcases Nat.eq_or_lt_of_le hk.1 with rfl | hik
      · exact hi
      · rcases Nat.eq_or_lt_of_le (show k ≤ i + gap + 1 by omega) with rfl | hkj
        · exact hj
        · exact hbetween k hik hkj
    obtain ⟨piece, hpiece, hsubset⟩ := exists_piece_of_unmarked hmiddle (List.range i)
      (List.range' (i + (gap + 2)) rest)
    rw [← hrange, show i + (gap + 2) + rest = i + gap + 1 + rest + 1 by omega] at hpiece
    exact ⟨piece, hpiece, hsubset (List.mem_range'_1.mpr (by omega)),
      hsubset (List.mem_range'_1.mpr (by omega))⟩

/-! ## Fields -/

/-- The fields of a line are the only texts without a space that are joined to it. For the empty line,
which has one empty field, the empty list is joined to it as well. -/
theorem spaced_eq_iff {line : String} {fs : List String} :
    (∀ f ∈ fs, ' ' ∉ f.toList) ∧ spaced fs = line ↔ fs = fields line ∨ fs = [] ∧ line = "" := by
  constructor
  · rintro ⟨hfs, rfl⟩
    by_cases hne : fs = []
    · subst hne
      exact .inr ⟨rfl, rfl⟩
    · exact .inl (fields_spaced hne hfs).symm
  · rintro (rfl | ⟨rfl, rfl⟩)
    · exact ⟨(dividesInto_fields line).unmarked, (dividesInto_fields line).joined⟩
    · exact ⟨by simp, rfl⟩

/-! ## Words -/

/-- A text that can be a word: it has characters, none of them blank. -/
structure IsWord (w : String) : Prop where
  filled : w ≠ ""
  unblank : ∀ c ∈ w.toList, isBlank c = false

theorem map_toList_words (text : String) :
    (words text).map String.toList = (text.toList.splitOnP isBlank).filter (· ≠ []) := by
  have hfilter : (fun cs => decide (cs ≠ [])) ∘ String.toList = fun w : String => decide (w ≠ "") := by
    funext w
    simp
  rw [words, pieces, ← hfilter, ← List.filter_map, List.map_map]
  simp [Function.comp_def]

theorem isWord_of_mem_words {text w : String} (h : w ∈ words text) : IsWord w := by
  have hmem : w.toList ∈ (text.toList.splitOnP isBlank).filter (· ≠ []) := by
    rw [← map_toList_words]
    exact List.mem_map_of_mem h
  obtain ⟨hpiece, hne⟩ := List.mem_filter.mp hmem
  exact ⟨by simpa using hne, fun c hc => (mem_of_mem_splitOnP hpiece hc).2⟩

/-- Only the blanks of a text are in none of its words. -/
theorem join_words (text : String) :
    String.join (words text) = String.ofList (text.toList.filter (!isBlank ·)) := by
  rw [← String.toList_inj, String.toList_join, List.flatMap_def, map_toList_words,
    List.flatten_filter_ne_nil, flatten_splitOnP, String.toList_ofList]

/-! ## Where words stand -/

def blankAt (text : String) (i : Nat) : Bool := text.toList[i]?.any isBlank

/-- Where the words stand in a text. Each of them is spelt by the characters at the positions of its run,
the runs together are the positions without a blank, in order, and two positions are of one run exactly
if no blank stands between them. -/
structure StandAt (text : String) (ws : List String) (runs : List (List Nat)) : Prop where
  spelt : ws.map (fun w => w.toList.map some) = runs.map fun run => run.map (text.toList[·]?)
  covered : runs.flatten = (List.range text.length).filter (!blankAt text ·)
  together : ∀ i ∈ runs.flatten, ∀ j ∈ runs.flatten, i < j →
    ((∃ run ∈ runs, i ∈ run ∧ j ∈ run) ↔ ∀ k, i < k → k < j → blankAt text k = false)

def runsBetweenBlanks (text : String) : List (List Nat) :=
  ((List.range text.length).splitOnP (blankAt text)).filter (· ≠ [])

theorem flatten_runsBetweenBlanks (text : String) :
    (runsBetweenBlanks text).flatten = (List.range text.length).filter (!blankAt text ·) := by
  rw [runsBetweenBlanks, List.flatten_filter_ne_nil, flatten_splitOnP]

theorem exists_run_iff {text : String} {i j : Nat} (hi : i ∈ (runsBetweenBlanks text).flatten)
    (hj : j ∈ (runsBetweenBlanks text).flatten) (hij : i < j) :
    (∃ run ∈ runsBetweenBlanks text, i ∈ run ∧ j ∈ run) ↔
      ∀ k, i < k → k < j → blankAt text k = false := by
  rw [flatten_runsBetweenBlanks, List.mem_filter, List.mem_range, Bool.not_eq_true'] at hi hj
  rw [← exists_piece_range_iff hi.2 hj.2 hij hj.1]
  constructor
  · rintro ⟨run, hrun, hmem⟩
    exact ⟨run, List.mem_of_mem_filter hrun, hmem⟩
  · rintro ⟨run, hrun, hmem⟩
    exact ⟨run, List.mem_filter.mpr ⟨hrun, by simpa using List.ne_nil_of_mem hmem.1⟩, hmem⟩

theorem map_runsBetweenBlanks (text : String) :
    (words text).map (fun w => w.toList.map some) =
      (runsBetweenBlanks text).map fun run => run.map (text.toList[·]?) := by
  have hletters : (List.range text.length).map (text.toList[·]?) = text.toList.map some := by
    rw [← String.length_toList]
    exact List.ext_getElem (by simp) (by simp)
  have hpieces : ((text.toList.splitOnP isBlank).map (List.map some)) =
      ((List.range text.length).splitOnP (blankAt text)).map (List.map (text.toList[·]?)) := by
    have hsome := splitOnP_map (p := Option.any isBlank) some text.toList
    have hplace := splitOnP_map (p := Option.any isBlank) (text.toList[·]?) (List.range text.length)
    rw [hletters] at hplace
    exact hsome.symm.trans hplace
  have hfilter : ∀ {γ : Type} (f : γ → Option Char) (css : List (List γ)),
      (css.filter (· ≠ [])).map (List.map f) = (css.map (List.map f)).filter (· ≠ []) := by
    intro γ f css
    rw [List.filter_map]
    simp [Function.comp_def]
  calc (words text).map (fun w => w.toList.map some)
      = ((words text).map String.toList).map (List.map some) := by simp [Function.comp_def]
    _ = ((text.toList.splitOnP isBlank).map (List.map some)).filter (· ≠ []) := by
      rw [map_toList_words, hfilter]
    _ = (runsBetweenBlanks text).map fun run => run.map (text.toList[·]?) := by
      rw [hpieces, ← hfilter]
      rfl

theorem standAt_words (text : String) : StandAt text (words text) (runsBetweenBlanks text) where
  spelt := map_runsBetweenBlanks text
  covered := flatten_runsBetweenBlanks text
  together _ hi _ hj hij := exists_run_iff hi hj hij

/-! ## Words of joined texts -/

/-- Where no other blanks than spaces stand, the words are the fields that are not empty. -/
theorem words_eq_filter_fields {text : String} (h : ∀ c ∈ text.toList, isBlank c = (c == ' ')) :
    words text = (fields text).filter (· ≠ "") := by
  rw [words, fields_eq_pieces, pieces, pieces, splitOnP_congr h]

theorem words_spaced {ts : List String} (h : ∀ t ∈ ts, IsWord t) : words (spaced ts) = ts := by
  by_cases hne : ts = []
  · subst hne
    rfl
  have hspaces : ∀ c ∈ (spaced ts).toList, isBlank c = (c == ' ') := by
    intro c hc
    by_cases hspace : c = ' '
    · subst hspace
      rfl
    · obtain ⟨t, ht, hct⟩ := (mem_toList_intercalate hspace).mp hc
      rw [(h t ht).unblank c hct, beq_eq_false_iff_ne.mpr hspace]
  have hunspaced : ∀ t ∈ ts, ' ' ∉ t.toList := by
    intro t ht hspace
    exact absurd ((h t ht).unblank ' ' hspace) (by decide)
  rw [words_eq_filter_fields hspaces, fields_spaced hne hunspaced, List.filter_eq_self]
  intro t ht
  simpa using (h t ht).filled

/-- **Splitting undoes joining.** The fields of a line are the only texts without a space that single
spaces join to the line; for the empty line, which has one empty field, no texts at all would do as well.
So fields that are joined are found again. The words of a text have characters and no blanks among them;
put together they are the text without its blanks, and two characters are in one word exactly if no blank
stands between them. Words that are joined by spaces are found again too. -/
theorem splitting_undoes_joining :
    (∀ line : String, fields line ≠ [] ∧ ∀ fs : List String,
      (∀ f ∈ fs, ' ' ∉ f.toList) ∧ spaced fs = line ↔ fs = fields line ∨ fs = [] ∧ line = "") ∧
    (∀ fs : List String, fs ≠ [] → (∀ f ∈ fs, ' ' ∉ f.toList) → fields (spaced fs) = fs) ∧
    (∀ text : String, (∀ w ∈ words text, IsWord w) ∧
      String.join (words text) = String.ofList (text.toList.filter (!isBlank ·)) ∧
      ∃ runs, StandAt text (words text) runs) ∧
    ∀ ts : List String, (∀ t ∈ ts, IsWord t) → words (spaced ts) = ts := by
  refine ⟨fun line => ⟨(dividesInto_fields line).ne_nil, fun fs => spaced_eq_iff⟩,
    fun fs => fields_spaced, fun text => ⟨fun w => isWord_of_mem_words, join_words text, ?_⟩,
    fun ts => words_spaced⟩
  exact ⟨runsBetweenBlanks text, standAt_words text⟩

def ragged : List String := ["", "a", "", "é(", ""]

theorem splitting_undoes_joining_ragged :
    (ragged ≠ [] ∧ (∀ f ∈ ragged, ' ' ∉ f.toList) ∧ fields (spaced ragged) = ragged) ∧
    (∀ t ∈ ["a", "é("], IsWord t) ∧ words (spaced ["a", "é("]) = ["a", "é("] ∧
    words (spaced ragged) = ["a", "é("] := by
  obtain ⟨-, hfields, -, hwords⟩ := splitting_undoes_joining
  have hunspaced : ∀ f ∈ ragged, ' ' ∉ f.toList := by decide
  have hisWord : ∀ t ∈ ["a", "é("], IsWord t := by
    intro t ht
    simp only [List.mem_cons, List.not_mem_nil, or_false] at ht
    rcases ht with rfl | rfl <;> exact ⟨by decide, by simp [isBlank]⟩
  exact ⟨⟨by decide, hunspaced, hfields ragged (by decide) hunspaced⟩, hisWord, hwords _ hisWord,
    by decide +kernel⟩

end Multitrack.Text
