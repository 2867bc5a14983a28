import Mathlib.Tactic
import Multitrack.Text

/-! # How a text divides

Splitting is described by what it leaves: pieces without the mark which the mark joins to the text
again. There is one such list for every text, and it is the one that splitting gives. Fields are found
by going from space to space, which gives the pieces between the spaces. Lines are the pieces between
line feeds, and a line that ends in a carriage return is read without it. -/
namespace Multitrack.Text

/-! ## Splitting lists -/

section Splitting

variable {α : Type} {p : α → Bool}

/-- Induction along the marks of a list: it has none, or a first one and a rest after it. -/
theorem split_induction {motive : List α → Prop}
    (unmarked : ∀ l, (∀ x ∈ l, p x = false) → motive l)
    (marked : ∀ l sep rest, (∀ x ∈ l, p x = false) → p sep = true → motive rest →
      motive (l ++ sep :: rest)) (l : List α) : motive l := by
  induction hlength : l.length using Nat.strong_induction_on generalizing l with
  | _ n ih =>
    cases hfind : l.find? p with
    | none => exact unmarked l fun x hx => by simpa using List.find?_eq_none.mp hfind x hx
    | some sep =>
      obtain ⟨hsep, front, rest, rfl, hfront⟩ := List.find?_eq_some_iff_append.mp hfind
      refine marked front sep rest (fun x hx => by simpa using hfront x hx) hsep ?_
      refine ih rest.length ?_ rest rfl
      rw [← hlength, List.length_append, List.length_cons]
      omega

/-- Splitting loses the marks and nothing else. -/
theorem flatten_splitOnP (p : α → Bool) (l : List α) :
    (l.splitOnP p).flatten = l.filter (!p ·) := by
  induction l using split_induction (p := p) with
  | unmarked l hl =>
    have hkept : l.filter (!p ·) = l := List.filter_eq_self.mpr (by simpa using hl)
    rw [List.splitOnP_eq_singleton hl, List.flatten_singleton, hkept]
  | marked l sep rest hl hsep ih =>
    have hkept : l.filter (!p ·) = l := List.filter_eq_self.mpr (by simpa using hl)
    rw [List.splitOnP_append_cons_of_forall_mem hl sep hsep, List.flatten_cons, ih,
      List.filter_append, List.filter_cons_of_neg (by simp [hsep]), hkept]

theorem mem_of_mem_splitOnP {l piece : List α} (h : piece ∈ l.splitOnP p) {x : α}
    (hx : x ∈ piece) : x ∈ l ∧ p x = false := by
  have hmem : x ∈ (l.splitOnP p).flatten := List.mem_flatten_of_mem h hx
  rw [flatten_splitOnP, List.mem_filter] at hmem
  simpa using hmem

end Splitting

/-! ## Pieces -/

/-- The text is the pieces with one mark between neighbours, and no piece holds the mark. -/
structure DividesInto (mark : Char) (text : String) (ps : List String) : Prop where
  ne_nil : ps ≠ []
  unmarked : ∀ p ∈ ps, mark ∉ p.toList
  joined : (String.singleton mark).intercalate ps = text

/-- **A text divides at a mark in one way**, the one in which it is split. -/
theorem pieces_eq_iff {mark : Char} {text : String} {ps : List String} :
    pieces (· == mark) text = ps ↔ DividesInto mark text ps := by
  have hpieces : pieces (· == mark) text = (text.toList.splitOn mark).map String.ofList := by
    rw [pieces, List.splitOn_eq_splitOnP]
  have hmap : ∀ css : List (List Char), (css.map String.ofList).map String.toList = css := by
    intro css
    simp [List.map_map, Function.comp_def]
  rw [hpieces]
  constructor
  · rintro rfl
    refine ⟨?_, ?_, ?_⟩
    · simp [List.splitOn_ne_nil]
    · intro p hp
      obtain ⟨cs, hcs, rfl⟩ := List.mem_map.mp hp
      rw [List.splitOn_eq_splitOnP] at hcs
      rw [String.toList_ofList]
      intro hmark
      simpa using (mem_of_mem_splitOnP hcs hmark).2
    · rw [← String.toList_inj, String.toList_intercalate, hmap, String.toList_singleton]
      exact List.intercalate_splitOn mark
  · intro h
    rw [← h.joined, String.toList_intercalate, String.toList_singleton,
      List.splitOn_intercalate mark]
    · simp [List.map_map, Function.comp_def]
    · intro cs hcs
      obtain ⟨p, hp, rfl⟩ := List.mem_map.mp hcs
      exact h.unmarked p hp
    · simpa using h.ne_nil

/-- Apart from the mark, the characters of a joined text are those of its pieces. -/
theorem mem_toList_intercalate {mark c : Char} (hc : c ≠ mark) {ps : List String} :
    c ∈ ((String.singleton mark).intercalate ps).toList ↔ ∃ p ∈ ps, c ∈ p.toList := by
  induction ps with
  | nil => simp
  | cons p rest ih =>
    cases rest with
    | nil => simp
    | cons q rest =>
      rw [String.intercalate_cons_cons, String.toList_append, String.toList_append,
        List.mem_append, List.mem_append, ih]
      simp [hc]

theorem DividesInto.mem_toList_iff {mark c : Char} {text : String} {ps : List String}
    (h : DividesInto mark text ps) (hc : c ≠ mark) :
    c ∈ text.toList ↔ ∃ p ∈ ps, c ∈ p.toList := by
  rw [← h.joined, mem_toList_intercalate hc]

theorem dividesInto_spaced {ps : List String} (hne : ps ≠ []) (h : ∀ p ∈ ps, ' ' ∉ p.toList) :
    DividesInto ' ' (spaced ps) ps :=
  ⟨hne, h, rfl⟩

/-- A position that is found is the first: the characters from `start` up to it are others. -/
theorem find?_split {c : Char} {line : List Char} {start pos : Nat}
    (h : find? c line start = some pos) :
    line.drop start = (line.drop start).take (pos - start) ++ c :: line.drop (pos + 1) ∧
      c ∉ (line.drop start).take (pos - start) := by
  obtain ⟨i, hi, rfl⟩ := Option.map_eq_some_iff.mp h
  obtain ⟨hlt, hat, hbefore⟩ := List.findIdx?_eq_some_iff_getElem.mp hi
  rw [Nat.add_sub_cancel_left, Nat.add_assoc, ← List.drop_drop]
  constructor
  · rw [← beq_iff_eq.mp hat, ← List.drop_eq_getElem_cons, List.take_append_drop]
  · intro hmem
    obtain ⟨j, hj, hc⟩ := List.mem_take_iff_getElem.mp hmem
    exact hbefore j (by omega) (beq_iff_eq.mpr hc)

theorem fieldsFrom_eq_splitOnP (line : List Char) (start : Nat) :
    fieldsFrom line start = (line.drop start).splitOnP (· == ' ') := by
  fun_induction fieldsFrom line start with
  | case1 start hnone =>
    have hfree := List.findIdx?_eq_none_iff.mp (Option.map_eq_none_iff.mp hnone)
    exact (List.splitOnP_eq_singleton hfree).symm
  | case2 start pos hsome ih =>
    obtain ⟨hsplit, hfree⟩ := find?_split hsome
    have hunmarked : ∀ x ∈ (line.drop start).take (pos - start), (x == ' ') = false := by
      intro x hx
      exact beq_eq_false_iff_ne.mpr (ne_of_mem_of_not_mem hx hfree)
    conv_rhs => rw [hsplit]
    rw [List.splitOnP_append_cons_of_forall_mem hunmarked ' ' (beq_self_eq_true ' '), ih]

/-- **Going from space to space gives the pieces between the spaces.** -/
theorem fields_eq_pieces (line : String) : fields line = pieces (· == ' ') line := by
  rw [fields, pieces, fieldsFrom_eq_splitOnP, List.drop_zero]

theorem fields_eq_iff {line : String} {fs : List String} :
    fields line = fs ↔ DividesInto ' ' line fs := by
  rw [fields_eq_pieces, pieces_eq_iff]

theorem dividesInto_fields (line : String) : DividesInto ' ' line (fields line) :=
  fields_eq_iff.mp rfl

theorem fields_spaced {fs : List String} (hne : fs ≠ []) (h : ∀ f ∈ fs, ' ' ∉ f.toList) :
    fields (spaced fs) = fs :=
  fields_eq_iff.mpr (dividesInto_spaced hne h)

theorem exists_spaced_eq_append (ps : List String) (p : String) :
    ∃ front, spaced (ps ++ [p]) = front ++ p := by
  induction ps with
  | nil => exact ⟨"", by simp [spaced]⟩
  | cons q rest ih =>
    obtain ⟨front, hfront⟩ := ih
    refine ⟨q ++ " " ++ front, ?_⟩
    rw [spaced] at hfront
    rw [spaced, List.cons_append, String.intercalate_cons_of_ne_nil (by simp), hfront]
    simp only [String.append_assoc]

/-! ## Lines -/

/-- The lines of a text are its pieces between line feeds, without an empty one at the end. -/
def HasLines (text : String) (ls : List String) : Prop :=
  ∃ ps, DividesInto '\n' text ps ∧ (ps = ls ++ [""] ∨ ps = ls ∧ ls.getLast? ≠ some "")

theorem lines_eq_iff {text : String} {ls : List String} : lines text = ls ↔ HasLines text ls := by
  constructor
  · rintro rfl
    refine ⟨pieces (· == '\n') text, pieces_eq_iff.mp rfl, ?_⟩
    by_cases hlast : (pieces (· == '\n') text).getLast? = some ""
    · rw [lines, if_pos hlast]
      exact .inl (List.dropLast_append_getLast? "" hlast).symm
    · rw [lines, if_neg hlast]
      exact .inr ⟨rfl, hlast⟩
  · rintro ⟨ps, hdivides, h⟩
    rw [lines, pieces_eq_iff.mpr hdivides]
    rcases h with rfl | ⟨rfl, hlast⟩
    · simp
    · exact if_neg hlast

theorem not_mem_of_mem_lines {text l : String} (h : l ∈ lines text) : '\n' ∉ l.toList := by
  obtain ⟨ps, hdivides, hps⟩ := lines_eq_iff.mp (rfl : lines text = lines text)
  refine hdivides.unmarked l ?_
  rcases hps with rfl | ⟨rfl, -⟩
  · exact List.mem_append_left _ h
  · exact h

/-- Line feeds divide what ends in one into the lines that were put together and an empty piece. -/
theorem dividesInto_unlines {ls : List String} (h : ∀ l ∈ ls, '\n' ∉ l.toList) :
    DividesInto '\n' (unlines ls) (ls ++ [""]) where
  ne_nil := by simp
  unmarked p hp := by
    rcases List.mem_append.mp hp with hp | hp
    · exact h p hp
    · rw [List.mem_singleton.mp hp]
      exact List.not_mem_nil
  joined := by
    clear h
    induction ls with
    | nil => rfl
    | cons l rest ih =>
      rw [List.cons_append, String.intercalate_cons_of_ne_nil (by simp), ih, unlines, unlines,
        List.map_cons, String.join_cons]
      rfl

theorem lines_unlines {ls : List String} (h : ∀ l ∈ ls, '\n' ∉ l.toList) :
    lines (unlines ls) = ls :=
  lines_eq_iff.mpr ⟨_, dividesInto_unlines h, .inl rfl⟩

/-- The line is `raw` without one carriage return at its end, if it has any. -/
def StripsTo (raw line : String) : Prop :=
  raw = line ++ "\r" ∨ raw = line ∧ ∀ l, raw ≠ l ++ "\r"

theorem getLast?_toList_eq_return_iff {raw : String} :
    raw.toList.getLast? = some '\r' ↔ ∃ l, raw = l ++ "\r" := by
  rw [List.getLast?_eq_some_iff]
  constructor
  · rintro ⟨cs, hcs⟩
    refine ⟨String.ofList cs, ?_⟩
    rw [← String.toList_inj, hcs, String.toList_append, String.toList_ofList]
    rfl
  · rintro ⟨l, rfl⟩
    exact ⟨l.toList, by rw [String.toList_append]; rfl⟩

theorem dropReturn_eq_iff {raw line : String} : dropReturn raw = line ↔ StripsTo raw line := by
  have happend : ∀ l : String, dropReturn (l ++ "\r") = l := by
    intro l
    rw [dropReturn, if_pos (getLast?_toList_eq_return_iff.mpr ⟨l, rfl⟩), String.toList_append,
      show "\r".toList = ['\r'] from rfl, List.dropLast_concat, String.ofList_toList]
  by_cases hreturn : ∃ l, raw = l ++ "\r"
  · obtain ⟨l, rfl⟩ := hreturn
    rw [happend]
    constructor
    · rintro rfl
      exact .inl rfl
    · rintro (h | ⟨-, h⟩)
      · exact (String.append_left_inj "\r").mp h
      · exact absurd rfl (h l)
  · rw [dropReturn, if_neg (mt getLast?_toList_eq_return_iff.mp hreturn)]
    constructor
    · rintro rfl
      exact .inr ⟨rfl, not_exists.mp hreturn⟩
    · rintro (h | ⟨h, -⟩)
      · exact absurd ⟨line, h⟩ hreturn
      · exact h

theorem not_mem_of_mem_map_dropReturn {text l : String} (h : l ∈ (lines text).map dropReturn) :
    '\n' ∉ l.toList := by
  obtain ⟨raw, hraw, hstrips⟩ := List.mem_map.mp h
  have hfeed := not_mem_of_mem_lines hraw
  rcases dropReturn_eq_iff.mp hstrips with rfl | ⟨rfl, -⟩
  · rw [String.toList_append, List.mem_append] at hfeed
    exact fun hl => hfeed (.inl hl)
  · exact hfeed

/-- The lines of a text as they are read: each without one carriage return at its end. -/
def ReadsAs (text : String) (ls : List String) : Prop :=
  ∃ raws, HasLines text raws ∧ List.Forall₂ StripsTo raws ls

theorem map_dropReturn_lines_eq_iff {text : String} {ls : List String} :
    (lines text).map dropReturn = ls ↔ ReadsAs text ls := by
  have hforall : ∀ raws, List.Forall₂ StripsTo raws ls ↔ raws.map dropReturn = ls := by
    intro raws
    rw [← List.forall₂_eq_eq_eq, List.forall₂_map_left_iff]
    simp only [dropReturn_eq_iff]
  constructor
  · intro h
    exact ⟨lines text, lines_eq_iff.mp rfl, (hforall _).mpr h⟩
  · rintro ⟨raws, hlines, hstrips⟩
    rw [lines_eq_iff.mpr hlines]
    exact (hforall raws).mp hstrips

/-! ## Tokens -/

/-- A text that keeps its place as a field: it is not empty, and no line or field divides inside it. -/
@[mk_iff] structure IsToken (s : String) : Prop where
  filled : s ≠ ""
  unspaced : ' ' ∉ s.toList
  unbroken : '\n' ∉ s.toList

instance : DecidablePred IsToken := fun s => decidable_of_iff' _ (isToken_iff s)

theorem not_mem_spaced {ps : List String} (h : ∀ p ∈ ps, IsToken p) :
    '\n' ∉ (spaced ps).toList := by
  intro hmem
  have hne : '\n' ≠ ' ' := by decide
  obtain ⟨p, hp, hfeed⟩ := (mem_toList_intercalate hne).mp hmem
  exact (h p hp).unbroken hfeed

end Multitrack.Text
