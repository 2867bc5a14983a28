import Mathlib.Tactic
import Multitrack.Proofs.Pieces
import Multitrack.TwoTape.Listing

/-! # What a listing is

A line of a listing is skipped, or it holds the eight fields of a transition, or it has a fault. The
faults exclude each other by their order: the number of fields, the first empty field, the first
direction, the second one. Reading a line decides between them, and reading a listing goes from line
to line until one has a fault. -/
namespace Multitrack.TwoTape

open Multitrack.Text

/-! ## Lines -/

def Skipped (line : String) : Prop := line = "" ∨ "//".toList <+: line.toList

instance : DecidablePred Skipped := fun _ => inferInstanceAs (Decidable (_ ∨ _))

theorem isSkipped_iff {line : String} : isSkipped line = true ↔ Skipped line := by
  rw [isSkipped, Bool.or_eq_true, String.isEmpty_iff, beq_iff_eq, Skipped, List.prefix_iff_eq_take]
  exact or_congr_right eq_comm

def SaysDirection (text : String) : Prop := text = "L" ∨ text = "R" ∨ text = "S"

/-- The fields are those of a transition: eight, none of them empty, and two directions at the end. -/
structure FieldsFit (fs : List String) : Prop where
  count : fs.length = 8
  filled : "" ∉ fs
  directions : ∀ f ∈ fs.drop 6, SaysDirection f

/-- What is wrong with the fields of a line. A fault is one only where those before it are absent. -/
inductive FieldsFault (fs : List String) : LineFault → Prop
  | fieldCount (count : fs.length ≠ 8) : FieldsFault fs (.fieldCount fs.length)
  | emptyField {i : Nat} {field : Field} (count : fs.length = 8) (name : Field.all[i]? = some field)
      (empty : fs[i]? = some "") (first : ∀ j < i, fs[j]? ≠ some "") :
      FieldsFault fs (.emptyField field)
  | direction1 {text : String} (count : fs.length = 8) (filled : "" ∉ fs) (get : fs[6]? = some text)
      (bad : ¬ SaysDirection text) : FieldsFault fs (.badDirection .dir1 text)
  | direction2 {other text : String} (count : fs.length = 8) (filled : "" ∉ fs)
      (get1 : fs[6]? = some other) (good : SaysDirection other) (get : fs[7]? = some text)
      (bad : ¬ SaysDirection text) : FieldsFault fs (.badDirection .dir2 text)

theorem FieldsFault.not_fit {fs : List String} {fault : LineFault} (h : FieldsFault fs fault) :
    ¬ FieldsFit fs := by
  intro hfit
  have hdirection : ∀ {i : Nat} {text : String}, 6 ≤ i → fs[i]? = some text →
      SaysDirection text := by
    intro i text hi hget
    refine hfit.directions text (List.mem_iff_getElem?.mpr ⟨i - 6, ?_⟩)
    rw [List.getElem?_drop, Nat.add_sub_cancel' hi, hget]
  cases h with
  | fieldCount count => exact count hfit.count
  | emptyField count name empty first => exact hfit.filled (List.mem_of_getElem? empty)
  | direction1 count filled get bad => exact bad (hdirection (by decide) get)
  | direction2 count filled get1 good get bad => exact bad (hdirection (by decide) get)

def WellFormed (line : String) : Prop := ∃ fs, DividesInto ' ' line fs ∧ FieldsFit fs

def Faulty (line : String) (fault : LineFault) : Prop :=
  ∃ fs, DividesInto ' ' line fs ∧ FieldsFault fs fault

def Holds (line : String) (t : Transition) : Prop := DividesInto ' ' line t.fields

theorem Faulty.not_wellFormed {line : String} {fault : LineFault} (h : Faulty line fault) :
    ¬ WellFormed line := by
  obtain ⟨fs, hfs, hfault⟩ := h
  rintro ⟨fs', hfs', hfit⟩
  obtain rfl : fs = fs' := (pieces_eq_iff.mpr hfs).symm.trans (pieces_eq_iff.mpr hfs')
  exact hfault.not_fit hfit

/-! ## Reading a line -/

theorem saysDirection_iff {text : String} :
    SaysDirection text ↔ ∃ d, Dir.ofLetter? text = some d := by
  constructor
  · rintro (rfl | rfl | rfl)
    · exact ⟨.left, rfl⟩
    · exact ⟨.right, rfl⟩
    · exact ⟨.stay, rfl⟩
  · rintro ⟨d, hd⟩
    rw [Dir.eq_letter_of_ofLetter? hd]
    cases d <;> simp [Dir.letter, SaysDirection]

/-- A direction field is read, and then its text is the letter of the direction, or it is reported
and its text says no direction. -/
theorem readDir_cases (field : Field) (text : String) :
    (∃ d : Dir, readDir field text = .ok d ∧ text = d.letter) ∨
      readDir field text = .error (.badDirection field text) ∧ ¬ SaysDirection text := by
  rw [readDir, saysDirection_iff]
  cases hd : Dir.ofLetter? text with
  | some d => exact .inl ⟨d, rfl, Dir.eq_letter_of_ofLetter? hd⟩
  | none => exact .inr ⟨rfl, by simp⟩

theorem saysDirection_letter (d : Dir) : SaysDirection d.letter :=
  saysDirection_iff.mpr ⟨d, Dir.ofLetter?_letter d⟩

theorem exists_of_emptyField?_eq_some {fs : List String} {field : Field}
    (h : emptyField? fs = some field) :
    ∃ i : Nat, Field.all[i]? = some field ∧ fs[i]? = some "" ∧ ∀ j < i, fs[j]? ≠ some "" := by
  obtain ⟨⟨field', text⟩, hfind, rfl⟩ := Option.map_eq_some_iff.mp h
  obtain ⟨hempty, i, hi, hget, hfirst⟩ := List.find?_eq_some_iff_getElem.mp hfind
  obtain ⟨hname, htext⟩ := List.getElem?_zip_eq_some.mp (List.getElem?_eq_some_iff.mpr ⟨hi, hget⟩)
  obtain rfl : text = "" := of_decide_eq_true hempty
  refine ⟨i, hname, htext, ?_⟩
  intro j hj hjempty
  have hjfilled := hfirst j hj
  rw [List.getElem_zip] at hjfilled
  obtain ⟨_, hjget⟩ := List.getElem?_eq_some_iff.mp hjempty
  simp [hjget] at hjfilled

theorem not_mem_of_emptyField?_eq_none {fs : List String} (hlen : fs.length = 8)
    (h : emptyField? fs = none) : "" ∉ fs := by
  intro hmem
  rw [emptyField?, Option.map_eq_none_iff, List.find?_eq_none] at h
  -- there are as many texts as fields, so the texts of the pairs are all of them
  have hmap : (Field.all.zip fs).map Prod.snd = fs := List.map_snd_zip (by rw [hlen]; decide)
  rw [← hmap] at hmem
  obtain ⟨pair, hpair, hempty⟩ := List.mem_map.mp hmem
  exact h pair hpair (decide_eq_true hempty)

/-- **A line is read or has the fault that is reported.** -/
theorem readLine_cases (line : String) :
    (∃ t, readLine line = .ok t ∧ Holds line t ∧ WellFormed line) ∨
      ∃ fault, readLine line = .error fault ∧ Faulty line fault := by
  have hdivides := dividesInto_fields line
  -- the cases are the order in which faults are looked for
  unfold readLine
  split
  · rename_i state read1 read2 next write1 write2 dir1 dir2 hfields
    rw [hfields] at hdivides
    split
    · rename_i field hempty
      obtain ⟨i, hname, hget, hfirst⟩ := exists_of_emptyField?_eq_some hempty
      exact .inr ⟨_, rfl, _, hdivides, .emptyField rfl hname hget hfirst⟩
    · rename_i hfilled
      have hfilled := not_mem_of_emptyField?_eq_none rfl hfilled
      rcases readDir_cases .dir1 dir1 with ⟨d1, hread1, rfl⟩ | ⟨hread1, hbad⟩
      · rcases readDir_cases .dir2 dir2 with ⟨d2, hread2, rfl⟩ | ⟨hread2, hbad⟩
        · rw [hread1, hread2]
          refine .inl ⟨_, rfl, hdivides, _, hdivides, rfl, hfilled, ?_⟩
          intro f hf
          simp only [List.drop_succ_cons, List.drop_zero, List.mem_cons, List.not_mem_nil,
            or_false] at hf
          rcases hf with rfl | rfl <;> exact saysDirection_letter _
        · rw [hread1, hread2]
          exact .inr ⟨_, rfl, _, hdivides,
            .direction2 rfl hfilled rfl (saysDirection_letter d1) rfl hbad⟩
      · rw [hread1]
        exact .inr ⟨_, rfl, _, hdivides, .direction1 rfl hfilled rfl hbad⟩
  · rename_i hother
    refine .inr ⟨_, rfl, _, hdivides, .fieldCount ?_⟩
    intro hlen
    match hfields : fields line, hlen with
    | [_, _, _, _, _, _, _, _], _ => exact hother _ _ _ _ _ _ _ _ hfields

theorem exists_readLine_eq_ok {line : String} (h : WellFormed line) :
    ∃ t, readLine line = .ok t ∧ Holds line t := by
  rcases readLine_cases line with ⟨t, hread, hholds, -⟩ | ⟨fault, -, hfault⟩
  · exact ⟨t, hread, hholds⟩
  · exact absurd h hfault.not_wellFormed

theorem exists_readLine_eq_error {line : String} (h : ¬ WellFormed line) :
    ∃ fault, readLine line = .error fault ∧ Faulty line fault := by
  rcases readLine_cases line with ⟨t, -, -, hwell⟩ | hfault
  · exact absurd hwell h
  · exact hfault

/-! ## Reading a listing -/

def Readable (ls : List String) : Prop := ∀ l ∈ ls, ¬ Skipped l → WellFormed l

/-- The transitions of a list of lines whose first line has the number `n`. -/
def readFrom (n : Nat) (ls : List String) : Except ListingError (List Transition) :=
  ((ls.zipIdx n).filter fun (line, _) => !isSkipped line).mapM
    fun (line, n) => (readLine line).mapError fun fault => ⟨n, fault⟩

theorem parse_eq_readFrom (text : String) :
    parse text = readFrom 1 ((lines text).map dropReturn) := rfl

theorem readFrom_cons_of_skipped (n : Nat) {l : String} (rest : List String) (h : Skipped l) :
    readFrom n (l :: rest) = readFrom (n + 1) rest := by
  rw [readFrom, List.zipIdx_cons, List.filter_cons_of_neg (by simp [isSkipped_iff.mpr h])]
  rfl

theorem readFrom_cons (n : Nat) {l : String} (rest : List String) (h : ¬ Skipped l) :
    readFrom n (l :: rest) = do
      let t ← (readLine l).mapError fun fault => ⟨n, fault⟩
      let ts ← readFrom (n + 1) rest
      return t :: ts := by
  rw [readFrom, List.zipIdx_cons, List.filter_cons_of_pos (by simpa [← isSkipped_iff] using h),
    List.mapM_cons]
  rfl

/-- Readable lines give their transitions, in their order. -/
theorem Readable.exists_readFrom_eq_ok {ls : List String} (h : Readable ls) (n : Nat) :
    ∃ ts, readFrom n ls = .ok ts ∧ List.Forall₂ Holds (ls.filter (¬ Skipped ·)) ts := by
  induction ls generalizing n with
  | nil => exact ⟨[], rfl, .nil⟩
  | cons l rest ih =>
    obtain ⟨ts, hread, hholds⟩ := ih (fun l hl => h l (List.mem_cons_of_mem _ hl)) (n + 1)
    by_cases hskipped : Skipped l
    · refine ⟨ts, ?_, ?_⟩
      · rw [readFrom_cons_of_skipped n rest hskipped, hread]
      · rwa [List.filter_cons_of_neg (by simpa using hskipped)]
    · obtain ⟨t, hline, hline'⟩ := exists_readLine_eq_ok (h l List.mem_cons_self hskipped)
      refine ⟨t :: ts, ?_, ?_⟩
      · rw [readFrom_cons n rest hskipped, hline, hread]
        rfl
      · rw [List.filter_cons_of_pos (by simpa using hskipped)]
        exact .cons hline' hholds

/-- Among lines that are not all readable, the first bad one is reported. -/
theorem exists_readFrom_eq_error {ls : List String} (h : ¬ Readable ls) (n : Nat) :
    ∃ i l fault, readFrom n ls = .error ⟨n + i, fault⟩ ∧ ls[i]? = some l ∧ ¬ Skipped l ∧
      Faulty l fault ∧ Readable (ls.take i) := by
  induction ls generalizing n with
  | nil => exact absurd (fun l hl => absurd hl List.not_mem_nil) h
  | cons l rest ih =>
    by_cases hgood : ¬ Skipped l → WellFormed l
    · have hrest : ¬ Readable rest := by
        intro hrest
        exact h (List.forall_mem_cons.mpr ⟨hgood, hrest⟩)
      -- one more line stands before the bad one, whether it gives a transition or not
      obtain ⟨i, l', fault, hread, hget, hskipped', hfault, hbefore⟩ := ih hrest (n + 1)
      refine ⟨i + 1, l', fault, ?_, hget, hskipped', hfault, ?_⟩
      · rw [← Nat.add_assoc, Nat.add_right_comm]
        by_cases hskipped : Skipped l
        · rw [readFrom_cons_of_skipped n rest hskipped, hread]
        · obtain ⟨t, hline, -⟩ := exists_readLine_eq_ok (hgood hskipped)
          rw [readFrom_cons n rest hskipped, hline, hread]
          rfl
      · exact List.forall_mem_cons.mpr ⟨hgood, hbefore⟩
    · obtain ⟨hskipped, hbad⟩ := Classical.not_imp.mp hgood
      obtain ⟨fault, hline, hfault⟩ := exists_readLine_eq_error hbad
      refine ⟨0, l, fault, ?_, rfl, hskipped, hfault, ?_⟩
      · rw [readFrom_cons n rest hskipped, hline]
        rfl
      · exact fun l hl => absurd hl List.not_mem_nil

/-- **A listing is read when all its lines are readable, and otherwise its first bad line is
reported.** A text has its lines in one way. If each of them is skipped or holds a transition, reading
gives the transitions of the lines that are not skipped, in order. If not, it gives the number of the
first line that is neither, counted from one over all lines, and a fault which that line has. -/
theorem parse_readable_or_first_fault (text : String) :
    (∃! ls, ReadsAs text ls) ∧ ∀ ls, ReadsAs text ls →
      (Readable ls →
        ∃ ts, parse text = .ok ts ∧ List.Forall₂ Holds (ls.filter (¬ Skipped ·)) ts) ∧
      (¬ Readable ls → ∃ i l fault, parse text = .error ⟨i + 1, fault⟩ ∧ ls[i]? = some l ∧
        ¬ Skipped l ∧ ¬ WellFormed l ∧ Faulty l fault ∧ Readable (ls.take i)) := by
  constructor
  · exact ⟨_, map_dropReturn_lines_eq_iff.mp rfl,
      fun ls hls => (map_dropReturn_lines_eq_iff.mpr hls).symm⟩
  · intro ls hls
    rw [parse_eq_readFrom, map_dropReturn_lines_eq_iff.mpr hls]
    refine ⟨fun h => h.exists_readFrom_eq_ok 1, fun h => ?_⟩
    obtain ⟨i, l, fault, hread, hget, hskipped, hfault, hbefore⟩ := exists_readFrom_eq_error h 1
    exact ⟨i, l, fault, Nat.add_comm 1 i ▸ hread, hget, hskipped, hfault.not_wellFormed, hfault,
      hbefore⟩

/-- A comment, a transition, and a line that begins with a space and ends in no directions. -/
def strayText : String := "// swap\r\nq 0 0 p 1 1 R L\r\n q 0 p 1 1 X Y\n"

def strayLines : List String := ["// swap", "q 0 0 p 1 1 R L", " q 0 p 1 1 X Y"]

/-- The third line has eight fields, so the empty one is its fault and not its directions. -/
theorem parse_readable_or_first_fault_stray :
    parse strayText = .error ⟨3, .emptyField .state⟩ ∧ ReadsAs strayText strayLines ∧
      ¬ Readable strayLines ∧ ∃ i l fault, parse strayText = .error ⟨i + 1, fault⟩ ∧
        strayLines[i]? = some l ∧ ¬ Skipped l ∧ ¬ WellFormed l ∧ Faulty l fault ∧
        Readable (strayLines.take i) := by
  have hreads : ReadsAs strayText strayLines :=
    map_dropReturn_lines_eq_iff.mp (by decide +kernel)
  have hfault : Faulty " q 0 p 1 1 X Y" (.emptyField .state) :=
    ⟨["", "q", "0", "p", "1", "1", "X", "Y"], pieces_eq_iff.mp (by decide +kernel),
      .emptyField (i := 0) rfl rfl rfl (by simp)⟩
  have hunreadable : ¬ Readable strayLines := fun h =>
    hfault.not_wellFormed (h " q 0 p 1 1 X Y" (by decide) (by decide +kernel))
  exact ⟨by decide +kernel, hreads, hunreadable,
    ((parse_readable_or_first_fault strayText).2 strayLines hreads).2 hunreadable⟩

end Multitrack.TwoTape
