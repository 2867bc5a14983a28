import Mathlib.Tactic
import Std.Data.String.ToInt
import Multitrack.Guard

/-! # Names can be read back

A guarded name determines its tag and its parts, whatever texts the parts are. Cells and control
states therefore have names of their own: the letters of a machine stay below the guard, and inside
it the tag tells the kinds and phases apart while the parts give back what they remember. -/
namespace Multitrack

/-! ## Parts of a name -/

def escapeChars (cs : List Char) : List Char :=
  cs.flatMap fun c => if c = '\\' ∨ c = ',' then ['\\', c] else [c]

theorem toList_escape (s : String) : (escape s).toList = escapeChars s.toList := by
  rw [escape, String.toList_ofList, escapeChars]

/-- The mark that ends a piece is found again: pieces without the mark, each followed by nothing or
by the mark, agree when the whole texts do. -/
theorem split_at_mark {α : Type} {c : α} {a a' b b' : List α} (ha : c ∉ a) (ha' : c ∉ a')
    (hb : ∀ x ∈ b.head?, x = c) (hb' : ∀ x ∈ b'.head?, x = c) (h : a ++ b = a' ++ b') :
    a = a' ∧ b = b' := by
  induction a generalizing a' with
  | nil =>
    cases a' with
    | nil => exact ⟨rfl, h⟩
    | cons x rest =>
      rw [List.nil_append] at h
      have hx : x = c := hb x (by simp [h])
      exact absurd (by simp [hx]) ha'
  | cons x rest ih =>
    cases a' with
    | nil =>
      rw [List.nil_append] at h
      have hx : x = c := hb' x (by simp [← h])
      exact absurd (by simp [hx]) ha
    | cons x' rest' =>
      simp only [List.cons_append, List.cons.injEq] at h
      obtain ⟨hx, hrest⟩ := h
      obtain ⟨he, hbb⟩ := ih (fun hm => ha (List.mem_cons_of_mem _ hm))
        (fun hm => ha' (List.mem_cons_of_mem _ hm)) hrest
      exact ⟨by rw [hx, he], hbb⟩

/-- An escaped text ends at the first comma that no backslash stands before. -/
theorem escapeChars_append_cancel {a b r r' : List Char} (hr : ∀ x ∈ r.head?, x = ',')
    (hr' : ∀ x ∈ r'.head?, x = ',') (h : escapeChars a ++ r = escapeChars b ++ r') :
    a = b ∧ r = r' := by
  -- an escaped text that goes on does not begin with a bare comma
  have stop : ∀ {c : Char} {cs t u : List Char}, (∀ x ∈ t.head?, x = ',') →
      t ≠ escapeChars (c :: cs) ++ u := by
    intro c cs t u ht he
    by_cases hc : c = '\\' ∨ c = ','
    · have := ht '\\' (by simp [he, escapeChars, hc])
      exact absurd this (by decide)
    · have := ht c (by simp [he, escapeChars, hc])
      exact hc (Or.inr this)
  induction a generalizing b with
  | nil =>
    cases b with
    | nil => exact ⟨rfl, h⟩
    | cons c cs => exact absurd h (stop hr)
  | cons c cs ih =>
    cases b with
    | nil => exact absurd h.symm (stop hr')
    | cons c' cs' =>
      have hcc : c = c' ∧ escapeChars cs ++ r = escapeChars cs' ++ r' := by
        simp only [escapeChars, List.flatMap_cons, List.append_assoc] at h ⊢
        split at h <;> split at h
        · simpa using h
        · rename_i hc hc'
          simp only [List.cons_append, List.nil_append, List.cons.injEq] at h
          exact absurd (Or.inl h.1.symm) hc'
        · rename_i hc hc'
          simp only [List.cons_append, List.nil_append, List.cons.injEq] at h
          exact absurd (Or.inl h.1) hc
        · simpa using h
      obtain ⟨he, hrr⟩ := ih hcc.2
      exact ⟨by rw [hcc.1, he], hrr⟩

def commaParts (parts : List String) : List Char :=
  [','].intercalate (parts.map fun s => escapeChars s.toList)

theorem commaParts_injective {ps qs : List String} (hp : ps ≠ []) (hq : qs ≠ [])
    (h : commaParts ps = commaParts qs) : ps = qs := by
  -- what follows a part: nothing, or a comma and the other parts
  have unfold_cons : ∀ (p : String) (rest : List String),
      ∃ tail, commaParts (p :: rest) = escapeChars p.toList ++ tail ∧
        (∀ x ∈ tail.head?, x = ',') ∧ (rest = [] → tail = []) ∧
        (rest ≠ [] → tail = ',' :: commaParts rest) := by
    intro p rest
    cases rest with
    | nil => exact ⟨[], by simp [commaParts], by simp, by simp, by simp⟩
    | cons q rest =>
      exact ⟨',' :: commaParts (q :: rest), by simp [commaParts], by simp, by simp, by simp⟩
  induction ps generalizing qs with
  | nil => exact absurd rfl hp
  | cons p ps ih =>
    cases qs with
    | nil => exact absurd rfl hq
    | cons q qs =>
      obtain ⟨tp, hpe, hpc, hp0, hp1⟩ := unfold_cons p ps
      obtain ⟨tq, hqe, hqc, hq0, hq1⟩ := unfold_cons q qs
      rw [hpe, hqe] at h
      obtain ⟨hpq, ht⟩ := escapeChars_append_cancel hpc hqc h
      rw [String.toList_inj] at hpq
      by_cases h1 : ps = [] <;> by_cases h2 : qs = []
      · rw [hpq, h1, h2]
      · rw [hp0 h1, hq1 h2] at ht; cases ht
      · rw [hp1 h1, hq0 h2] at ht; cases ht
      · rw [hp1 h1, hq1 h2, List.cons.injEq] at ht
        rw [hpq, ih h1 h2 ht.2]

namespace Guard

theorem toList_joinParts_cons (p : String) (rest : List String) :
    (joinParts (p :: rest)).toList = ':' :: commaParts (p :: rest) := by
  simp only [joinParts, String.toList_append, String.toList_intercalate, commaParts, List.map_map]
  have hesc : String.toList ∘ escape = fun s => escapeChars s.toList := funext toList_escape
  rw [hesc]
  rfl

theorem joinParts_injective {ps qs : List String} (h : joinParts ps = joinParts qs) : ps = qs := by
  have hl := congrArg String.toList h
  cases ps with
  | nil =>
    cases qs with
    | nil => rfl
    | cons q qs => rw [toList_joinParts_cons] at hl; cases hl
  | cons p ps =>
    cases qs with
    | nil => rw [toList_joinParts_cons] at hl; cases hl
    | cons q qs =>
      rw [toList_joinParts_cons, toList_joinParts_cons, List.cons.injEq] at hl
      exact commaParts_injective (List.cons_ne_nil _ _) (List.cons_ne_nil _ _) hl.2

theorem toList_wrap (g : Guard) (tag : String) (parts : List String) :
    (g.wrap tag parts).toList = List.replicate g.depth '(' ++
      (tag.toList ++ (joinParts parts).toList ++ List.replicate g.depth ')') := by
  simp [wrap]

/-- **A guarded name determines its tag and its parts.** The parts may be any texts; only the tag
must not hold the colon that ends it. -/
theorem wrap_injective (g : Guard) {tag tag' : String} {parts parts' : List String}
    (ht : ':' ∉ tag.toList) (ht' : ':' ∉ tag'.toList)
    (h : g.wrap tag parts = g.wrap tag' parts') : tag = tag' ∧ parts = parts' := by
  have hl := congrArg String.toList h
  rw [toList_wrap, toList_wrap] at hl
  have hbody := List.append_cancel_right (List.append_cancel_left hl)
  have hmark : ∀ ps : List String, ∀ x ∈ (joinParts ps).toList.head?, x = ':' := by
    intro ps x hx
    cases ps with
    | nil => simp [joinParts] at hx
    | cons p ps => rw [toList_joinParts_cons] at hx; simpa using hx.symm
  obtain ⟨htag, hparts⟩ := split_at_mark ht ht' (hmark _) (hmark _) hbody
  exact ⟨String.toList_inj.mp htag, joinParts_injective (String.toList_inj.mp hparts)⟩

/-- A guarded name holds at least the parentheses of its guard. -/
theorem depth_le_openParens_wrap (g : Guard) (tag : String) (parts : List String) :
    g.depth ≤ openParens (g.wrap tag parts) := by
  rw [openParens, toList_wrap, List.count_append, List.count_replicate_self]
  exact Nat.le_add_right _ _

theorem wrap_ne (g : Guard) {tag : String} {parts : List String} {s : String}
    (hs : openParens s < g.depth) : g.wrap tag parts ≠ s := by
  intro h
  have hd := g.depth_le_openParens_wrap tag parts
  rw [h] at hd
  omega

/-! ## Names of cells -/

/-- The cells that a guard keeps apart: a plain cell whose letter stays below the guard, and every
tracked cell and anchor. -/
inductive Covers (g : Guard) : Cell → Prop
  | plain {s : Letter} : openParens s < g.depth → Covers g (.plain s)
  | tracked (a b : Letter) (tag : HeadSet) : Covers g (.tracked a b tag)
  | anchor (q : StateName) : Covers g (.anchor q)

theorem cell_plain (g : Guard) (s : Letter) : g.cell (.plain s) = s := rfl

theorem cell_tracked (g : Guard) (a b : Letter) (tag : HeadSet) :
    g.cell (.tracked a b tag) = g.wrap "cell" [a, b, tag.label] := rfl

theorem cell_anchor (g : Guard) (q : StateName) :
    g.cell (.anchor q) = if q = startState then g.wrap "sentinel" [] else g.wrap "at" [q] := rfl

theorem label_injective {s t : HeadSet} (h : s.label = t.label) : s = t := by
  obtain ⟨_ | _, _ | _⟩ := s <;> obtain ⟨_ | _, _ | _⟩ := t <;>
    first | rfl | exact absurd h (by decide)

theorem anchor_ne_tracked (g : Guard) (q : StateName) (a b : Letter) (tag : HeadSet) :
    g.cell (.anchor q) ≠ g.cell (.tracked a b tag) := by
  intro h
  rw [cell_anchor, cell_tracked] at h
  split at h
  · have ht := (g.wrap_injective (by decide) (by decide) h).1
    exact absurd ht (by decide)
  · have ht := (g.wrap_injective (by decide) (by decide) h).1
    exact absurd ht (by decide)

theorem anchor_ne (g : Guard) {s : Letter} (hs : openParens s < g.depth) (q : StateName) :
    g.cell (.anchor q) ≠ s := by
  rw [cell_anchor]
  split <;> exact g.wrap_ne hs

theorem tracked_ne (g : Guard) {s : Letter} (hs : openParens s < g.depth) (a b : Letter)
    (tag : HeadSet) : g.cell (.tracked a b tag) ≠ s :=
  g.wrap_ne hs

theorem anchor_injective (g : Guard) {q q' : StateName}
    (h : g.cell (.anchor q) = g.cell (.anchor q')) : q = q' := by
  rw [cell_anchor, cell_anchor] at h
  split at h <;> split at h
  · rename_i hq hq'
    rw [hq, hq']
  · have ht := (g.wrap_injective (by decide) (by decide) h).1
    exact absurd ht (by decide)
  · have ht := (g.wrap_injective (by decide) (by decide) h).1
    exact absurd ht (by decide)
  · have hp := (g.wrap_injective (by decide) (by decide) h).2
    exact (List.cons.inj hp).1

theorem tracked_injective (g : Guard) {a b a' b' : Letter} {tag tag' : HeadSet}
    (h : g.cell (.tracked a b tag) = g.cell (.tracked a' b' tag')) :
    a = a' ∧ b = b' ∧ tag = tag' := by
  rw [cell_tracked, cell_tracked] at h
  have hp := (g.wrap_injective (by decide) (by decide) h).2
  simp only [List.cons.injEq, and_true] at hp
  exact ⟨hp.1, hp.2.1, label_injective hp.2.2⟩

/-- **Different cells have different names.** -/
theorem cell_injective (g : Guard) {c c' : Cell} (hc : g.Covers c) (hc' : g.Covers c')
    (h : g.cell c = g.cell c') : c = c' := by
  cases hc with
  | plain hs =>
    cases hc' with
    | plain hs' => rw [cell_plain, cell_plain] at h; rw [h]
    | tracked a b tag => exact absurd h.symm (g.tracked_ne hs a b tag)
    | anchor q => exact absurd h.symm (g.anchor_ne hs q)
  | tracked a b tag =>
    cases hc' with
    | plain hs' => exact absurd h (g.tracked_ne hs' a b tag)
    | tracked a' b' tag' =>
      obtain ⟨rfl, rfl, rfl⟩ := g.tracked_injective h
      rfl
    | anchor q => exact absurd h.symm (g.anchor_ne_tracked q a b tag)
  | anchor q =>
    cases hc' with
    | plain hs' => exact absurd h (g.anchor_ne hs' q)
    | tracked a b tag => exact absurd h (g.anchor_ne_tracked q a b tag)
    | anchor q' => rw [g.anchor_injective h]

end Guard

/-! ## Names of control states -/

namespace Phase

/-- The phases whose control states keep a fixed name. -/
def fixed : Phase → Bool
  | .init | .accept | .reject => true
  | _ => false

def fixedName : Phase → StateName
  | .init => startState
  | .accept => acceptState
  | _ => rejectState

theorem eq_of_fixed {p : Phase} (h : p.fixed = true) : p = .init ∨ p = .accept ∨ p = .reject := by
  cases p <;> simp_all [fixed]

def ofTag : List Char → Phase
  | 's' :: 'h' :: rest => if rest = ['i', 'f', 't'] then .shiftCarry else .shiftReturn
  | 'p' :: rest =>
    if rest = ['a', 'c', 'k'] then .pack
    else if rest = ['a', 'c', 'k', '-', 'b', 'a', 'c', 'k'] then .packReturn
    else .packHead
  | 'l' :: 'o' :: _ => .locate
  | 'f' :: _ => .deliver
  | 's' :: _ => .seek
  | 'l' :: _ => .stepLeft
  | 'r' :: 'i' :: _ => .stepRight
  | 'c' :: _ => .clamp
  | _ => .rewind

end Phase

namespace Control

/-- The control states of the construction: the phase remembers what it uses and nothing else. A
move remembers as many directions as letters. -/
def Regular (c : Control) : Prop :=
  match c.phase with
  | .shiftCarry => c.dirs = [] ∧ c.heads = 0
  | .locate => c.dirs = []
  | .deliver => c.dirs = [] ∧ c.heads = 0
  | .seek => c.letters.length = c.dirs.length ∧ 0 ≤ c.heads ∧ c.heads ≤ 3
  | .stepLeft | .stepRight | .clamp => c.letters.length = c.dirs.length
  | _ => c.letters = [] ∧ c.dirs = [] ∧ c.heads = 0

def tag (c : Control) : String :=
  match c.phase with
  | .shiftCarry => "shift"
  | .shiftReturn => "shift-back"
  | .pack => "pack"
  | .packReturn => "pack-back"
  | .packHead => "pack-head"
  | .locate => if c.heads = 0 then "locate" else "locate" ++ toString c.heads
  | .deliver => "fire"
  | .seek => "seek" ++ (HeadSet.ofMask c.heads).label
  | .stepLeft => "left" ++ toString c.heads
  | .stepRight => "right" ++ toString c.heads
  | .clamp => "clamp" ++ toString c.heads
  | _ => "rewind"

def parts (c : Control) : List String :=
  match c.phase with
  | .shiftCarry | .locate | .deliver => c.letters
  | .seek | .stepLeft | .stepRight | .clamp => Guard.moveParts c.letters c.dirs
  | _ => []

end Control

namespace Guard

theorem control_eq_wrap (g : Guard) {c : Control} (h : c.phase.fixed = false) :
    g.control c = g.wrap c.tag c.parts := by
  obtain ⟨phase, letters, dirs, heads⟩ := c
  cases phase <;> first | rfl | cases h

end Guard

def Guard.isTagChar (c : Char) : Bool := c.isAlphanum || c == '-'

theorem all_isTagChar_toString (n : Int) : (toString n).toList.all Guard.isTagChar = true := by
  have hnat : ∀ k : Nat, k.repr.toList.all Guard.isTagChar = true := by
    intro k
    rw [Nat.toList_repr, List.all_eq_true]
    intro c hc
    have hdigit : c.isDigit = true := Nat.isDigit_of_mem_toDigits (by decide) (by decide) hc
    simp [Guard.isTagChar, Char.isAlphanum, hdigit]
  rw [Int.toString_eq_repr, Int.repr_eq_if]
  split
  · exact hnat _
  · rw [String.toList_append, List.all_append, hnat]
    decide

namespace Control

theorem all_isTagChar_tag (c : Control) : c.tag.toList.all Guard.isTagChar = true := by
  have hnum := all_isTagChar_toString c.heads
  unfold tag
  split
  case h_6 =>
    split
    · decide
    · rw [String.toList_append, List.all_append, hnum]
      decide
  case h_8 =>
    obtain ⟨_ | _, _ | _⟩ := HeadSet.ofMask c.heads <;> decide
  case h_9 | h_10 | h_11 =>
    rw [String.toList_append, List.all_append, hnum]
    decide
  all_goals decide

theorem colon_not_mem_tag (c : Control) : ':' ∉ c.tag.toList := by
  intro hmem
  exact absurd (List.all_eq_true.mp c.all_isTagChar_tag _ hmem) (by decide)

/-- The tag tells the phase. -/
theorem ofTag_tag (c : Control) (h : c.phase.fixed = false) : Phase.ofTag c.tag.toList = c.phase := by
  obtain ⟨phase, letters, dirs, heads⟩ := c
  cases phase
  case init | accept | reject => cases h
  case locate =>
    simp only [tag]
    split
    · rfl
    · rw [String.toList_append]; rfl
  case seek | stepLeft | stepRight | clamp =>
    simp only [tag, String.toList_append]; rfl
  all_goals
    simp only [tag]
    decide

end Control

theorem append_toString_injective {base : String} {m n : Int}
    (h : base ++ toString m = base ++ toString n) : m = n := by
  have hl := congrArg String.toList h
  rw [String.toList_append, String.toList_append] at hl
  have hs := String.toList_inj.mp (List.append_cancel_left hl)
  exact Int.repr_injective hs

/-- No number stands behind the tag of a sweep that has found no head. -/
theorem append_toString_ne (base : String) (n : Int) : base ++ toString n ≠ base := by
  intro h
  have hl := congrArg String.toList h
  rw [String.toList_append] at hl
  have hnil : (toString n).toList = [] := List.append_right_eq_self.mp hl
  have hempty : Int.repr n = "" := String.toList_inj.mp hnil
  rw [Int.repr_eq_if] at hempty
  split at hempty
  · exact Nat.repr_ne_empty hempty
  · simp at hempty

/-- A mask of two bits is determined by the set it stands for. -/
theorem ofMask_injective {m n : Int} (hm : 0 ≤ m ∧ m ≤ 3) (hn : 0 ≤ n ∧ n ≤ 3)
    (h : HeadSet.ofMask m = HeadSet.ofMask n) : m = n := by
  have hmask : ∀ k : Int, 0 ≤ k ∧ k ≤ 3 → (HeadSet.ofMask k).mask = k := by
    intro k hk
    obtain rfl | rfl | rfl | rfl : k = 0 ∨ k = 1 ∨ k = 2 ∨ k = 3 := by omega
    all_goals rfl
  rw [← hmask m hm, h, hmask n hn]

/-- Letters and directions that come in pairs can be told apart again. -/
theorem moveParts_injective {ls ls' : List Letter} {ds ds' : List Dir} (hl : ls.length = ds.length)
    (hl' : ls'.length = ds'.length) (h : Guard.moveParts ls ds = Guard.moveParts ls' ds') :
    ls = ls' ∧ ds = ds' := by
  induction ls generalizing ds ls' ds' with
  | nil =>
    have hds : ds = [] := List.length_eq_zero_iff.mp hl.symm
    cases ls' with
    | nil =>
      have hds' : ds' = [] := List.length_eq_zero_iff.mp hl'.symm
      exact ⟨rfl, by rw [hds, hds']⟩
    | cons s' ls' => cases ds' <;> cases h
  | cons s ls ih =>
    cases ds with
    | nil => cases hl
    | cons d ds =>
      cases ls' with
      | nil => cases h
      | cons s' ls' =>
        cases ds' with
        | nil => cases hl'
        | cons d' ds' =>
          simp only [Guard.moveParts, List.cons.injEq] at h
          obtain ⟨hs, hd, hrest⟩ := h
          have hdd : d = d' := by
            have hof := congrArg Dir.ofLetter? hd
            rw [Dir.ofLetter?_letter, Dir.ofLetter?_letter] at hof
            exact Option.some.inj hof
          obtain ⟨hls, hds⟩ := ih (by simpa using hl) (by simpa using hl') hrest
          exact ⟨by rw [hs, hls], by rw [hdd, hds]⟩

namespace Control

/-- In one phase, tag and parts give back everything that a regular control state remembers. -/
theorem eq_of_tag_of_parts {c c' : Control} (hc : c.Regular) (hc' : c'.Regular)
    (hphase : c.phase = c'.phase) (htag : c.tag = c'.tag) (hparts : c.parts = c'.parts) : c = c' := by
  obtain ⟨phase, letters, dirs, heads⟩ := c
  obtain ⟨phase', letters', dirs', heads'⟩ := c'
  simp only at hphase
  subst hphase
  cases phase
  case shiftCarry | deliver =>
    obtain ⟨rfl, rfl⟩ := hc
    obtain ⟨rfl, rfl⟩ := hc'
    exact congrArg (Control.mk _ · _ _) hparts
  case locate =>
    cases hc
    cases hc'
    have hheads : heads = heads' := by
      simp only [tag] at htag
      split at htag <;> split at htag
      · rename_i h h'
        rw [h, h']
      · exact absurd htag.symm (append_toString_ne _ _)
      · exact absurd htag (append_toString_ne _ _)
      · exact append_toString_injective htag
    exact congrArg₂ (Control.mk _ · _ ·) hparts hheads
  case seek =>
    obtain ⟨hl, hm⟩ := hc
    obtain ⟨hl', hm'⟩ := hc'
    obtain ⟨rfl, rfl⟩ := moveParts_injective hl hl' hparts
    simp only [tag] at htag
    have hlabel : (HeadSet.ofMask heads).label = (HeadSet.ofMask heads').label := by
      have hlist := congrArg String.toList htag
      rw [String.toList_append, String.toList_append] at hlist
      exact String.toList_inj.mp (List.append_cancel_left hlist)
    exact congrArg (Control.mk _ _ _) (ofMask_injective hm hm' (Guard.label_injective hlabel))
  case stepLeft | stepRight | clamp =>
    obtain ⟨rfl, rfl⟩ := moveParts_injective hc hc' hparts
    exact congrArg (Control.mk _ _ _) (append_toString_injective htag)
  all_goals
    obtain ⟨rfl, rfl, rfl⟩ := hc
    obtain ⟨rfl, rfl, rfl⟩ := hc'
    rfl

end Control

namespace Guard

theorem control_eq_fixedName (g : Guard) {c : Control} (h : c.phase.fixed = true) :
    g.control c = c.phase.fixedName := by
  unfold control
  rcases Phase.eq_of_fixed h with hp | hp | hp <;> rw [hp] <;> rfl

/-- A fixed name holds no parenthesis. -/
theorem openParens_fixed (g : Guard) {c : Control} (h : c.phase.fixed = true) :
    openParens (g.control c) < g.depth := by
  have hnone : openParens c.phase.fixedName = 0 := by
    rcases Phase.eq_of_fixed h with hp | hp | hp <;> rw [hp] <;> decide
  rw [g.control_eq_fixedName h, hnone]
  exact g.positive

/-- A fixed name determines its phase. -/
theorem phase_eq_of_fixed (g : Guard) {c c' : Control} (hf : c.phase.fixed = true)
    (hf' : c'.phase.fixed = true) (h : g.control c = g.control c') : c.phase = c'.phase := by
  rw [g.control_eq_fixedName hf, g.control_eq_fixedName hf'] at h
  rcases Phase.eq_of_fixed hf with hp | hp | hp <;>
    rcases Phase.eq_of_fixed hf' with hp' | hp' | hp' <;> rw [hp, hp'] at h <;>
    first | exact absurd h (by decide) | rw [hp, hp']

/-- A name tells the phase, whatever else its control state remembers. -/
theorem phase_eq_of_name (g : Guard) {c c' : Control} (h : g.control c = g.control c') :
    c.phase = c'.phase := by
  cases hf : c.phase.fixed <;> cases hf' : c'.phase.fixed
  · rw [g.control_eq_wrap hf, g.control_eq_wrap hf'] at h
    have htag := (g.wrap_injective c.colon_not_mem_tag c'.colon_not_mem_tag h).1
    rw [← c.ofTag_tag hf, ← c'.ofTag_tag hf', htag]
  · rw [g.control_eq_wrap hf] at h
    exact absurd h (g.wrap_ne (g.openParens_fixed hf'))
  · rw [g.control_eq_wrap hf'] at h
    exact absurd h.symm (g.wrap_ne (g.openParens_fixed hf))
  · exact g.phase_eq_of_fixed hf hf' h

/-- **Different control states have different names.** -/
theorem control_injective (g : Guard) {c c' : Control} (hc : c.Regular) (hc' : c'.Regular)
    (h : g.control c = g.control c') : c = c' := by
  have hphase := g.phase_eq_of_name h
  cases hf : c.phase.fixed with
  | false =>
    rw [g.control_eq_wrap hf, g.control_eq_wrap (hphase ▸ hf)] at h
    obtain ⟨htag, hparts⟩ := g.wrap_injective c.colon_not_mem_tag c'.colon_not_mem_tag h
    exact Control.eq_of_tag_of_parts hc hc' hphase htag hparts
  | true =>
    -- a fixed phase remembers nothing, so it has neither a number nor parts
    have htag : ∀ d : Control, d.phase.fixed = true → d.tag = "rewind" ∧ d.parts = [] := by
      intro d hd
      unfold Control.tag Control.parts
      rcases Phase.eq_of_fixed hd with hp | hp | hp <;> rw [hp] <;> exact ⟨rfl, rfl⟩
    have hf' : c'.phase.fixed = true := hphase ▸ hf
    refine Control.eq_of_tag_of_parts hc hc' hphase ?_ ?_
    · rw [(htag c hf).1, (htag c' hf').1]
    · rw [(htag c hf).2, (htag c' hf').2]

end Guard

end Multitrack
