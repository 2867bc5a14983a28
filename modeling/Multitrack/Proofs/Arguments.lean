import Mathlib.Tactic
import Multitrack.CommandLine

/-! # What an argument list says

Arguments spell items: a flag, an output name behind `-o`, or a free name. Items are read from the
left, and reading ends where the list ends, at a call for help, or at an argument that spells no item:
`-o` with nothing behind it, something that only looks like an option, or a free name after the input
file has been named. -/
namespace Multitrack.CommandLine

/-! ## Items and their spelling -/

/-- What is read from an argument list at once. -/
inductive Item where
  | verbose
  | check
  /-- The name of the output file. -/
  | output (name : String)
  /-- A free name, which is the name of the input file or empty. -/
  | input (name : String)
deriving DecidableEq, Repr

namespace Item

def args : Item → List String
  | .verbose => ["-v"]
  | .check => ["--check"]
  | .output name => ["-o", name]
  | .input name => [name]

def freeName? : Item → Option String
  | .input name => some name
  | _ => none

def outputName? : Item → Option String
  | .output name => some name
  | _ => none

def apply (o : Options) : Item → Options
  | .verbose => { o with verbose := true }
  | .check => { o with check := true }
  | .output name => { o with output := name }
  | .input name => { o with input := name }

end Item

def spell (items : List Item) : List String := items.flatMap Item.args

def freeNames (items : List Item) : List String := items.filterMap Item.freeName?

/-- The name of the input file, which is the last free name; empty if there is none. -/
def inputName (items : List Item) : String := (freeNames items).getLast?.getD ""

/-- The name of the output file, which is the last one given; empty if there is none. -/
def outputName (items : List Item) : String :=
  (items.filterMap Item.outputName?).getLast?.getD ""

def IsFree (arg : String) : Prop := arg.toList.head? ≠ some '-'

instance : DecidablePred IsFree := fun _ => inferInstanceAs (Decidable (_ ≠ _))

/-- Items that make sense together: their free names do not look like options, and only the last of
these names can be filled. -/
@[mk_iff]
structure Legal (items : List Item) : Prop where
  free : ∀ name ∈ freeNames items, IsFree name
  single : ∀ name ∈ (freeNames items).dropLast, name = ""

/-- A call for help is reached, and all before it makes sense. -/
def AsksHelp (args : List String) : Prop :=
  ∃ items call rest, args = spell items ++ call :: rest ∧ Legal items ∧
    (call = "-h" ∨ call = "--help")

/-! ## Reading one item -/

theorem IsFree.ne {arg : String} (h : IsFree arg) {option : String}
    (hoption : option.toList.head? = some '-') : arg ≠ option := by
  rintro rfl
  exact h hoption

/-- The item can be read next: a free name only while the input file has not been named. -/
def Item.Fits (o : Options) : Item → Prop
  | .input name => IsFree name ∧ o.input = ""
  | _ => True

/-- An argument other than `-o` is looked at by itself. -/
theorem scan_cons {arg : String} (h : arg ≠ "-o") (o : Options) (rest : List String) :
    Command.scan o (arg :: rest) =
      if arg = "-v" then Command.scan { o with verbose := true } rest
      else if arg = "--check" then Command.scan { o with check := true } rest
      else if arg = "-h" ∨ arg = "--help" then .help
      else if IsFree arg ∧ o.input = "" then Command.scan { o with input := arg } rest
      else .unknown arg := by
  rw [Command.scan.eq_def]
  exact if_neg h

/-- Reading an item changes the options and goes on behind it. -/
theorem scan_item {o : Options} {item : Item} (h : item.Fits o) (rest : List String) :
    Command.scan o (item.args ++ rest) = Command.scan (item.apply o) rest := by
  cases item with
  | verbose => exact scan_cons (by decide) o rest
  | check => exact scan_cons (by decide) o rest
  | output name => rfl
  | input name =>
    have hne : ∀ {option : String}, option.toList.head? = some '-' → name ≠ option := h.1.ne
    rw [Item.args, List.singleton_append, scan_cons (hne rfl), if_neg (hne rfl), if_neg (hne rfl),
      if_neg (not_or.mpr ⟨hne rfl, hne rfl⟩), if_pos ⟨h.1, h.2⟩]
    rfl

/-- Where reading ends, and with what. -/
inductive Stops (o : Options) : List String → Command → Prop
  | unnamed (h : o.input = "") : Stops o [] .noInput
  | done (h : o.input ≠ "") : Stops o [] (.reduce o)
  | help {call : String} (h : call = "-h" ∨ call = "--help") (rest : List String) :
      Stops o (call :: rest) .help
  | nothingBehind : Stops o ["-o"] (.unknown "-o")
  | bad {arg : String} (h : ¬ (IsFree arg ∧ o.input = "")) (output : arg ≠ "-o")
      (verbose : arg ≠ "-v") (check : arg ≠ "--check") (help : ¬ (arg = "-h" ∨ arg = "--help"))
      (rest : List String) : Stops o (arg :: rest) (.unknown arg)

theorem Stops.scan_eq {o : Options} {rest : List String} {c : Command} (h : Stops o rest c) :
    Command.scan o rest = c := by
  cases h with
  | unnamed h => rw [Command.scan, if_pos h]
  | done h => rw [Command.scan, if_neg h]
  | help h rest => rcases h with rfl | rfl <;> exact scan_cons (by decide) o rest
  | nothingBehind => rfl
  | bad h output verbose check help rest =>
    rw [scan_cons output, if_neg verbose, if_neg check, if_neg help, if_neg h]

/-! ## Reading all items -/

def FitsAll (o : Options) : List Item → Prop
  | [] => True
  | item :: rest => item.Fits o ∧ FitsAll (item.apply o) rest

theorem scan_spell_append {o : Options} {items : List Item} (h : FitsAll o items)
    (rest : List String) :
    Command.scan o (spell items ++ rest) = Command.scan (items.foldl Item.apply o) rest := by
  induction items generalizing o with
  | nil => rfl
  | cons item items ih =>
    obtain ⟨hitem, hitems⟩ := h
    rw [spell, List.flatMap_cons, List.append_assoc, scan_item hitem]
    exact ih hitems

/-- **Every argument list spells items up to where reading ends.** -/
theorem exists_stops (o : Options) (args : List String) :
    ∃ items rest, args = spell items ++ rest ∧ FitsAll o items ∧
      Stops (items.foldl Item.apply o) rest (Command.scan o args) := by
  -- one item in front of what the rest of the list spells
  have hcons : ∀ {o : Options} (item : Item) {args : List String}, item.Fits o →
      (∃ items rest, args = spell items ++ rest ∧ FitsAll (item.apply o) items ∧
        Stops (items.foldl Item.apply (item.apply o)) rest (Command.scan (item.apply o) args)) →
      ∃ items rest, item.args ++ args = spell items ++ rest ∧ FitsAll o items ∧
        Stops (items.foldl Item.apply o) rest (Command.scan (item.apply o) args) := by
    rintro o item args hitem ⟨items, rest, rfl, hitems, hstops⟩
    exact ⟨item :: items, rest, by simp [spell], ⟨hitem, hitems⟩, hstops⟩
  fun_induction Command.scan o args with
  | case1 o h => exact ⟨[], [], rfl, trivial, .unnamed h⟩
  | case2 o h => exact ⟨[], [], rfl, trivial, .done h⟩
  | case3 o => exact ⟨[], ["-o"], rfl, trivial, .nothingBehind⟩
  | case4 o name rest ih => exact hcons (.output name) trivial ih
  | case5 o rest h ih => exact hcons .verbose trivial ih
  | case6 o rest h1 h2 ih => exact hcons .check trivial ih
  | case7 o arg rest h1 h2 h3 h4 => exact ⟨[], _, rfl, trivial, .help h4 rest⟩
  | case8 o arg rest h1 h2 h3 h4 h5 ih => exact hcons (.input arg) h5 ih
  | case9 o arg rest h1 h2 h3 h4 h5 => exact ⟨[], _, rfl, trivial, .bad h5 h1 h2 h3 h4 rest⟩

/-! ## Which lists can be read to their end -/

theorem fitsAll_iff (o : Options) (items : List Item) : FitsAll o items ↔
    (∀ name ∈ freeNames items, IsFree name) ∧
      ∀ name ∈ (o.input :: freeNames items).dropLast, name = "" := by
  induction items generalizing o with
  | nil => simp [FitsAll, freeNames]
  | cons item items ih =>
    rw [FitsAll, ih]
    cases item with
    | verbose => exact and_iff_right trivial
    | check => exact and_iff_right trivial
    | output name => exact and_iff_right trivial
    | input name =>
      have hnames : freeNames (.input name :: items) = name :: freeNames items := rfl
      rw [hnames, List.dropLast_cons_cons, List.forall_mem_cons, List.forall_mem_cons]
      exact and_and_and_comm

/-- Before anything is read the items that can be read are those that make sense together. -/
theorem fitsAll_default_iff (items : List Item) : FitsAll .default items ↔ Legal items := by
  have hdrop : (∀ name ∈ ("" :: freeNames items).dropLast, name = "") ↔
      ∀ name ∈ (freeNames items).dropLast, name = "" := by
    cases freeNames items with
    | nil => simp
    | cons name names => rw [List.dropLast_cons_cons, List.forall_mem_cons, and_iff_right rfl]
  rw [fitsAll_iff, legal_iff]
  exact and_congr_right' hdrop

theorem input_foldl_apply (o : Options) (items : List Item) :
    (items.foldl Item.apply o).input = (freeNames items).getLast?.getD o.input := by
  induction items generalizing o with
  | nil => rfl
  | cons item items ih =>
    rw [List.foldl_cons, ih]
    cases item with
    | input name => simp [freeNames, Item.freeName?, Item.apply, List.getLast?_cons]
    | _ => rfl

theorem output_foldl_apply (o : Options) (items : List Item) :
    (items.foldl Item.apply o).output =
      (items.filterMap Item.outputName?).getLast?.getD o.output := by
  induction items generalizing o with
  | nil => rfl
  | cons item items ih =>
    rw [List.foldl_cons, ih]
    cases item with
    | output name => simp [Item.outputName?, Item.apply, List.getLast?_cons]
    | _ => rfl

/-! ## What a list amounts to -/

/-- A command other than a complaint about missing arguments is reached by reading items that make
sense together. -/
theorem ofArgs_eq_iff {c : Command} (harguments : c ≠ .noArguments) (hinput : c ≠ .noInput)
    (args : List String) : Command.ofArgs args = c ↔ ∃ items rest, args = spell items ++ rest ∧
      Legal items ∧ Stops (items.foldl Item.apply .default) rest c := by
  have hscan : Command.ofArgs args = c ↔ Command.scan .default args = c := by
    cases args with
    | nil => exact iff_of_false harguments.symm hinput.symm
    | cons arg rest => rfl
  rw [hscan]
  constructor
  · rintro rfl
    obtain ⟨items, rest, hargs, hfits, hstops⟩ := exists_stops .default args
    exact ⟨items, rest, hargs, (fitsAll_default_iff items).mp hfits, hstops⟩
  · rintro ⟨items, rest, rfl, hlegal, hstops⟩
    rw [scan_spell_append ((fitsAll_default_iff items).mpr hlegal)]
    exact hstops.scan_eq

theorem ofArgs_eq_help_iff (args : List String) : Command.ofArgs args = .help ↔ AsksHelp args := by
  refine (ofArgs_eq_iff (by simp) (by simp) args).trans ⟨?_, ?_⟩
  · rintro ⟨items, rest, hargs, hlegal, hstops⟩
    cases hstops with
    | help hcall rest => exact ⟨items, _, rest, hargs, hlegal, hcall⟩
  · rintro ⟨items, call, rest, hargs, hlegal, hcall⟩
    exact ⟨items, call :: rest, hargs, hlegal, .help hcall rest⟩

/-- A list asks for a reduction exactly when it is spelled by items that make sense together and
name the input file. -/
theorem ofArgs_eq_reduce_iff (args : List String) (o : Options) :
    Command.ofArgs args = .reduce o ↔ ∃ items, args = spell items ∧ Legal items ∧
      inputName items ≠ "" ∧ items.foldl Item.apply .default = o := by
  refine (ofArgs_eq_iff (by simp) (by simp) args).trans ⟨?_, ?_⟩
  · rintro ⟨items, rest, hargs, hlegal, hstops⟩
    cases hstops with
    | done hnamed =>
      rw [input_foldl_apply] at hnamed
      exact ⟨items, hargs.trans (List.append_nil _), hlegal, hnamed, rfl⟩
  · rintro ⟨items, hargs, hlegal, hnamed, rfl⟩
    refine ⟨items, [], hargs.trans (List.append_nil _).symm, hlegal, .done ?_⟩
    rwa [input_foldl_apply]

end Multitrack.CommandLine
