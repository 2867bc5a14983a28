import Multitrack.Text
import Multitrack.TwoTape.Transition

/-! # Listings of two-tape machines

A listing has one transition per line, eight fields with one space between neighbours. Empty lines
and lines that begin with two slashes are skipped, and a carriage return at the end of a line is
dropped. Reading stops at the first line that is not well formed and says what is wrong with it. -/
namespace Multitrack

namespace TwoTape

inductive Field where
  | state
  | read1
  | read2
  | next
  | write1
  | write2
  | dir1
  | dir2
deriving DecidableEq, Repr

namespace Field

def all : List Field := [.state, .read1, .read2, .next, .write1, .write2, .dir1, .dir2]

def label : Field → String
  | .state => "state"
  | .read1 => "symbol1"
  | .read2 => "symbol2"
  | .next => "target state"
  | .write1 => "write symbol1"
  | .write2 => "write symbol2"
  | .dir1 => "direction1"
  | .dir2 => "direction2"

end Field

inductive LineFault where
  /-- The line has another number of fields than eight. -/
  | fieldCount (got : Nat)
  /-- A field is empty. -/
  | emptyField (field : Field)
  /-- A direction field holds no direction. -/
  | badDirection (field : Field) (text : String)
deriving DecidableEq, Repr

def LineFault.message : LineFault → String
  | .fieldCount got => "expected 8 fields, got " ++ toString got
  | .emptyField field => "empty " ++ field.label
  | .badDirection field text =>
    "invalid " ++ field.label ++ " '" ++ text ++ "' (expected L, R or S)"

/-- The first bad line of a listing, counted from one, and its fault. -/
structure ListingError where
  line : Nat
  fault : LineFault
deriving DecidableEq, Repr

/-- The wording of a listing's error, up to the first null character. -/
def ListingError.message (e : ListingError) : String :=
  Text.beforeNull ("line " ++ toString e.line ++ ": " ++ e.fault.message)

def readDir (field : Field) (text : String) : Except LineFault Dir :=
  match Dir.ofLetter? text with
  | some d => .ok d
  | none => .error (.badDirection field text)

def emptyField? (texts : List String) : Option Field :=
  ((Field.all.zip texts).find? fun (_, text) => text = "").map Prod.fst

/-- The transition on a line. The number of fields is looked at first, then empty fields, then the
two directions. -/
def readLine (line : String) : Except LineFault Transition :=
  match Text.fields line with
  | [state, read1, read2, next, write1, write2, dir1, dir2] =>
    match emptyField? [state, read1, read2, next, write1, write2, dir1, dir2] with
    | some field => .error (.emptyField field)
    | none => do
      let dir1 ← readDir .dir1 dir1
      let dir2 ← readDir .dir2 dir2
      return { state, read1, read2, next, write1, write2, dir1, dir2 }
  | texts => .error (.fieldCount texts.length)

/-- The line holds no transition: it is empty or a comment. -/
def isSkipped (line : String) : Bool := line.isEmpty || line.toList.take 2 == ['/', '/']

/-- The lines that hold transitions, with their numbers in the text. -/
def numberedLines (text : String) : List (String × Nat) :=
  (((Text.lines text).map Text.dropReturn).zipIdx 1).filter fun (line, _) => !isSkipped line

def parse (text : String) : Except ListingError (List Transition) :=
  (numberedLines text).mapM fun (line, n) => (readLine line).mapError fun fault => ⟨n, fault⟩

end TwoTape

namespace Transition

def fields (t : Transition) : List String :=
  [t.state, t.read1, t.read2, t.next, t.write1, t.write2, t.dir1.letter, t.dir2.letter]

/-- The fields of a transition are its states, its letters and its directions. -/
theorem mem_fields {t : Transition} {s : String} :
    s ∈ t.fields ↔ s ∈ t.letters ∨ s ∈ t.states ∨ s = t.dir1.letter ∨ s = t.dir2.letter := by
  simp only [fields, letters, states, List.mem_cons, List.not_mem_nil, or_false]
  grind

def line (t : Transition) : String := Text.spaced t.fields

def listing (ts : List Transition) : String := Text.unlines (ts.map line)

end Transition

end Multitrack
