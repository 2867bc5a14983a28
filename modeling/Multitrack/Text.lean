/-! # Pieces of a text

A line splits into fields at every single space, a text into lines at every line feed, and into words
at every run of blank characters. Fields may be empty, words never are. -/
namespace Multitrack.Text

/-- The pieces of `text` between the characters that satisfy `isMark`. -/
def pieces (isMark : Char → Bool) (text : String) : List String :=
  (text.toList.splitOnP isMark).map String.ofList

/-- The first position of a character at or after `start`. -/
def find? (c : Char) (line : List Char) (start : Nat) : Option Nat :=
  ((line.drop start).findIdx? (· == c)).map (start + ·)

theorem find?_bounds {c : Char} {line : List Char} {start pos : Nat}
    (h : find? c line start = some pos) : start ≤ pos ∧ pos < line.length := by
  obtain ⟨i, hi, rfl⟩ := Option.map_eq_some_iff.mp h
  have hlt := (List.findIdx?_eq_some_iff_getElem.mp hi).1
  rw [List.length_drop] at hlt
  omega

/-- The fields from position `start` on: the characters up to the next space and then the fields after
it, or all that is left where no space follows. -/
def fieldsFrom (line : List Char) (start : Nat) : List (List Char) :=
  match h : find? ' ' line start with
  | none => [line.drop start]
  | some pos => (line.drop start).take (pos - start) :: fieldsFrom line (pos + 1)
termination_by line.length - start
decreasing_by
  have := find?_bounds h
  omega

/-- The fields of a line: what stands between its spaces. Two neighbouring spaces enclose an empty
field, and a line without a space is one field. -/
def fields (line : String) : List String := (fieldsFrom line.toList 0).map String.ofList

/-- The lines of a text. A line feed ends a line, so a text that ends in one has no empty line
after it. -/
def lines (text : String) : List String :=
  let all := pieces (· == '\n') text
  if all.getLast? = some "" then all.dropLast else all

/-- The six blank characters of ASCII: space, tab, line feed, vertical tab, form feed and carriage
return. No other character separates words. -/
def isBlank (c : Char) : Bool :=
  c == ' ' || c == '\t' || c == '\n' || c == '\x0b' || c == '\x0c' || c == '\r'

/-- The words of a text: the longest pieces without a blank character. -/
def words (text : String) : List String := (pieces isBlank text).filter (· ≠ "")

/-- The line without one carriage return at its end, if it has any. -/
def dropReturn (line : String) : String :=
  if line.toList.getLast? = some '\r' then String.ofList line.toList.dropLast else line

/-- What stands before the first null character. Messages and arguments end there. -/
def beforeNull (text : String) : String := String.ofList (text.toList.takeWhile (· ≠ '\x00'))

def spaced (parts : List String) : String := " ".intercalate parts

def unlines (parts : List String) : String := String.join (parts.map (· ++ "\n"))

end Multitrack.Text
