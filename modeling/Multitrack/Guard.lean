import Multitrack.Rule
import Multitrack.Table

/-! # Names of cells and control states

The cells and control states of the emulation need names that no token of the emulated machine has. A
name is guarded: it stands between more opening parentheses than any token holds. Inside, the parts of
a name are divided by commas, and a comma or backslash in a part is escaped, so that names can be told
apart. -/
namespace Multitrack

def openParens (text : String) : Nat := text.toList.count '('

/-- The text with a backslash before each backslash and comma. -/
def escape (text : String) : String :=
  String.ofList (text.toList.flatMap fun c => if c = '\\' ∨ c = ',' then ['\\', c] else [c])

/-- How many parentheses guard a name; at least one. -/
structure Guard where
  depth : Nat
  positive : 0 < depth
deriving DecidableEq, Repr

namespace Guard

def ofDepth (depth : Int) : Except NamingError Guard :=
  if h : 0 < depth then .ok ⟨depth.toNat, by omega⟩ else .error .nonPositiveGuard

/-- The least guard that none of the tokens contains. -/
def above (tokens : List String) : Guard := ⟨(tokens.map openParens).foldl max 0 + 1, by omega⟩

/-- The parts of a name: a colon before the first one and commas between them. -/
def joinParts : List String → String
  | [] => ""
  | parts => ":" ++ ",".intercalate (parts.map escape)

def wrap (g : Guard) (tag : String) (parts : List String) : String :=
  String.ofList (List.replicate g.depth '(') ++ tag ++ joinParts parts ++
    String.ofList (List.replicate g.depth ')')

/-- The name of a cell. A plain cell has the name of its letter. -/
def cell (g : Guard) (c : Cell) : Letter :=
  match c.kind with
  | .plain => c.letter1
  | .tracked => g.wrap "cell" [c.letter1, c.letter2, c.tag.label]
  | .anchor => if c.marker = startState then g.wrap "sentinel" [] else g.wrap "at" [c.marker]

/-- The letters to be written, each followed by its direction if it has one. -/
def moveParts : List Letter → List Dir → List String
  | [], _ => []
  | s :: letters, [] => s :: moveParts letters []
  | s :: letters, d :: dirs => s :: d.letter :: moveParts letters dirs

/-- The name of a control state. The three fixed states keep their names. -/
def control (g : Guard) (c : Control) : StateName :=
  match c.phase with
  | .init => startState
  | .accept => acceptState
  | .reject => rejectState
  | .shiftCarry => g.wrap "shift" c.letters
  | .shiftReturn => g.wrap "shift-back" []
  | .pack => g.wrap "pack" []
  | .packReturn => g.wrap "pack-back" []
  | .packHead => g.wrap "pack-head" []
  | .locate => g.wrap (if c.heads = 0 then "locate" else "locate" ++ toString c.heads) c.letters
  | .deliver => g.wrap "fire" c.letters
  | .seek => g.wrap ("seek" ++ (HeadSet.ofMask c.heads).label) (moveParts c.letters c.dirs)
  | .stepLeft => g.wrap ("left" ++ toString c.heads) (moveParts c.letters c.dirs)
  | .stepRight => g.wrap ("right" ++ toString c.heads) (moveParts c.letters c.dirs)
  | .clamp => g.wrap ("clamp" ++ toString c.heads) (moveParts c.letters c.dirs)
  | .rewind => g.wrap "rewind" []

def row (g : Guard) (r : Rule) : Row where
  state := g.control r.source
  read := g.cell r.read
  next := g.control r.target
  write := g.cell r.write
  dir := r.dir

end Guard

end Multitrack
