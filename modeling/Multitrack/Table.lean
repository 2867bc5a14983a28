import Multitrack.Run
import Multitrack.Text

/-! # Single-tape tables

A table is a list of rows, and the first row that matches state and letter applies. A table is sound
when no row leaves a halting state and no two rows match the same state and letter; `Table.fault?`
goes through the states and their letters in order and stops at the first offence. -/
namespace Multitrack

/-- In `state` and on `read`, write `write`, move by `dir` and go to `next`. -/
structure Row where
  state : StateName
  read : Letter
  next : StateName
  write : Letter
  dir : Dir
deriving DecidableEq, Repr

namespace Row

/-- What a row matches: a state and the letter under the head. -/
structure Key where
  state : StateName
  read : Letter
deriving DecidableEq, Repr

/-- Keys are ordered by state, then by letter. -/
instance : Ord Key := ⟨compareLex (compareOn Key.state) (compareOn Key.read)⟩

instance : Std.TransOrd Key :=
  inferInstanceAs (Std.TransCmp (compareLex (compareOn Key.state) (compareOn Key.read)))

instance : Std.LawfulEqOrd Key where
  eq_of_compare := by
    intro ⟨q, s⟩ ⟨q', s'⟩ h
    obtain ⟨hq, hs⟩ := compareLex_eq_eq.mp h
    exact Key.mk.injEq .. ▸ ⟨Std.LawfulEqCmp.eq_of_compare hq, Std.LawfulEqCmp.eq_of_compare hs⟩

def key (r : Row) : Key := ⟨r.state, r.read⟩

theorem key_eq_iff {r : Row} {q : StateName} {s : Letter} :
    r.key = ⟨q, s⟩ ↔ r.state = q ∧ r.read = s := by
  rw [key, Key.mk.injEq]

def fields (r : Row) : List String := [r.state, r.read, r.next, r.write, r.dir.letter]

def line (r : Row) : String := Text.spaced r.fields

def listing (rows : List Row) : String := Text.unlines (rows.map line)

end Row

/-- Rows, with the states and letters that are declared whether or not a row names them. -/
structure Table where
  declaredStates : List StateName
  declaredLetters : List Letter
  rows : List Row
deriving DecidableEq, Repr

namespace Table

def empty : Table := ⟨[], [], []⟩

/-- The table of the given rows, in which the three fixed states and the blank are declared. -/
def ofRows (rows : List Row) : Table := ⟨[startState, acceptState, rejectState], [blank], rows⟩

def add (t : Table) (r : Row) : Table := { t with rows := t.rows ++ [r] }

def size (t : Table) : Nat := t.rows.length

/-- The states declared or named by a row, in increasing order. -/
def states (t : Table) : List StateName :=
  sortedNames (t.declaredStates ++ t.rows.flatMap fun r => [r.state, r.next])

def letters (t : Table) : List Letter :=
  sortedNames (t.declaredLetters ++ t.rows.flatMap fun r => [r.read, r.write])

/-- The rows of a state, ordered by letter; rows for one letter stay in the order of the table. -/
def rowsFrom (t : Table) (q : StateName) : List Row :=
  (t.rows.filter (·.state = q)).mergeSort fun r r' => (compare r.read r'.read).isLE

/-- Every state that has rows, in increasing order, with its rows. -/
def rowsByState (t : Table) : List (StateName × List Row) :=
  (sortedNames (t.rows.map Row.state)).map fun q => (q, t.rowsFrom q)

/-- Looks a state up among those that have rows, and then the first of its rows whose letter is not
below the one sought. -/
def search (t : Table) (q : StateName) (s : Letter) : Option Row :=
  (t.rowsByState.find? fun x => x.1 = q).bind fun x =>
    (x.2.find? fun r => (compare s r.read).isLE).filter fun r => r.read = s

/-! ## Soundness -/

/-- An offence against soundness. -/
inductive Fault where
  /-- A halting state has rows. -/
  | halting (q : StateName)
  /-- Two rows match one state and letter. -/
  | repeated (q : StateName) (s : Letter)
deriving DecidableEq, Repr

def Fault.message : Fault → String
  | .halting q => "Halting state has outgoing rows: " ++ q
  | .repeated q s => "Nondeterministic rows for (" ++ q ++ ", " ++ s ++ ")"

/-- The rest of some sorted rows, from the first letter above the given one. -/
def upperBound (rows : List Row) (s : Letter) : List Row :=
  rows.dropWhile fun r => (compare r.read s).isLE

/-- Goes from letter to letter through the rows from `place` on, and stops at the first letter that
more than one of `rows` is for. -/
def repeatedFrom (rows place : List Row) : Option Letter :=
  match place with
  | [] => none
  | r :: rest =>
    if 1 < rows.countP (·.read = r.read) then some r.read
    else repeatedFrom rows (upperBound rest r.read)
termination_by place.length
decreasing_by exact Nat.lt_succ_of_le (List.dropWhile_sublist _).length_le

/-- What is wrong with a state that has the given rows, of which there is at least one. A halting state
may have none, and another one may have one for each letter. -/
def stateFault? (q : StateName) (rows : List Row) : Option Fault :=
  if isHalting q then some (.halting q) else (repeatedFrom rows rows).map (.repeated q)

/-- Goes through the states in order and stops at the first that has a fault. -/
def fault? (t : Table) : Option Fault := t.rowsByState.findSome? fun (q, rows) => stateFault? q rows

/-! ## Running a table -/

abbrev Index := Std.TreeMap Row.Key Row

def index (t : Table) : Index := firstByKey Row.key t.rows

def Index.next? (index : Index) (q : StateName) (tape : Tape) : Option (StateName × Tape) :=
  index[Row.Key.mk q tape.read]?.map fun r => (r.next, (tape.write r.write).move r.dir)

theorem next?_index (t : Table) (q : StateName) (tape : Tape) :
    t.index.next? q tape = (t.rows.find? fun r => r.key = ⟨q, tape.read⟩).map fun r =>
      (r.next, (tape.write r.write).move r.dir) := by
  rw [Index.next?, index, getElem?_firstByKey]

/-- The machine that runs on an index. An empty input is one blank cell. -/
def Index.machine (index : Index) : Machine Tape where
  next? := index.next?
  unused := .ofList []
  load input := .ofList (if input.isEmpty then [blank] else input)
  output := id

def machine (t : Table) : Machine Tape := t.index.machine

end Table

end Multitrack
