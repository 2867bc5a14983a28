import Multitrack.Tape

/-! # Runs

A machine says, for a state and its tapes, which state and tapes come next. A run begins in the start
state and ends in a halting state; where the machine has nothing to say the run rejects. A session
holds one machine together with the configuration that earlier commands left it in. -/
namespace Multitrack

/-- A machine whose storage is a `τ`. -/
structure Machine (τ : Type) where
  /-- The next state and tapes, if the machine has a row for the present ones. -/
  next? : StateName → τ → Option (StateName × τ)
  /-- The tapes before any input has been put on them. -/
  unused : τ
  /-- The tapes that hold an input. -/
  load : List Letter → τ
  /-- The tape whose contents are the result of a run. -/
  output : τ → Tape

/-- A moment of a run: state, tapes, and how many rows have been applied since the input was loaded. -/
structure Configuration (τ : Type) where
  state : StateName
  tapes : τ
  steps : Nat
deriving Repr

structure Outcome where
  accepted : Bool
  steps : Nat
  hitLimit : Bool
  finalTape : List Letter
deriving DecidableEq, Repr

namespace Configuration

variable {τ : Type}

def unused (m : Machine τ) : Configuration τ := ⟨"", m.unused, 0⟩

def initial (m : Machine τ) (input : List Letter) : Configuration τ :=
  ⟨startState, m.load input, 0⟩

def halted (c : Configuration τ) : Bool := isHalting c.state

def accepted (c : Configuration τ) : Bool := c.halted && c.state == acceptState

/-- One step. A halted configuration stays as it is, and one without a row rejects where it stands,
which does not count as a step. -/
def step (m : Machine τ) (c : Configuration τ) : Configuration τ :=
  if c.halted then c
  else match m.next? c.state c.tapes with
    | some (q, tapes) => ⟨q, tapes, c.steps + 1⟩
    | none => { c with state := rejectState }

/-- At most `n` steps, fewer if the run is over before. -/
def advance (m : Machine τ) : Nat → Configuration τ → Configuration τ
  | 0, c => c
  | n + 1, c => if c.halted then c else advance m n (c.step m)

def outcome (m : Machine τ) (limit : Int) (c : Configuration τ) : Outcome where
  accepted := c.accepted
  steps := c.steps
  hitLimit := decide (limit ≤ c.steps) && !c.halted
  finalTape := trimBlanks (m.output c.tapes).cells

end Configuration

/-- A machine in use: its step limit and its present configuration. -/
structure Session (τ : Type) where
  machine : Machine τ
  limit : Int
  now : Configuration τ

namespace Session

variable {τ : Type}

def defaultLimit : Int := 1000000

def new (m : Machine τ) (limit : Int) : Session τ := ⟨m, limit, .unused m⟩

def reset (s : Session τ) (input : List Letter) : Session τ :=
  { s with now := .initial s.machine input }

def step (s : Session τ) : Session τ := { s with now := s.now.step s.machine }

/-- Loads an input and steps until the run is over or the limit is reached. A limit below zero is
reached at once. -/
def run (s : Session τ) (input : List Letter) : Session τ :=
  { s with now := (s.reset input).now.advance s.machine s.limit.toNat }

def outcome (s : Session τ) : Outcome := s.now.outcome s.machine s.limit

end Session

def Machine.run {τ : Type} (m : Machine τ) (limit : Int) (input : List Letter) : Outcome :=
  ((Session.new m limit).run input).outcome

end Multitrack
