import Multitrack.Order

/-! # Heads and sets of heads

The two heads of the emulated machine are numbered one and two. A set of heads is written as a mask in
which bit zero stands for head one and bit one for head two; other bits of a mask mean nothing. -/
namespace Multitrack

inductive Head where
  | one
  | two
deriving DecidableEq, Repr

namespace Head

def all : List Head := [.one, .two]

def other : Head → Head
  | .one => .two
  | .two => .one

/-- The number of a head, which is also the mask of the set that holds it alone. -/
def number : Head → Int
  | .one => 1
  | .two => 2

/-- The head that a number selects: head one for the number one, head two for every other. -/
def ofNumber (n : Int) : Head := if n = 1 then .one else .two

@[simp] theorem ofNumber_number (h : Head) : ofNumber h.number = h := by
  cases h <;> rfl

@[simp] theorem other_other (h : Head) : h.other.other = h := by
  cases h <;> rfl

end Head

structure HeadSet where
  one : Bool
  two : Bool
deriving DecidableEq, Repr

namespace HeadSet

def none : HeadSet := ⟨false, false⟩

def both : HeadSet := ⟨true, true⟩

def only : Head → HeadSet
  | .one => ⟨true, false⟩
  | .two => ⟨false, true⟩

def all : List HeadSet := [none, only .one, only .two, both]

def has (s : HeadSet) : Head → Bool
  | .one => s.one
  | .two => s.two

def union (s t : HeadSet) : HeadSet := ⟨s.one || t.one, s.two || t.two⟩

def diff (s t : HeadSet) : HeadSet := ⟨s.one && !t.one, s.two && !t.two⟩

def meets (s t : HeadSet) : Bool := (s.one && t.one) || (s.two && t.two)

def insert (s : HeadSet) (h : Head) : HeadSet := s.union (only h)

def erase (s : HeadSet) (h : Head) : HeadSet := s.diff (only h)

def mask (s : HeadSet) : Int := (if s.one then 1 else 0) + (if s.two then 2 else 0)

/-- The set that a mask stands for. Only its two lowest bits count, and a negative mask is read in
two's complement. -/
def ofMask (m : Int) : HeadSet := ⟨m % 2 = 1, m / 2 % 2 = 1⟩

def label : HeadSet → String
  | ⟨false, false⟩ => "-"
  | ⟨true, false⟩ => "1"
  | ⟨false, true⟩ => "2"
  | ⟨true, true⟩ => "12"

@[simp] theorem ofMask_mask (s : HeadSet) : ofMask s.mask = s := by
  obtain ⟨_ | _, _ | _⟩ := s <;> rfl

theorem mask_injective (s t : HeadSet) (h : s.mask = t.mask) : s = t := by
  rw [← ofMask_mask s, h, ofMask_mask]

/-- Sets are ordered by their masks. -/
instance : Ord HeadSet := ⟨compareOn mask⟩

instance : Std.TransOrd HeadSet := inferInstanceAs (Std.TransCmp (compareOn mask))

instance : Std.LawfulEqOrd HeadSet := lawfulEqCmp_compareOn mask mask_injective

end HeadSet

end Multitrack
