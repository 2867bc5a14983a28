import Mathlib.Data.Prod.Lex
import Mathlib.Order.Compare
import Mathlib.Tactic
import Multitrack.Proofs.NameOrder
import Multitrack.Rule

/-! # Orders member by member

Cells, control states and rules are compared by one member after the other. Kinds, phases and directions
go by the position in which they are declared, texts by their bytes, and lists by the first place at
which they differ. A key spells all this out in orders that are known to be linear. Values are compared
as their keys are and no two values have one key, so that of any two values one is the smaller, or they
agree in every member. -/
namespace Multitrack

/-! ## Comparing by keys -/

/-- Values are compared as their keys are. -/
def KeyedBy {α κ : Type} [LT κ] (cmp : α → α → Ordering) (key : α → κ) : Prop :=
  ∀ a b, (cmp a b).Compares (key a) (key b)

/-- Pairs and non-empty lists are compared by their first parts and, where these are equal, by the
second ones. -/
theorem compares_then {κ κ' γ : Type} [LT κ] [LT κ'] [LT γ] {f : κ → κ' → γ}
    (hlt : ∀ {x y x' y'}, f x x' < f y y' ↔ x < y ∨ x = y ∧ x' < y') {o o' : Ordering}
    {x y : κ} {x' y' : κ'} (h : o.Compares x y) (h' : o'.Compares x' y') :
    (o.then o').Compares (f x x') (f y y') := by
  cases o with
  | lt => exact hlt.mpr (.inl h)
  | gt => exact hlt.mpr (.inl h)
  | eq =>
    obtain rfl : x = y := h
    cases o' with
    | lt => exact hlt.mpr (.inr ⟨rfl, h'⟩)
    | gt => exact hlt.mpr (.inr ⟨rfl, h'⟩)
    | eq => exact congrArg (f x) h'

namespace KeyedBy

variable {α β κ κ' : Type} [LinearOrder κ] [LinearOrder κ']

theorem of_linearOrder : KeyedBy compare (id : κ → κ) :=
  fun a b => (compare_iff a b).mp rfl

theorem on [Ord β] {key : β → κ} (h : KeyedBy compare key) (member : α → β) :
    KeyedBy (compareOn member) fun a => key (member a) :=
  fun a b => h (member a) (member b)

theorem lex {cmp cmp' : α → α → Ordering} {key : α → κ} {key' : α → κ'} (h : KeyedBy cmp key)
    (h' : KeyedBy cmp' key') : KeyedBy (compareLex cmp cmp') fun a => toLex (key a, key' a) :=
  fun a b => compares_then (f := fun x x' => toLex (x, x')) Prod.Lex.toLex_lt_toLex (h a b) (h' a b)

/-- Lists are compared element by element, and one that begins another comes before it. -/
theorem list [Ord α] {key : α → κ} (h : KeyedBy compare key) :
    KeyedBy compare fun l : List α => l.map key := by
  intro l l'
  rw [List.compare_eq_compareLex]
  induction l generalizing l' with
  | nil =>
    cases l' with
    | nil => exact rfl
    | cons b rest' => exact List.nil_lt_cons _ _
  | cons a rest ih =>
    cases l' with
    | nil => exact List.nil_lt_cons _ _
    | cons b rest' =>
      rw [List.compareLex_cons_cons]
      exact compares_then List.cons_lt_cons_iff (h a b) (ih rest')

/-- A comparison that calls only equal values equal goes by a key that tells values apart. -/
theorem injective [Ord α] [Std.LawfulEqOrd α] {key : α → κ} (h : KeyedBy compare key) :
    Function.Injective key := by
  intro a b hkey
  exact Std.LawfulEqCmp.eq_of_compare ((h a b).eq_eq.mpr hkey)

end KeyedBy

theorem keyedBy_nameBytes : KeyedBy compare nameBytes :=
  fun s t => strictMono_nameBytes.compares.mpr (KeyedBy.of_linearOrder s t)

theorem Cell.Kind.keyedBy_ctorIdx : KeyedBy compare Cell.Kind.ctorIdx :=
  KeyedBy.of_linearOrder.on Cell.Kind.ctorIdx

theorem Phase.keyedBy_ctorIdx : KeyedBy compare Phase.ctorIdx :=
  KeyedBy.of_linearOrder.on Phase.ctorIdx

theorem Dir.keyedBy_ctorIdx : KeyedBy compare Dir.ctorIdx :=
  KeyedBy.of_linearOrder.on Dir.ctorIdx

theorem HeadSet.keyedBy_mask : KeyedBy compare HeadSet.mask :=
  KeyedBy.of_linearOrder.on HeadSet.mask

/-! ## The keys of cells, control states and rules -/

/-- The kind, both letters, the heads and the marker. -/
abbrev Cell.Key := ℕ ×ₗ List ℕ ×ₗ List ℕ ×ₗ ℤ ×ₗ List ℕ

def Cell.key (c : Cell) : Cell.Key :=
  toLex (c.kind.ctorIdx, toLex (nameBytes c.letter1, toLex (nameBytes c.letter2,
    toLex (c.tag.mask, nameBytes c.marker))))

/-- The phase, the letters, the directions and the heads. -/
abbrev Control.Key := ℕ ×ₗ List (List ℕ) ×ₗ List ℕ ×ₗ ℤ

def Control.key (c : Control) : Control.Key :=
  toLex (c.phase.ctorIdx, toLex (c.letters.map nameBytes, toLex (c.dirs.map Dir.ctorIdx, c.heads)))

/-- The source, what is read, the target, what is written and the direction. -/
abbrev Rule.Key := Control.Key ×ₗ Cell.Key ×ₗ Control.Key ×ₗ Cell.Key ×ₗ ℕ

def Rule.key (r : Rule) : Rule.Key :=
  toLex (r.source.key, toLex (r.read.key, toLex (r.target.key, toLex (r.write.key, r.dir.ctorIdx))))

theorem Cell.keyedBy_key : KeyedBy compare Cell.key :=
  (Cell.Kind.keyedBy_ctorIdx.on kind).lex <| (keyedBy_nameBytes.on letter1).lex <|
    (keyedBy_nameBytes.on letter2).lex <| (HeadSet.keyedBy_mask.on tag).lex <|
      keyedBy_nameBytes.on marker

theorem Control.keyedBy_key : KeyedBy compare Control.key :=
  (Phase.keyedBy_ctorIdx.on phase).lex <| (keyedBy_nameBytes.list.on letters).lex <|
    (Dir.keyedBy_ctorIdx.list.on dirs).lex <| KeyedBy.of_linearOrder.on heads

theorem Rule.keyedBy_key : KeyedBy compare Rule.key :=
  (Control.keyedBy_key.on source).lex <| (Cell.keyedBy_key.on read).lex <|
    (Control.keyedBy_key.on target).lex <| (Cell.keyedBy_key.on write).lex <|
      Dir.keyedBy_ctorIdx.on dir

/-! ## Strict total orders -/

def ExactlyOne (p q r : Prop) : Prop := p ∧ ¬q ∧ ¬r ∨ ¬p ∧ q ∧ ¬r ∨ ¬p ∧ ¬q ∧ r

/-- The order is strict, and of any two values that are not equal one is the smaller. -/
structure StrictlyTotal (α : Type) [LT α] [BEq α] : Prop where
  irrefl : ∀ a : α, ¬a < a
  trans : ∀ a b c : α, a < b → b < c → a < c
  exactlyOne : ∀ a b : α, ExactlyOne (a < b) (a == b) (b < a)

/-- Values that are compared by keys are strictly and totally ordered, since the keys are. -/
theorem KeyedBy.strictlyTotal {α κ : Type} [LT α] [Ord α] [Std.LawfulEqOrd α] [DecidableEq α]
    [LinearOrder κ] {key : α → κ} (h : KeyedBy compare key)
    (lt_iff : ∀ a b : α, a < b ↔ compare a b = .lt) :
    StrictlyTotal α ∧ ∀ a b, a < b ↔ key a < key b := by
  have hlt : ∀ a b, a < b ↔ key a < key b := fun a b => (lt_iff a b).trans (h a b).eq_lt
  refine ⟨⟨fun a => ?_, fun a b c => ?_, fun a b => ?_⟩, hlt⟩
  · rw [hlt]
    exact lt_irrefl _
  · rw [hlt, hlt, hlt]
    exact lt_trans
  · rw [ExactlyOne, beq_iff_eq, hlt, hlt, ← h.injective.eq_iff]
    rcases lt_trichotomy (key a) (key b) with hab | hab | hab
    · exact .inl ⟨hab, hab.ne, hab.not_gt⟩
    · exact .inr (.inl ⟨hab.not_lt, hab, hab.not_gt⟩)
    · exact .inr (.inr ⟨hab.not_gt, hab.ne', hab⟩)

/-- **Cells, control states and rules are strictly and totally ordered.** Whatever their members are, also
those that the kind or the phase does not use, the order is irreflexive and transitive, and of any two
values either the first is the smaller, or they are equal, or the second is the smaller. It is the order
of the members in turn, texts being compared by their bytes. -/
theorem members_strictly_ordered :
    (StrictlyTotal Cell ∧ ∀ a b : Cell, a < b ↔ a.key < b.key) ∧
    (StrictlyTotal Control ∧ ∀ a b : Control, a < b ↔ a.key < b.key) ∧
    StrictlyTotal Rule ∧ ∀ a b : Rule, a < b ↔ a.key < b.key :=
  ⟨Cell.keyedBy_key.strictlyTotal fun _ _ => Iff.rfl,
    Control.keyedBy_key.strictlyTotal fun _ _ => Iff.rfl,
    Rule.keyedBy_key.strictlyTotal fun _ _ => Iff.rfl⟩

-- the name of a plain cell does not show its marker, but its place in the order does
example : (⟨.plain, "a", "", .none, "p"⟩ : Cell) < ⟨.plain, "a", "", .none, "q"⟩ := by decide

end Multitrack
