import Mathlib.Tactic
import Multitrack.Proofs.Signatures

/-! # Names in the order of their bytes

Names are compared by their characters. In UTF-8 a character with a greater code has greater bytes, and
no character's bytes begin those of another, so that this is also the order of the bytes. The least of
some names is the one whose bytes come first. -/
namespace Multitrack

/-! ## Bytes -/

def charBytes (c : Char) : List Nat := (String.utf8EncodeChar c).map UInt8.toNat

def nameBytes (s : String) : List Nat := s.toUTF8.data.toList.map UInt8.toNat

theorem nameBytes_eq_flatMap (s : String) : nameBytes s = s.toList.flatMap charBytes := by
  have hbytes : s.toUTF8.data.toList = s.toList.flatMap String.utf8EncodeChar := by
    rw [String.toUTF8_eq_toByteArray, ← String.utf8Encode_toList, List.utf8Encode,
      List.toList_data_toByteArray]
  rw [nameBytes, hbytes, List.map_flatMap]
  rfl

theorem charBytes_ne_nil (c : Char) : charBytes c ≠ [] :=
  fun h => String.utf8EncodeChar_ne_nil (List.map_eq_nil_iff.mp h)

/-- A character with a greater code has greater bytes, whatever comes after them. -/
theorem charBytes_append_lt {c d : Char} (h : c < d) (xs ys : List Nat) :
    charBytes c ++ xs < charBytes d ++ ys := by
  have hcode : c.val.toNat < d.val.toNat := h
  have hbound : d.val.toNat < 0x110000 := by
    rcases d.valid with hd | hd <;> omega
  -- six bits are a digit to the base 64, so the codes are divided by 64 again and again
  have htwo : ∀ n : Nat, n / 4096 = n / 64 / 64 := fun n => (Nat.div_div_eq_div_mul n 64 64).symm
  have hthree : ∀ n : Nat, n / 262144 = n / 64 / 64 / 64 := fun n => by
    rw [Nat.div_div_eq_div_mul, Nat.div_div_eq_div_mul]
  simp only [charBytes, String.utf8EncodeChar, htwo, hthree]
  generalize c.val.toNat = v at *
  generalize d.val.toNat = w at *
  -- longer codes begin with greater bytes, and codes of one length are compared digit by digit
  split_ifs <;>
    simp only [List.map_cons, List.map_nil, List.cons_append, List.nil_append,
      List.cons_lt_cons_iff, UInt8.toNat_ofNat'] <;>
    omega

theorem flatMap_charBytes_lt {l l' : List Char} (h : l < l') :
    l.flatMap charBytes < l'.flatMap charBytes := by
  induction h with
  | @nil c rest =>
    cases hbytes : charBytes c with
    | nil => exact absurd hbytes (charBytes_ne_nil c)
    | cons b bytes => simp [hbytes]
  | @cons c rest rest' _ ih =>
    rw [List.flatMap_cons, List.flatMap_cons]
    exact List.append_left_lt ih
  | rel hlt =>
    rw [List.flatMap_cons, List.flatMap_cons]
    exact charBytes_append_lt hlt _ _

/-- **Names are ordered as their bytes are.** -/
theorem strictMono_nameBytes : StrictMono nameBytes := by
  intro s t h
  rw [nameBytes_eq_flatMap, nameBytes_eq_flatMap]
  exact flatMap_charBytes_lt (String.lt_iff_toList_lt.mp h)

/-! ## The least name -/

/-- The name has the property, and the bytes of no other name that has it come before its bytes. -/
structure LeastName (P : String → Prop) (s : String) : Prop where
  holds : P s
  le : ∀ t, P t → nameBytes s ≤ nameBytes t

theorem LeastName.unique {P : String → Prop} {s t : String} (hs : LeastName P s)
    (ht : LeastName P t) : s = t :=
  strictMono_nameBytes.injective (le_antisymm (hs.le t ht.holds) (ht.le s hs.holds))

theorem LeastName.congr {P Q : String → Prop} (h : ∀ s, P s ↔ Q s) {s : String}
    (hs : LeastName P s) : LeastName Q s :=
  ⟨(h s).mp hs.holds, fun t ht => hs.le t ((h t).mpr ht)⟩

/-- What a search through names in order finds first, it finds at the least name at which it finds
anything. -/
theorem leastName_of_findSome? {β : Type} {f : String → Option β} {names : List String} {b : β}
    (hsorted : names.Pairwise (· ≤ ·)) (h : names.findSome? f = some b) :
    ∃ s, f s = some b ∧ LeastName (fun t => t ∈ names ∧ f t ≠ none) s := by
  obtain ⟨before, s, after, rfl, hs, hbefore⟩ := List.findSome?_eq_some_iff.mp h
  have hleast := (List.pairwise_cons.mp (List.pairwise_append.mp hsorted).2.1).1
  refine ⟨s, hs, ⟨⟨by simp, by simp [hs]⟩, fun t ht => ?_⟩⟩
  obtain ⟨hmem, hfound⟩ := ht
  refine strictMono_nameBytes.monotone ?_
  rcases List.mem_append.mp hmem with hmem | hmem
  · exact absurd (hbefore t hmem) hfound
  · rcases List.mem_cons.mp hmem with heq | hmem
    · exact heq.ge
    · exact hleast t hmem

end Multitrack
