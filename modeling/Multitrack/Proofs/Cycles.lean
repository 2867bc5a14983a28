import Mathlib.Tactic
import Multitrack.Proofs.Turns

/-! # Emulation cycles

From a scene at rest the sweep for letters leads to the anchor, a transition fires, and the move
leads to the next scene at rest, whose board is the one that the transition makes of the first. Both
legs end because every turn lowers the cost of the scene, and the cost bounds their length. -/
namespace Multitrack

namespace Scene

variable {sig : Signature}

theorem outlook_of_locate {s : Scene} (h : s.stage.part = .locate) : s.outlook = s.board := by
  obtain ⟨stage, pos, b⟩ := s
  cases stage <;> first | rfl | cases h

theorem Firing.part_eq {s : Scene} (h : s.Firing) : s.stage.part = .locate := by
  obtain ⟨-, a, b, hstage⟩ := h
  rw [hstage]
  rfl

/-- The sweep for letters ends at the anchor, on the board that it began on. -/
theorem Fits.exists_firing {s : Scene} (hf : s.Fits sig) (hpart : s.stage.part = .locate) :
    ∃ (n : Nat) (s' : Scene), View.Run sig .locate n s.view s'.view ∧ s'.Fits sig ∧ s'.Firing ∧
      s'.board = s.board ∧ n + s'.cost ≤ s.cost := by
  induction hcost : s.cost using Nat.strongRecOn generalizing s with
  | ind _ ih =>
    subst hcost
    by_cases hfire : s.Firing
    · exact ⟨0, s, .nil s.view, hf, hfire, rfl, by omega⟩
    obtain ⟨s', hturn⟩ := hf.exists_turn hfire
    obtain ⟨hpart', hlt⟩ | ⟨hrewind, -⟩ := hturn.progress
    · have hlocate : s'.stage.part = .locate := hpart'.trans hpart
      obtain ⟨n, s'', hrun, hfits, hfiring, hboard, hn⟩ := ih _ hlt hturn.fits hlocate rfl
      refine ⟨n + 1, s'', .cons hpart hturn.step hrun, hfits, hfiring, ?_, by omega⟩
      rw [hboard, ← outlook_of_locate hlocate, hturn.outlook_eq, outlook_of_locate hpart]
    · rw [hrewind] at hpart
      cases hpart

/-- The move ends at rest, on the board that it had in view. -/
theorem Fits.exists_atRest {s : Scene} (hf : s.Fits sig) (hpart : s.stage.part = .move) :
    ∃ n, View.Run sig .move n s.view (atRest s.outlook).view ∧ (atRest s.outlook).Fits sig ∧
      n ≤ s.cost := by
  induction hcost : s.cost using Nat.strongRecOn generalizing s with
  | ind _ ih =>
    subst hcost
    have hfire : ¬ s.Firing := by
      intro hfire
      rw [hfire.part_eq] at hpart
      cases hpart
    obtain ⟨s', hturn⟩ := hf.exists_turn hfire
    obtain ⟨hpart', hlt⟩ | ⟨hrewind, hrest⟩ := hturn.progress
    · obtain ⟨n, hrun, hfits, hn⟩ := ih _ hlt hturn.fits (hpart'.trans hpart) rfl
      rw [hturn.outlook_eq] at hrun hfits
      exact ⟨n + 1, .cons hpart hturn.step hrun, hfits, by omega⟩
    · have hboard : s'.board = s.outlook := by
        rw [← hturn.outlook_eq, hrest]
        rfl
      rw [hboard] at hrest
      refine ⟨1, .cons hpart hturn.step (hrest ▸ .nil s'.view), hrest ▸ hturn.fits, ?_⟩
      rw [cost, hrewind]
      exact Nat.succ_le_succ (Nat.zero_le _)

end Scene

/-! ## What a transition makes of a board -/

/-- The board after a transition: a new state, and both heads have acted. -/
def Board.apply (b : Board) (t : Transition) : Board :=
  ((b.withState t.next).act .one ⟨t.write1, t.dir1⟩).act .two ⟨t.write2, t.dir2⟩

namespace Scene

variable {ts : List Transition} {b : Board} {i j : Nat}

/-- The scene in which the letters at `i` and `j` have been brought to the anchor. -/
def atAnchor (b : Board) (i j : Nat) : Scene :=
  ⟨.scan ⟨some (b.letter .one i), some (b.letter .two j)⟩, 0, b⟩

theorem cost_atRest (b : Board) : (atRest b).cost = 4 * b.far + 5 := rfl

theorem cost_atAnchor (b : Board) (i j : Nat) : (atAnchor b i j).cost = 2 * b.far + 6 :=
  congrArg (· + 6) (Nat.zero_add _)

theorem Fits.eq_atAnchor {s : Scene} {sig : Signature} (hf : s.Fits sig) (hfire : s.Firing)
    (h1 : s.board.place .one = some i) (h2 : s.board.place .two = some j) :
    s = atAnchor s.board i j := by
  obtain ⟨stage, pos, b⟩ := s
  obtain ⟨rfl, a, c, rfl⟩ := hfire
  obtain ⟨-, -, -, hheads⟩ := hf
  obtain ⟨i', hi', ha, -⟩ := hheads .one
  obtain ⟨j', hj', hc, -⟩ := hheads .two
  obtain rfl : i = i' := Option.some.inj (h1.symm.trans hi')
  obtain rfl : j = j' := Option.some.inj (h2.symm.trans hj')
  rw [ha a rfl, hc c rfl]
  rfl

theorem exists_atAnchor (hb : b.Sound (.ofTransitions ts)) (h1 : b.place .one = some i)
    (h2 : b.place .two = some j) :
    ∃ n, View.Run (.ofTransitions ts) .locate n (atRest b).view (atAnchor b i j).view ∧
      n + 1 ≤ 2 * b.far := by
  have hplaced : ∀ h, ∃ i, b.place h = some i := by
    intro h
    cases h
    · exact ⟨i, h1⟩
    · exact ⟨j, h2⟩
  obtain ⟨n, s', hrun, hfits, hfire, hboard, hn⟩ := (fits_atRest hb hplaced).exists_firing rfl
  change s'.board = b at hboard
  have hs' : s' = atAnchor b i j := by
    rw [hfits.eq_atAnchor hfire (hboard ▸ h1) (hboard ▸ h2), hboard]
  rw [hs', cost_atAnchor, cost_atRest] at hn
  exact ⟨n, hs' ▸ hrun, by omega⟩

def fired (b : Board) (t : Transition) : Scene := ⟨t.seekStage, 1, b.withState t.next⟩

theorem fits_fired {t : Transition} (hb : b.Sound (.ofTransitions ts)) (h1 : b.place .one = some i)
    (h2 : b.place .two = some j) (ht : t ∈ ts) (hn : isHalting t.next = false) :
    (fired b t).Fits (.ofTransitions ts) := by
  have hstate : t.next ∈ (Signature.ofTransitions ts).anchorStates :=
    Signature.mem_anchorStates.mpr
      ⟨Signature.mem_states.mpr (.inr ⟨t, ht, by simp [Transition.states]⟩), hn⟩
  have hletter : ∀ s ∈ t.letters, s ∈ (Signature.ofTransitions ts).alphabet := fun s hs =>
    Signature.mem_alphabet_of_letters ht hs
  refine ⟨hb.withState hstate, Nat.le_refl 1, ⟨?_, ?_⟩, ?_⟩
  · exact Signature.mem_actions.mpr (hletter _ (by simp [Transition.letters]))
  · exact Signature.mem_actions.mpr (hletter _ (by simp [Transition.letters]))
  · intro h
    cases h
    · exact ⟨i, h1, fun _ => Nat.succ_le_succ (Nat.zero_le i)⟩
    · exact ⟨j, h2, fun _ => Nat.succ_le_succ (Nat.zero_le j)⟩

theorem exists_apply {t : Transition} (hb : b.Sound (.ofTransitions ts)) (h1 : b.place .one = some i)
    (h2 : b.place .two = some j) (ht : t ∈ ts) (hn : isHalting t.next = false) :
    ∃ n, View.Run (.ofTransitions ts) .move n (fired b t).view (atRest (b.apply t)).view ∧
      (atRest (b.apply t)).Fits (.ofTransitions ts) ∧ n ≤ 2 * b.far + 5 :=
  (fits_fired hb h1 h2 ht hn).exists_atRest rfl

end Scene

end Multitrack
