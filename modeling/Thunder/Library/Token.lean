import Mathlib.Data.List.Basic

/-! Tokens at places.  A weight tells how many tokens lie at each place; `Lone` says that there is at
most one token in all.  Steps that move a token or take tokens away keep that, and a new token keeps
it when there was none. -/

namespace Thunder.Token

variable {κ : Type*} {w w' : κ → Nat} {x y : κ}

/-- At most one token. -/
structure Lone (w : κ → Nat) : Prop where
  single : ∀ x y, 0 < w x → 0 < w y → x = y
  le_one : ∀ x, w x ≤ 1

/-- A token goes from `x` to `y`. -/
structure Moves (w w' : κ → Nat) (x y : κ) : Prop where
  leaves : w' x + 1 = w x
  arrives : w' y = w y + 1
  others : ∀ z, z ≠ x → z ≠ y → w' z = w z

/-- A token appears at `y`. -/
structure Appears (w w' : κ → Nat) (y : κ) : Prop where
  arrives : w' y = w y + 1
  others : ∀ z, z ≠ y → w' z = w z

namespace Lone

theorem zero (h : ∀ x, w x = 0) : Lone w :=
  ⟨fun x _ hx => absurd (h x) (Nat.ne_of_gt hx), fun x => by rw [h x]; exact Nat.zero_le 1⟩

theorem of_le (h : Lone w) (hle : ∀ x, w' x ≤ w x) : Lone w' :=
  ⟨fun x y hx hy => h.single x y (Nat.lt_of_lt_of_le hx (hle x)) (Nat.lt_of_lt_of_le hy (hle y)),
    fun x => Nat.le_trans (hle x) (h.le_one x)⟩

/-- The other places are empty. -/
theorem eq_zero (h : Lone w) (hx : 0 < w x) {z : κ} (hz : z ≠ x) : w z = 0 := by
  rcases Nat.eq_zero_or_pos (w z) with hzero | hpos
  · exact hzero
  · exact absurd (h.single z x hpos hx) hz

theorem of_single (hy : w' y = 1) (hothers : ∀ z, z ≠ y → w' z = 0) : Lone w' := by
  have hat : ∀ z, 0 < w' z → z = y := by
    intro z hz
    by_contra hne
    exact absurd (hothers z hne) (Nat.ne_of_gt hz)
  refine ⟨fun x z hx hz => (hat x hx).trans (hat z hz).symm, fun x => ?_⟩
  rcases eq_or_ne x y with rfl | hne
  · exact Nat.le_of_eq hy
  · rw [hothers x hne]
    exact Nat.zero_le 1

theorem moves (h : Lone w) (hmoves : Moves w w' x y) (hne : x ≠ y) : Lone w' := by
  have hx : 0 < w x := hmoves.leaves ▸ Nat.succ_pos _
  refine of_single (y := y) ?_ fun z hz => ?_
  · rw [hmoves.arrives, h.eq_zero hx hne.symm]
  · rcases eq_or_ne z x with rfl | hzx
    · have := h.le_one z
      have := hmoves.leaves
      omega
    · rw [hmoves.others z hzx hz, h.eq_zero hx hzx]

theorem appears (hnone : ∀ x, w x = 0) (happears : Appears w w' y) : Lone w' := by
  refine of_single (y := y) ?_ fun z hz => ?_
  · rw [happears.arrives, hnone]
  · rw [happears.others z hz, hnone]

end Lone

end Thunder.Token
