import Mathlib.Data.List.Basic
import Mathlib.Data.Nat.Find

/-! Where a property holds first, and where a pattern lies in a list. -/

namespace Thunder.Search

section First

/-- `P` holds at `m`, and not between `s` and `m`. -/
structure First (P : Nat → Prop) (s m : Nat) : Prop where
  le : s ≤ m
  here : P m
  before : ∀ i, s ≤ i → i < m → ¬P i

variable {P : Nat → Prop} {s m m' t : Nat}

theorem First.unique (h : First P s m) (h' : First P s m') : m = m' := by
  rcases Nat.lt_trichotomy m m' with hlt | heq | hlt
  · exact absurd h.here (h'.before m h.le hlt)
  · exact heq
  · exact absurd h'.here (h.before m' h'.le hlt)

theorem First.le_of (h : First P s m) (hs : s ≤ t) (ht : P t) : m ≤ t := by
  by_contra hlt
  exact h.before t hs (by omega) ht

theorem exists_first (hs : s ≤ t) (ht : P t) : ∃ m, First P s m := by
  classical
  have hex : ∃ d, P (s + d) := ⟨t - s, by rwa [Nat.add_sub_cancel' hs]⟩
  refine ⟨s + Nat.find hex, Nat.le_add_right .., Nat.find_spec hex, fun i hi hlt hP => ?_⟩
  refine Nat.find_min hex (show i - s < _ by omega) ?_
  rwa [Nat.add_sub_cancel' hi]

theorem first_self (h : P s) : First P s s := ⟨le_refl s, h, fun i hi hlt => by omega⟩

/-- The first place can be looked for from behind places where the property does not hold. -/
theorem first_iff_of_not (hst : s ≤ t) (hnot : ∀ i, s ≤ i → i < t → ¬P i) :
    First P s m ↔ First P t m := by
  constructor
  · intro h
    refine ⟨?_, h.here, fun i hi => h.before i (by omega)⟩
    by_contra hlt
    exact hnot m h.le (by omega) h.here
  · intro h
    refine ⟨le_trans hst h.le, h.here, fun i hi hlt => ?_⟩
    by_cases hit : i < t
    · exact hnot i hi hit
    · exact h.before i (by omega) hlt

theorem forall_iff_of_not (hst : s ≤ t) (hnot : ∀ i, s ≤ i → i < t → ¬P i) :
    (∀ i, s ≤ i → ¬P i) ↔ ∀ i, t ≤ i → ¬P i := by
  refine ⟨fun h i hi => h i (le_trans hst hi), fun h i hi => ?_⟩
  by_cases hit : i < t
  · exact hnot i hi hit
  · exact h i (by omega)

/-- The first place from `s` on where `P` holds, and `n` where there is none. -/
def FirstOr (n : Nat) (P : Nat → Prop) (s r : Nat) : Prop :=
  First P s r ∨ (r = n ∧ ∀ i, s ≤ i → ¬P i)

theorem firstOr_iff_of_not {n r : Nat} (hst : s ≤ t) (hnot : ∀ i, s ≤ i → i < t → ¬P i) :
    FirstOr n P s r ↔ FirstOr n P t r := by
  rw [FirstOr, FirstOr, first_iff_of_not hst hnot, forall_iff_of_not hst hnot]

end First

section Occurs

variable {α : Type*} {l p : List α} {b : α} {i : Nat}

/-- The pattern `p` lies at `i`. -/
def Occurs (l p : List α) (i : Nat) : Prop := p <+: l.drop i

instance [DecidableEq α] : Decidable (Occurs l p i) := inferInstanceAs (Decidable (p <+: l.drop i))

theorem occurs_cons : Occurs l (b :: p) i ↔ l[i]? = some b ∧ Occurs l p (i + 1) := by
  unfold Occurs
  rcases hl : l.drop i with _ | ⟨a, rest⟩
  · have hle : l.length ≤ i := List.drop_eq_nil_iff.mp hl
    simp [List.getElem?_eq_none hle]
  · have ha : l[i]? = some a := by rw [← List.head?_drop, hl, List.head?_cons]
    have hrest : l.drop (i + 1) = rest := by rw [← List.tail_drop, hl, List.tail_cons]
    rw [List.cons_prefix_cons, ha, hrest, Option.some.injEq]
    exact and_congr_left fun _ => eq_comm

theorem occurs_singleton : Occurs l [b] i ↔ l[i]? = some b := by
  rw [occurs_cons]
  exact and_iff_left List.nil_prefix

/-- A pattern that is not empty lies in the list. -/
theorem Occurs.add_le (h : Occurs l (b :: p) i) : i + (p.length + 1) ≤ l.length := by
  have hlt : i < l.length := (List.getElem?_eq_some_iff.mp (occurs_cons.mp h).1).1
  have hle := List.IsPrefix.length_le h
  rw [List.length_drop, List.length_cons] at hle
  omega

theorem occurs_iff_take : Occurs l p i ↔ (l.drop i).take p.length = p := by
  rw [Occurs, List.prefix_iff_eq_take, eq_comm]

end Occurs

end Thunder.Search
