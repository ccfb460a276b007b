import Thunder.Library.Token
import Mathlib.Data.List.Count
import Mathlib.Logic.Function.Basic

/-! Threads with call stacks.  The top frame of a stack is the section that comes next; a step takes
it away and pushes what the section calls. -/

namespace Thunder.Stacks

open Function

variable {τ φ : Type*} {p q : φ → Prop} {stack : τ → List φ} {t : τ} {top : φ}
  {calls rest : List φ}

/-- A frame that meets `p` is in some stack. -/
def Somewhere (p : φ → Prop) (stack : τ → List φ) : Prop := ∃ t, ∃ f ∈ stack t, p f

theorem not_somewhere (h : ∀ t, stack t = []) : ¬ Somewhere p stack := by
  rintro ⟨t, f, hf, -⟩
  rw [h t] at hf
  cases hf

variable [DecidableEq τ]

/-- What the top frame is not stays. -/
theorem Somewhere.keep (h : Somewhere p stack) (htop : stack t = top :: rest) (hnot : ¬ p top) :
    Somewhere p (update stack t (calls ++ rest)) := by
  obtain ⟨t', f, hf, hp⟩ := h
  rcases eq_or_ne t' t with rfl | hne
  · rw [htop, List.mem_cons] at hf
    obtain rfl | hf := hf
    · exact absurd hp hnot
    · refine ⟨t', f, ?_, hp⟩
      rw [update_self]
      exact List.mem_append_right _ hf
  · refine ⟨t', f, ?_, hp⟩
    rwa [update_of_ne hne]

theorem Somewhere.pushed {f : φ} (hf : f ∈ calls) (hp : p f) :
    Somewhere p (update stack t (calls ++ rest)) := by
  refine ⟨t, f, ?_, hp⟩
  rw [update_self]
  exact List.mem_append_left _ hf

/-- What is somewhere behind a step was pushed or was there before. -/
theorem Somewhere.before (h : Somewhere p (update stack t (calls ++ rest)))
    (htop : stack t = top :: rest) : (∃ f ∈ calls, p f) ∨ Somewhere p stack := by
  obtain ⟨t', f, hf, hp⟩ := h
  rcases eq_or_ne t' t with rfl | hne
  · rw [update_self, List.mem_append] at hf
    obtain hf | hf := hf
    · exact .inl ⟨f, hf, hp⟩
    · refine .inr ⟨t', f, ?_, hp⟩
      rw [htop]
      exact List.mem_cons_of_mem _ hf
  · rw [update_of_ne hne] at hf
    exact .inr ⟨t', f, hf, hp⟩

/-- An idle thread gets a frame. -/
theorem Somewhere.call (h : Somewhere p stack) (hidle : stack t = []) :
    Somewhere p (update stack t calls) := by
  obtain ⟨t', f, hf, hp⟩ := h
  rcases eq_or_ne t' t with rfl | hne
  · rw [hidle] at hf
    cases hf
  · refine ⟨t', f, ?_, hp⟩
    rwa [update_of_ne hne]

theorem Somewhere.before_call (h : Somewhere p (update stack t calls)) :
    (∃ f ∈ calls, p f) ∨ Somewhere p stack := by
  obtain ⟨t', f, hf, hp⟩ := h
  rcases eq_or_ne t' t with rfl | hne
  · rw [update_self] at hf
    exact .inl ⟨f, hf, hp⟩
  · rw [update_of_ne hne] at hf
    exact .inr ⟨t', f, hf, hp⟩

/-! ### A frame that one thread alone can have -/

/-- How many frames of a stack meet `c`. -/
def weight (c : φ → Bool) (stack : τ → List φ) (t : τ) : Nat := (stack t).countP c

variable {c : φ → Bool}

omit [DecidableEq τ] in
theorem weight_pos : 0 < weight c stack t ↔ ∃ f ∈ stack t, c f = true := List.countP_pos_iff

theorem weight_le (htop : stack t = top :: rest) (hpushed : calls.countP c ≤ [top].countP c)
    (t' : τ) : weight c (update stack t (calls ++ rest)) t' ≤ weight c stack t' := by
  rcases eq_or_ne t' t with rfl | hne
  · rw [weight, weight, update_self, htop, ← List.singleton_append, List.countP_append,
      List.countP_append]
    exact Nat.add_le_add_right hpushed _
  · apply Nat.le_of_eq
    rw [weight, weight, update_of_ne hne]

theorem weight_call (hidle : stack t = []) (hpushed : calls.countP c = 0) (t' : τ) :
    weight c (update stack t calls) t' = weight c stack t' := by
  rcases eq_or_ne t' t with rfl | hne
  · rw [weight, weight, update_self, hidle, hpushed]
    rfl
  · rw [weight, weight, update_of_ne hne]

theorem appears (htop : stack t = top :: rest) (hnot : c top = false)
    (hpushed : calls.countP c = 1) :
    Token.Appears (weight c stack) (weight c (update stack t (calls ++ rest))) t := by
  constructor
  · rw [weight, weight, update_self, htop, List.countP_append,
      List.countP_cons_of_neg (by simp [hnot]), hpushed, Nat.add_comm]
  · intro t' hne
    rw [weight, weight, update_of_ne hne]

/-- Behind the step of the thread that has the frame, nobody has one. -/
theorem Lone.released (h : Token.Lone (weight c stack)) (htop : stack t = top :: rest)
    (hc : c top = true) (hpushed : calls.countP c = 0) (t' : τ) :
    weight c (update stack t (calls ++ rest)) t' = 0 := by
  have hone : weight c stack t = rest.countP c + 1 := by
    rw [weight, htop, List.countP_cons_of_pos hc]
  rcases eq_or_ne t' t with rfl | hne
  · have hle := h.le_one t'
    rw [weight, update_self, List.countP_append, hpushed]
    omega
  · rw [weight, update_of_ne hne]
    exact h.eq_zero (by omega) hne

end Thunder.Stacks
