import Mathlib.Data.List.Basic
import Mathlib.Order.WellFounded

/-! Runs of a machine.  A machine with total operations has a function `step : σ → α → σ`, and its
runs are lists of operations; a machine whose operations may be blocked has a relation
`step : σ → α → σ → Prop`, and its runs are derivations of `Reach`.  In both, `ok s a` is a
condition on an operation `a` and the state `s` before it. -/

namespace Thunder.Run

variable {σ α ρ : Type*}

/-! ### Total operations -/

/-- The state after a list of operations. -/
def after (step : σ → α → σ) (s : σ) (ops : List α) : σ := ops.foldl step s

/-- Every operation of the run meets `ok` in the state before it. -/
def Meets (step : σ → α → σ) (ok : σ → α → Prop) : σ → List α → Prop
  | _, [] => True
  | s, a :: as => ok s a ∧ Meets step ok (step s a) as

/-- `P` holds in every state of the run, the first and the last included. -/
def Always (step : σ → α → σ) (P : σ → Prop) : σ → List α → Prop
  | s, [] => P s
  | s, a :: as => P s ∧ Always step P (step s a) as

variable {step : σ → α → σ} {ok ok' : σ → α → Prop} {P Q : σ → Prop} {s : σ} {a : α} {ops : List α}

@[simp] theorem after_nil : after step s [] = s := rfl

@[simp] theorem after_cons : after step s (a :: ops) = after step (step s a) ops := rfl

theorem after_append (ops' : List α) :
    after step s (ops ++ ops') = after step (after step s ops) ops' := List.foldl_append ..

@[simp] theorem meets_nil : Meets step ok s [] := trivial

@[simp] theorem meets_cons :
    Meets step ok s (a :: ops) ↔ ok s a ∧ Meets step ok (step s a) ops := Iff.rfl

@[simp] theorem always_nil : Always step P s [] ↔ P s := Iff.rfl

theorem Always.first (h : Always step P s ops) : P s := by
  cases ops with
  | nil => exact h
  | cons a ops => exact h.1

theorem Always.last (h : Always step P s ops) : P (after step s ops) := by
  induction ops generalizing s with
  | nil => exact h
  | cons a ops ih => exact ih h.2

theorem Always.mono (hPQ : ∀ s, P s → Q s) (h : Always step P s ops) : Always step Q s ops := by
  induction ops generalizing s with
  | nil => exact hPQ s h
  | cons a ops ih => exact ⟨hPQ s h.1, ih h.2⟩

theorem Always.and (h : Always step P s ops) (h' : Always step Q s ops) :
    Always step (fun s => P s ∧ Q s) s ops := by
  induction ops generalizing s with
  | nil => exact ⟨h, h'⟩
  | cons a ops ih => exact ⟨⟨h.1, h'.1⟩, ih h.2 h'.2⟩

/-- What every state of a run gives about the operation that follows holds of all of them. -/
theorem Always.meets (himp : ∀ s a, P s → ok s a) (h : Always step P s ops) :
    Meets step ok s ops := by
  induction ops generalizing s with
  | nil => trivial
  | cons a ops ih => exact ⟨himp s a h.1, ih h.2⟩

/-- The invariant rule: what holds first and is kept by every operation that meets `ok` holds in
every state of a run that meets `ok`. -/
theorem Meets.always (hstep : ∀ s a, P s → ok s a → P (step s a)) (h0 : P s)
    (h : Meets step ok s ops) : Always step P s ops := by
  induction ops generalizing s with
  | nil => exact h0
  | cons a ops ih => exact ⟨h0, ih (hstep s a h0 h.1) h.2⟩

/-- The invariant rule where every operation keeps what holds first. -/
theorem always_of_step (hstep : ∀ s a, P s → P (step s a)) (h0 : P s) : Always step P s ops := by
  induction ops generalizing s with
  | nil => exact h0
  | cons a ops ih => exact ⟨h0, ih (hstep s a h0)⟩

/-- An invariant of the operations that meet `ok` gives what else is wanted of them. -/
theorem Meets.of_invariant (hstep : ∀ s a, P s → ok s a → P (step s a))
    (himp : ∀ s a, P s → ok s a → ok' s a) (h0 : P s) (h : Meets step ok s ops) :
    Meets step ok' s ops := by
  induction ops generalizing s with
  | nil => trivial
  | cons a ops ih => exact ⟨himp s a h0 h.1, ih (hstep s a h0 h.1) h.2⟩

/-- Let `I` be an invariant of the operations that meet `ok`, and `P` follow from it.  Where `P`
behind an operation needs `ok`, `P` holds in every state of a run exactly when all of the operations
meet `ok`. -/
theorem always_iff_of_invariant {I : σ → Prop} (hkeep : ∀ s a, I s → ok s a → I (step s a))
    (hP : ∀ s, I s → P s) (hneeds : ∀ s a, I s → P (step s a) → ok s a) (h0 : I s) :
    Always step P s ops ↔ Meets step ok s ops := by
  constructor
  · intro h
    induction ops generalizing s with
    | nil => trivial
    | cons a ops ih =>
      have hok : ok s a := hneeds s a h0 h.2.first
      exact ⟨hok, ih (hkeep s a h0 hok) h.2⟩
  · exact fun h => (h.always hkeep h0).mono hP

/-- The same for the runs whose operations all meet `ok'` in any case. -/
theorem always_iff_within {I : σ → Prop} (hkeep : ∀ s a, I s → ok' s a → ok s a → I (step s a))
    (hP : ∀ s, I s → P s) (hneeds : ∀ s a, I s → ok' s a → P (step s a) → ok s a) (h0 : I s)
    (hwithin : Meets step ok' s ops) : Always step P s ops ↔ Meets step ok s ops := by
  induction ops generalizing s with
  | nil => exact iff_of_true (hP s h0) trivial
  | cons a ops ih =>
    obtain ⟨hok', hwithin⟩ := hwithin
    constructor
    · intro h
      have hok : ok s a := hneeds s a h0 hok' h.2.first
      exact ⟨hok, (ih (hkeep s a h0 hok' hok) hwithin).mp h.2⟩
    · rintro ⟨hok, h⟩
      exact ⟨hP s h0, (ih (hkeep s a h0 hok' hok) hwithin).mpr h⟩

/-- Where an operation keeps the invariant exactly when it meets `ok`, a run keeps it exactly when
all of its operations meet `ok`. -/
theorem always_iff_meets (hstep : ∀ s a, P s → (P (step s a) ↔ ok s a)) (h0 : P s) :
    Always step P s ops ↔ Meets step ok s ops :=
  always_iff_of_invariant (fun s a hs => (hstep s a hs).mpr) (fun _ hs => hs)
    (fun s a hs => (hstep s a hs).mp) h0

/-- The same for an invariant and a condition `ok'` on the operations: an operation keeps both
exactly when it meets `ok`. -/
theorem always_meets_iff (hstep : ∀ s a, P s → (P (step s a) ∧ ok' s a ↔ ok s a)) (h0 : P s) :
    Always step P s ops ∧ Meets step ok' s ops ↔ Meets step ok s ops := by
  induction ops generalizing s with
  | nil => simpa using h0
  | cons a ops ih =>
    constructor
    · rintro ⟨⟨-, h⟩, hok', h'⟩
      have hP : P (step s a) := h.first
      exact ⟨(hstep s a h0).mp ⟨hP, hok'⟩, (ih hP).mp ⟨h, h'⟩⟩
    · rintro ⟨hok, h⟩
      obtain ⟨hP, hok'⟩ := (hstep s a h0).mpr hok
      obtain ⟨halways, hmeets⟩ := (ih hP).mpr h
      exact ⟨⟨h0, halways⟩, hok', hmeets⟩

/-- Conditions that agree where an invariant holds agree on runs, if the operations that meet them
keep it. -/
theorem meets_iff_of_kept {I : σ → Prop} (hkeep : ∀ s a, I s → ok s a → I (step s a))
    (hiff : ∀ s a, I s → (ok s a ↔ ok' s a)) (h0 : I s) :
    Meets step ok s ops ↔ Meets step ok' s ops := by
  induction ops generalizing s with
  | nil => exact Iff.rfl
  | cons a ops ih =>
    rw [meets_cons, meets_cons, ← hiff s a h0]
    exact and_congr_right fun hok => ih (hkeep s a h0 hok)

/-- The same for the runs whose operations all meet `ok₀` in any case. -/
theorem meets_iff_within {I : σ → Prop} {ok₀ : σ → α → Prop}
    (hkeep : ∀ s a, I s → ok₀ s a → ok s a → I (step s a))
    (hiff : ∀ s a, I s → ok₀ s a → (ok s a ↔ ok' s a)) (h0 : I s) (hwithin : Meets step ok₀ s ops) :
    Meets step ok s ops ↔ Meets step ok' s ops := by
  induction ops generalizing s with
  | nil => exact Iff.rfl
  | cons a ops ih =>
    rw [meets_cons, meets_cons, ← hiff s a h0 hwithin.1]
    exact and_congr_right fun hok => ih (hkeep s a h0 hwithin.1 hok) hwithin.2

/-- The same for an invariant of all operations. -/
theorem meets_iff_of_invariant {I : σ → Prop} (hkeep : ∀ s a, I s → I (step s a))
    (hiff : ∀ s a, I s → (ok s a ↔ ok' s a)) (h0 : I s) :
    Meets step ok s ops ↔ Meets step ok' s ops :=
  meets_iff_of_kept (fun s a h _ => hkeep s a h) hiff h0

/-! ### Operations that may be blocked -/

/-- The states that runs from `s₀` reach when every operation meets `ok`. -/
inductive Reach (step : σ → α → σ → Prop) (ok : σ → α → Prop) (s₀ : σ) : σ → Prop
  | start : Reach step ok s₀ s₀
  | step {s s' : σ} {a : α} : Reach step ok s₀ s → ok s a → step s a s' → Reach step ok s₀ s'

namespace Reach

variable {next : σ → α → σ → Prop} {s₀ s₁ s₂ : σ}

/-- The invariant rule for `Reach`. -/
theorem invariant {I : σ → Prop} (h : Reach next ok s₀ s₁) (h0 : I s₀)
    (hstep : ∀ s a s', I s → ok s a → next s a s' → I s') : I s₁ := by
  induction h with
  | start => exact h0
  | step _ hok hnext ih => exact hstep _ _ _ ih hok hnext

theorem trans (h : Reach next ok s₀ s₁) (h' : Reach next ok s₁ s₂) : Reach next ok s₀ s₂ := by
  induction h' with
  | start => exact h
  | step _ hok hnext ih => exact ih.step hok hnext

end Reach

/-! ### Endless runs -/

/-- An endless run, in which the machine may also pause. -/
def Endless (step : σ → α → σ → Prop) (ok : σ → α → Prop) (states : Nat → σ)
    (ops : Nat → Option α) : Prop :=
  ∀ n, match ops n with
    | none => states (n + 1) = states n
    | some a => ok (states n) a ∧ step (states n) a (states (n + 1))

theorem Endless.pause {next : σ → α → σ → Prop} {states : Nat → σ} {ops : Nat → Option α}
    (h : Endless next ok states ops) {n : Nat} (hop : ops n = none) :
    states (n + 1) = states n := by
  have hn := h n
  rw [hop] at hn
  exact hn

theorem Endless.next {next : σ → α → σ → Prop} {states : Nat → σ} {ops : Nat → Option α}
    (h : Endless next ok states ops) {n : Nat} (hop : ops n = some a) :
    ok (states n) a ∧ next (states n) a (states (n + 1)) := by
  have hn := h n
  rw [hop] at hn
  exact hn

/-- Every state of an endless run is reached. -/
theorem Endless.reach {next : σ → α → σ → Prop} {states : Nat → σ} {ops : Nat → Option α}
    (h : Endless next ok states ops) (n : Nat) : Reach next ok (states 0) (states n) := by
  induction n with
  | zero => exact .start
  | succ n ih =>
    cases hop : ops n with
    | none =>
      rw [h.pause hop]
      exact ih
    | some a => exact ih.step (h.next hop).1 (h.next hop).2

section Eventually

variable {ξ : Type*} [LT ρ] [WellFoundedLT ρ] {here : Nat → ξ → Prop} {goal : Nat → Prop}
  {r : ξ → ρ}

/-- The rule for what happens at last.  `here n x` says that the run is at `x` after `n` steps; it
stays there or goes to a lower rank, and it does not stay for ever. -/
theorem eventually_of_rank
    (hstay : ∀ n x, here n x → goal n ∨ here (n + 1) x ∨ ∃ y, r y < r x ∧ here (n + 1) y)
    (hleave : ∀ n x, here n x →
      ∃ m, n ≤ m ∧ (here m x → goal m ∨ ∃ y, r y < r x ∧ here (m + 1) y))
    {n : Nat} {x : ξ} (h : here n x) : ∃ m, n ≤ m ∧ goal m := by
  induction hr : r x using WellFoundedLT.induction generalizing n x with
  | ind k ih =>
    subst hr
    have hlower : ∀ k, n ≤ k → (∃ y, r y < r x ∧ here (k + 1) y) →
        ∃ m, n ≤ m ∧ goal m := by
      rintro k hk ⟨y, hy, hat⟩
      obtain ⟨m, hm, hgoal⟩ := ih (r y) hy hat rfl
      exact ⟨m, by omega, hgoal⟩
    obtain ⟨m, hm, hserved⟩ := hleave n x h
    -- until the step `m` the run stays at `x`, or it is over with `x` before
    have hwait : ∀ d, n + d ≤ m → (∃ m, n ≤ m ∧ goal m) ∨ here (n + d) x := by
      intro d hd
      induction d with
      | zero => exact .inr h
      | succ d ihd =>
        rcases ihd (by omega) with hdone | hat
        · exact .inl hdone
        · rcases hstay _ _ hat with hgoal | hat' | hdown
          · exact .inl ⟨n + d, Nat.le_add_right n d, hgoal⟩
          · exact .inr hat'
          · exact .inl (hlower _ (Nat.le_add_right n d) hdown)
    rcases hwait (m - n) (by omega) with hdone | hat
    · exact hdone
    · rw [Nat.add_sub_cancel' hm] at hat
      rcases hserved hat with hgoal | hdown
      · exact ⟨m, hm, hgoal⟩
      · exact hlower m hm hdown

end Eventually

end Thunder.Run
