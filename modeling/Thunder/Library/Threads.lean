import Mathlib.Logic.Function.Basic

/-! Threads that work on objects.  A thread is idle, or it is at one object in a phase; seen from an
object, only the threads that are at it have a phase. -/

namespace Thunder.Threads

open Function

variable {τ φ α : Type*} [DecidableEq α] {x y : α} {phase : φ} {p : Option (φ × α)} {t : τ}

/-- The phase of a thread, seen from an object. -/
def phaseAt (x : α) (p : Option (φ × α)) : Option φ :=
  p.bind fun p => if p.2 = x then some p.1 else none

@[simp] theorem phaseAt_none : phaseAt x (none : Option (φ × α)) = none := rfl

@[simp] theorem phaseAt_self : phaseAt x (some (phase, x)) = some phase := if_pos rfl

theorem phaseAt_of_ne (h : y ≠ x) : phaseAt x (some (phase, y)) = none := if_neg h

theorem phaseAt_eq_some : phaseAt x p = some phase ↔ p = some (phase, x) := by
  obtain _ | ⟨phase', y⟩ := p
  · simp
  · by_cases h : y = x
    · subst h
      simp
    · simp [phaseAt_of_ne h, h]

/-- A thread that is nowhere else has no phase seen from another object. -/
theorem phaseAt_other (hne : x ≠ y) (h : ∀ z phase, p = some (phase, z) → z = y) :
    phaseAt x p = none := by
  obtain _ | ⟨phase, z⟩ := p
  · rfl
  · exact phaseAt_of_ne fun hz => hne (hz.symm.trans (h z phase rfl))

section

variable [DecidableEq τ]

theorem phase_update (threads : τ → Option (φ × α)) :
    (fun t' => phaseAt x (update threads t p t')) =
      update (fun t' => phaseAt x (threads t')) t (phaseAt x p) := by
  funext t'
  rcases eq_or_ne t' t with rfl | hne
  · simp
  · simp [hne]

/-- A thread that goes from one object on, seen from another one. -/
theorem phase_other (threads : τ → Option (φ × α)) (hne : x ≠ y)
    (hbefore : ∀ z phase, threads t = some (phase, z) → z = y)
    (hp : ∀ z phase, p = some (phase, z) → z = y) :
    (fun t' => phaseAt x (update threads t p t')) = fun t' => phaseAt x (threads t') := by
  rw [phase_update, phaseAt_other hne hp]
  exact update_eq_self_iff.mpr (phaseAt_other hne hbefore).symm

/-- Seen from an object with one thread, no other thread has a phase. -/
theorem alone {phase' : φ} {t' : τ} (h : update (fun _ => none) t (some phase) t' = some phase') :
    t' = t ∧ phase' = phase := by
  rcases eq_or_ne t' t with rfl | hne
  · rw [update_self] at h
    exact ⟨rfl, (Option.some.inj h).symm⟩
  · rw [update_of_ne hne] at h
    cases h

end

end Thunder.Threads
