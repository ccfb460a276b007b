import Mathlib.Data.Option.Basic

/-! Loops that may not end.  A loop has a function `next` for one step: the new state and what the step
puts out, or nothing where the loop stops. -/

namespace Thunder.Loop

variable {σ ο : Type*}

/-- The steps of a loop up to its end; `none` where the fuel does not reach it. -/
def run (next : σ → Option (σ × List ο)) : Nat → σ → Option (σ × List ο)
  | 0, _ => none
  | fuel + 1, s =>
    match next s with
    | none => some (s, [])
    | some (s', out) => (run next fuel s').map fun r => (r.1, out ++ r.2)

/-- The loop ends in `t` and puts out `out` on its way. -/
inductive Runs (next : σ → Option (σ × List ο)) : σ → List ο → σ → Prop
  | stop {s : σ} : next s = none → Runs next s [] s
  | step {s s' t : σ} {out more : List ο} : next s = some (s', out) → Runs next s' more t →
      Runs next s (out ++ more) t

variable {next : σ → Option (σ × List ο)} {s s' t t' : σ} {out out' : List ο} {fuel fuel' : Nat}

theorem run_succ_of_next (h : next s = some (s', out)) :
    run next (fuel + 1) s = (run next fuel s').map fun r => (r.1, out ++ r.2) := by
  rw [run, h]

theorem Runs.run (h : Runs next s out t) : ∃ fuel, ∀ more, Loop.run next (fuel + more) s = some (t, out) := by
  induction h with
  | stop hstop =>
    refine ⟨1, fun more => ?_⟩
    rw [Nat.add_comm, Loop.run, hstop]
  | step hnext _ ih =>
    obtain ⟨fuel, hfuel⟩ := ih
    refine ⟨fuel + 1, fun more => ?_⟩
    rw [Nat.add_right_comm, run_succ_of_next hnext, hfuel, Option.map_some]

theorem runs_of_run (h : run next fuel s = some (t, out)) : Runs next s out t := by
  induction fuel generalizing s out with
  | zero => nomatch h
  | succ fuel ih =>
    rw [Loop.run] at h
    cases hnext : next s with
    | none =>
      rw [hnext] at h
      obtain ⟨rfl, rfl⟩ := Prod.mk.injEq .. ▸ Option.some.inj h
      exact .stop hnext
    | some r =>
      rw [hnext] at h
      obtain ⟨⟨t', more⟩, hrun, heq⟩ := Option.map_eq_some_iff.mp h
      obtain ⟨rfl, rfl⟩ := Prod.mk.injEq .. ▸ heq
      exact .step hnext (ih hrun)

theorem Runs.unique (h : Runs next s out t) (h' : Runs next s out' t') : out = out' ∧ t = t' := by
  induction h generalizing out' with
  | stop hstop =>
    cases h' with
    | stop _ => exact ⟨rfl, rfl⟩
    | step hnext _ => simp [hstop] at hnext
  | step hnext _ ih =>
    cases h' with
    | stop hstop => simp [hnext] at hstop
    | step hnext' hrest =>
      obtain ⟨rfl, rfl⟩ := Prod.mk.injEq .. ▸ Option.some.inj (hnext.symm.trans hnext')
      obtain ⟨rfl, rfl⟩ := ih hrest
      exact ⟨rfl, rfl⟩

theorem Runs.tail (h : Runs next s out t) (hnext : next s = some (s', out')) :
    ∃ more, out = out' ++ more ∧ Runs next s' more t := by
  cases h with
  | stop hstop => simp [hstop] at hnext
  | step hnext' hrest =>
    obtain ⟨rfl, rfl⟩ := Prod.mk.injEq .. ▸ Option.some.inj (hnext.symm.trans hnext')
    exact ⟨_, rfl, hrest⟩

/-- The fuel does not matter, if it is enough. -/
theorem run_unique (h : run next fuel s = some (t, out)) (h' : run next fuel' s = some (t', out')) :
    out = out' ∧ t = t' :=
  (runs_of_run h).unique (runs_of_run h')

end Thunder.Loop
