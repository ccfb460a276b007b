import Mathlib.Data.List.Count
import Mathlib.Data.List.Induction
import Mathlib.Data.List.Nodup
import Mathlib.Data.List.Pairwise

/-! What is done for the elements of a list that may repeat: `l.eraseDups` has each of them where it
comes first. -/

namespace Thunder.Firsts

variable {α ν : Type*} [DecidableEq α] [DecidableEq ν] {l l' : List α} {a b : α}

theorem eraseDups_concat :
    (l ++ [a]).eraseDups = if a ∈ l then l.eraseDups else l.eraseDups ++ [a] := by
  rw [List.eraseDups_append]
  split_ifs with hmem
  · simp [List.removeAll, hmem]
  · simp [List.removeAll, hmem, List.eraseDups_cons]

theorem nodup_eraseDups (l : List α) : l.eraseDups.Nodup := by
  induction l using List.reverseRecOn with
  | nil => exact List.nodup_nil
  | append_singleton l a ih =>
    rw [eraseDups_concat]
    split_ifs with hmem
    · exact ih
    · refine ih.append (List.nodup_singleton a) (List.disjoint_singleton.mpr ?_)
      rwa [List.mem_eraseDups]

theorem eraseDups_append_of_nodup (hnodup : l'.Nodup) :
    (l ++ l').eraseDups = l.eraseDups ++ l'.filter fun a => decide (a ∉ l) := by
  induction l' using List.reverseRecOn with
  | nil => simp
  | append_singleton l' a ih =>
    obtain ⟨hl', -, hnew⟩ := List.nodup_append.mp hnodup
    have hmem : a ∉ l' := fun ha => hnew a ha a (List.mem_singleton.mpr rfl) rfl
    rw [← List.append_assoc, eraseDups_concat, ih hl', List.filter_append, ← List.append_assoc]
    by_cases ha : a ∈ l
    · simp [ha]
    · simp [ha, hmem]

/-- What is found for the names of a list comes in the order of the names. -/
theorem pairwise_idxOf {f : ν → Option α} {name : α → ν} (hf : ∀ {n a}, f n = some a → name a = n)
    (names : List ν) : (names.filterMap f).eraseDups.Pairwise fun a b =>
      names.idxOf (name a) < names.idxOf (name b) := by
  induction names using List.reverseRecOn with
  | nil => exact List.Pairwise.nil
  | append_singleton names n ih =>
    have hname : ∀ a ∈ (names.filterMap f).eraseDups, name a ∈ names := fun a ha => by
      obtain ⟨m, hm, hfm⟩ := List.mem_filterMap.mp (List.mem_eraseDups.mp ha)
      exact hf hfm ▸ hm
    have hkeep : (names.filterMap f).eraseDups.Pairwise fun a b =>
        (names ++ [n]).idxOf (name a) < (names ++ [n]).idxOf (name b) :=
      ih.imp_of_mem fun {a b} ha hb hlt => by
        rwa [List.idxOf_append_of_mem (hname a ha), List.idxOf_append_of_mem (hname b hb)]
    rw [List.filterMap_append]
    cases hfn : f n with
    | none => simpa [hfn] using hkeep
    | some c =>
      simp only [List.filterMap_cons, hfn, List.filterMap_nil]
      rw [eraseDups_concat]
      split_ifs with hmem
      · exact hkeep
      · refine List.pairwise_append.mpr ⟨hkeep, List.pairwise_singleton .., fun a ha b hb => ?_⟩
        obtain rfl := List.mem_singleton.mp hb
        have hnew : name b ∉ names := fun hin => hmem (List.mem_filterMap.mpr ⟨_, hin, by
          rw [hf hfn, hfn]⟩)
        rw [List.idxOf_append_of_mem (hname a ha), List.idxOf_append_of_notMem hnew]
        exact Nat.lt_add_right _ (List.idxOf_lt_length_of_mem (hname a ha))

omit [DecidableEq α] in
/-- What holds along a list that is in the order of `f` holds of what `f` puts in that order. -/
theorem rel_of_pairwise {R : α → α → Prop} {f : α → Nat}
    (h : l.Pairwise fun a b => R a b ∧ f a < f b) (ha : a ∈ l) (hb : b ∈ l) (hlt : f a < f b) :
    R a b := by
  induction l with
  | nil => cases ha
  | cons c l ih =>
    obtain ⟨hc, hl⟩ := List.pairwise_cons.mp h
    rcases List.mem_cons.mp ha with rfl | ha'
    · rcases List.mem_cons.mp hb with rfl | hb'
      · exact absurd hlt (Nat.lt_irrefl _)
      · exact (hc b hb').1
    · rcases List.mem_cons.mp hb with rfl | hb'
      · exact absurd hlt (Nat.lt_asymm (hc a ha').2)
      · exact ih hl ha' hb'

theorem count_filterMap {f : ν → Option α} {name : α → ν} (hf : ∀ {n a}, f n = some a → name a = n)
    (ha : f (name a) = some a) (names : List ν) :
    (names.filterMap f).count a = names.count (name a) := by
  induction names with
  | nil => rfl
  | cons n names ih =>
    rcases eq_or_ne n (name a) with rfl | hne
    · rw [List.filterMap_cons_some ha, List.count_cons_self, List.count_cons_self, ih]
    · rw [List.count_cons_of_ne hne, ← ih]
      cases hfn : f n with
      | none => rw [List.filterMap_cons_none hfn]
      | some b =>
        have hb : b ≠ a := fun heq => hne (by rw [← hf hfn, heq])
        rw [List.filterMap_cons_some hfn, List.count_cons_of_ne hb]

/-! ### Attempts

An element is tried at each of its turns, unless what came of the earlier tries of it tells that it
need not be. -/

variable (pending : α → Nat → Bool)

def attempt (log : List α) (a : α) : List α :=
  if pending a (log.count a) then log ++ [a] else log

variable {pending} {log turns : List α}

/-- An element is tried once more exactly when it is pending. -/
theorem count_attempt :
    (attempt pending log a).count b =
      log.count b + if a = b ∧ pending b (log.count b) = true then 1 else 0 := by
  rw [attempt]
  rcases eq_or_ne a b with rfl | hne
  · split_ifs with hpending hboth hboth
    · rw [List.count_append, List.count_singleton_self]
    · exact absurd ⟨rfl, hpending⟩ hboth
    · exact absurd hboth.2 hpending
    · rfl
  · simp only [hne, false_and, if_false, Nat.add_zero]
    split_ifs
    · simp [List.count_append, hne]
    · rfl

theorem count_attempts_le (log turns : List α) (a : α) :
    log.count a ≤ (turns.foldl (attempt pending) log).count a := by
  induction turns generalizing log with
  | nil => exact Nat.le_refl _
  | cons b turns ih =>
    refine Nat.le_trans ?_ (ih _)
    rw [count_attempt]
    exact Nat.le_add_right ..

/-- With as many turns left as tries are due, all of them are made. -/
theorem le_count_attempts {k : Nat} (hturns : k ≤ log.count a + turns.count a)
    (hpending : ∀ n < k, pending a n = true) :
    k ≤ (turns.foldl (attempt pending) log).count a := by
  induction turns generalizing log with
  | nil => simpa using hturns
  | cons b turns ih =>
    rcases Nat.lt_or_ge (log.count a) k with hlt | hge
    · refine ih ?_
      rw [count_attempt]
      rcases eq_or_ne b a with rfl | hne
      · rw [List.count_cons_self] at hturns
        rw [if_pos ⟨rfl, hpending _ hlt⟩]
        omega
      · rw [List.count_cons_of_ne hne] at hturns
        omega
    · exact Nat.le_trans hge (count_attempts_le log (b :: turns) a)

/-- Where nothing is tried twice, each is tried at its first turn. -/
theorem attempts_eq (hsettles : ∀ a, pending a 0 = true → 2 ≤ turns.count a → pending a 1 = false) :
    turns.foldl (attempt pending) [] = turns.eraseDups.filter fun a => pending a 0 := by
  induction turns using List.reverseRecOn with
  | nil => rfl
  | append_singleton turns a ih =>
    have hih := ih fun b h0 hcount => hsettles b h0 <| by
      rw [List.count_append]
      exact Nat.le_add_right_of_le hcount
    rw [List.foldl_append, List.foldl_cons, List.foldl_nil, hih, attempt, eraseDups_concat]
    have hnodup : (turns.eraseDups.filter fun a => pending a 0).Nodup :=
      (nodup_eraseDups turns).filter _
    by_cases h0 : pending a 0 = true
    · by_cases hmem : a ∈ turns
      · -- it has been tried before
        have hcount : (turns.eraseDups.filter fun a => pending a 0).count a = 1 :=
          List.count_eq_one_of_mem hnodup
            (List.mem_filter.mpr ⟨List.mem_eraseDups.mpr hmem, h0⟩)
        have hone : pending a 1 = false := hsettles a h0 <| by
          rw [List.count_append, List.count_singleton_self]
          exact Nat.succ_le_succ (List.count_pos_iff.mpr hmem)
        simp [hcount, hone, hmem]
      · have hcount : (turns.eraseDups.filter fun a => pending a 0).count a = 0 :=
          List.count_eq_zero.mpr fun h => hmem (List.mem_eraseDups.mp (List.mem_filter.mp h).1)
        simp [hcount, h0, hmem]
    · have hcount : (turns.eraseDups.filter fun a => pending a 0).count a = 0 :=
        List.count_eq_zero.mpr fun h => h0 (List.mem_filter.mp h).2
      have hfalse : pending a 0 = false := Bool.eq_false_iff.mpr h0
      rw [hcount, hfalse, if_neg Bool.false_ne_true]
      split_ifs with hmem
      · rfl
      · simp [hfalse]

end Thunder.Firsts
