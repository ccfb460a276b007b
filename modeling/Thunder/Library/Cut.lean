import Mathlib.Data.List.Basic
import Mathlib.Data.List.TakeDrop

/-! A list cut in two at the first of its delimiters, or at the last. -/

namespace Thunder.Text

variable {α : Type*} {c : α} {l before after : List α}

theorem exists_last (h : c ∈ l) : ∃ before after, l = before ++ c :: after ∧ c ∉ after := by
  obtain ⟨after, before, heq, hmem⟩ :=
    List.eq_append_cons_of_mem (List.mem_reverse.mpr h)
  refine ⟨before.reverse, after.reverse, ?_, by rwa [List.mem_reverse]⟩
  rw [← List.reverse_reverse l, heq]
  simp

variable [DecidableEq α]

/-- What is before the first delimiter, and what is behind it, if there is one. -/
def cut (c : α) : List α → List α × Option (List α)
  | [] => ([], none)
  | a :: l => if a = c then ([], some l) else (a :: (cut c l).1, (cut c l).2)

/-- What is before the last delimiter, if there is one, and what is behind it. -/
def cutLast (c : α) (l : List α) : Option (List α) × List α :=
  ((cut c l.reverse).2.map List.reverse, (cut c l.reverse).1.reverse)

theorem cut_of_not_mem (h : c ∉ l) : cut c l = (l, none) := by
  induction l with
  | nil => rfl
  | cons a l ih =>
    rw [List.mem_cons, not_or] at h
    obtain ⟨hne, hmem⟩ := h
    rw [cut, if_neg (Ne.symm hne), ih hmem]

theorem cut_append (h : c ∉ before) (after : List α) :
    cut c (before ++ c :: after) = (before, some after) := by
  induction before with
  | nil => rw [List.nil_append, cut, if_pos rfl]
  | cons a before ih =>
    rw [List.mem_cons, not_or] at h
    obtain ⟨hne, hmem⟩ := h
    rw [List.cons_append, cut, if_neg (Ne.symm hne), ih hmem]

theorem cutLast_of_not_mem (h : c ∉ l) : cutLast c l = (none, l) := by
  rw [cutLast, cut_of_not_mem (by rwa [List.mem_reverse]), Option.map_none, List.reverse_reverse]

theorem cutLast_append (before : List α) (h : c ∉ after) :
    cutLast c (before ++ c :: after) = (some before, after) := by
  have hreverse : (before ++ c :: after).reverse = after.reverse ++ c :: before.reverse := by simp
  rw [cutLast, hreverse, cut_append (by rwa [List.mem_reverse]), Option.map_some,
    List.reverse_reverse, List.reverse_reverse]

/-! ### Positions -/

theorem cut_fst (c : α) (l : List α) : (cut c l).1 = l.take (l.findIdx (· == c)) := by
  induction l with
  | nil => rfl
  | cons a l ih =>
    rw [cut, List.findIdx_cons]
    by_cases h : a = c
    · simp [h]
    · have hne : (a == c) = false := beq_false_of_ne h
      simp [h, hne, ih]

theorem cut_snd (c : α) (l : List α) : (cut c l).2 =
    if l.findIdx (· == c) < l.length then some (l.drop (l.findIdx (· == c) + 1)) else none := by
  induction l with
  | nil => rfl
  | cons a l ih =>
    rw [cut, List.findIdx_cons]
    by_cases h : a = c
    · simp [h]
    · have hne : (a == c) = false := beq_false_of_ne h
      simp [h, hne, ih]

theorem findIdx_lt_iff : l.findIdx (· == c) < l.length ↔ c ∈ l := by
  simp

theorem findIdx_append_of_not_mem (h : c ∉ before) (after : List α) :
    (before ++ after).findIdx (· == c) = before.length + after.findIdx (· == c) := by
  rw [List.findIdx_append, if_neg (by rwa [findIdx_lt_iff]), Nat.add_comm]

/-! ### Parts -/

theorem cut_fst_prefix (c : α) (l : List α) : (cut c l).1 <+: l := by
  rw [cut_fst]
  exact List.take_prefix _ _

theorem cut_snd_suffix (h : after ∈ (cut c l).2) : after <:+ l := by
  rw [cut_snd] at h
  split_ifs at h
  · obtain rfl := Option.some.inj h
    exact List.drop_suffix _ _
  · cases h

theorem cutLast_fst_prefix (h : before ∈ (cutLast c l).1) : before <+: l := by
  obtain ⟨after, hafter, rfl⟩ := Option.map_eq_some_iff.mp h
  rw [← List.reverse_suffix, List.reverse_reverse]
  exact cut_snd_suffix hafter

theorem cutLast_snd_suffix (c : α) (l : List α) : (cutLast c l).2 <:+ l := by
  rw [← List.reverse_prefix, cutLast, List.reverse_reverse]
  exact cut_fst_prefix c l.reverse

theorem not_mem_cut_fst (c : α) (l : List α) : c ∉ (cut c l).1 := by
  induction l with
  | nil => exact List.not_mem_nil
  | cons a l ih =>
    rw [cut]
    split_ifs with h
    · exact List.not_mem_nil
    · rw [List.mem_cons, not_or]
      exact ⟨Ne.symm h, ih⟩

theorem not_mem_cutLast_snd (c : α) (l : List α) : c ∉ (cutLast c l).2 := by
  rw [cutLast, List.mem_reverse]
  exact not_mem_cut_fst c l.reverse

end Thunder.Text
