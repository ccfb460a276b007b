import Mathlib.Data.List.Basic
import Mathlib.Tactic.SplitIfs

/-! Lists that are cut in parts, and the pieces that two such lists have in common. -/

namespace Thunder.Pieces

variable {α : Type*} {s d : List α} {source dest : List (List α)} {c : Nat}

/-- The number of elements of all parts. -/
def total (parts : List (List α)) : Nat := parts.flatten.length

@[simp] theorem total_nil : total ([] : List (List α)) = 0 := rfl

@[simp] theorem total_cons : total (s :: source) = s.length + total source := by
  rw [total, List.flatten_cons, List.length_append, total]

/-- A part of the list starts, or the last one ends, at `c`. -/
def Cut (parts : List (List α)) (c : Nat) : Prop := ∃ k, c = total (parts.take k)

theorem cut_cons : Cut (s :: source) c ↔ c = 0 ∨ ∃ c', Cut source c' ∧ c = s.length + c' := by
  constructor
  · rintro ⟨_ | k, rfl⟩
    · exact .inl rfl
    · exact .inr ⟨_, ⟨k, rfl⟩, total_cons⟩
  · rintro (rfl | ⟨_, ⟨k, rfl⟩, rfl⟩)
    · exact ⟨0, rfl⟩
    · exact ⟨k + 1, total_cons.symm⟩

/-- Where the last part starts. -/
def before (parts : List (List α)) : Nat := total parts.dropLast

theorem before_singleton : before [d] = 0 := rfl

theorem before_cons (h : dest ≠ []) : before (d :: dest) = d.length + before dest := by
  rw [before, List.dropLast_cons_of_ne_nil h, total_cons, before]

/-- The pieces that lie in one part of each list, as far as both lists go. -/
def pieces : List (List α) → List (List α) → List (List α × List α)
  | s :: source, d :: dest =>
    if d.length < s.length then
      (s.take d.length, d) :: pieces (s.drop d.length :: source) dest
    else (s, d.take s.length) :: pieces source (d.drop s.length :: dest)
  | _, _ => []
termination_by source dest => source.length + dest.length

@[simp] theorem pieces_nil_left : pieces [] dest = [] := by
  rw [pieces]
  exact fun _ _ _ _ h => by cases h

@[simp] theorem pieces_nil_right : pieces source [] = [] := by
  rw [pieces]
  exact fun _ _ _ _ _ h => by cases h

theorem pieces_of_lt (h : d.length < s.length) : pieces (s :: source) (d :: dest) =
    (s.take d.length, d) :: pieces (s.drop d.length :: source) dest := by
  rw [pieces, if_pos h]

theorem pieces_of_le (h : s.length ≤ d.length) : pieces (s :: source) (d :: dest) =
    (s, d.take s.length) :: pieces source (d.drop s.length :: dest) := by
  rw [pieces, if_neg (by omega)]

theorem length_eq_of_mem_pieces {p : List α × List α} (hp : p ∈ pieces source dest) :
    p.1.length = p.2.length := by
  induction source, dest using pieces.induct with
  | case1 s source d dest hlt ih =>
    rw [pieces_of_lt hlt] at hp
    rcases List.mem_cons.mp hp with rfl | hp
    · exact List.length_take_of_le (Nat.le_of_lt hlt)
    · exact ih hp
  | case2 s source d dest hle ih =>
    rw [pieces_of_le (by omega)] at hp
    rcases List.mem_cons.mp hp with rfl | hp
    · exact (List.length_take_of_le (Nat.le_of_not_lt hle)).symm
    · exact ih hp
  | case3 source dest hnot =>
    rw [pieces] at hp
    · cases hp
    · exact hnot

/-- The pieces of one list, one after another, are the list as far as the other one goes. -/
theorem flatMap_fst_pieces (source dest : List (List α)) :
    (pieces source dest).flatMap Prod.fst = source.flatten.take (total dest) := by
  induction source, dest using pieces.induct with
  | case1 s source d dest hlt ih =>
    rw [pieces_of_lt hlt, List.flatMap_cons, ih, List.flatten_cons, List.flatten_cons, total_cons,
      List.take_add, List.take_append_of_le_length (Nat.le_of_lt hlt),
      List.drop_append_of_le_length (Nat.le_of_lt hlt)]
  | case2 s source d dest hle ih =>
    have hrest : total (d :: dest) = s.length + total (d.drop s.length :: dest) := by
      rw [total_cons, total_cons, List.length_drop]
      omega
    rw [pieces_of_le (by omega), List.flatMap_cons, ih, List.flatten_cons, hrest,
      List.take_length_add_append]
  | case3 source dest hnot =>
    rw [pieces]
    · rcases source with _ | ⟨s, source⟩
      · simp
      · rcases dest with _ | ⟨d, dest⟩
        · simp
        · exact absurd rfl (hnot s source d dest rfl)
    · exact hnot

/-- Lists that are put together from parts of the same sizes are equal when all parts are. -/
theorem flatMap_eq_iff {β : Type*} {f g : β → List α} {l : List β}
    (hlength : ∀ p ∈ l, (f p).length = (g p).length) :
    l.flatMap f = l.flatMap g ↔ ∀ p ∈ l, f p = g p := by
  induction l with
  | nil => simp
  | cons p l ih =>
    have hl := ih fun q hq => hlength q (List.mem_cons_of_mem p hq)
    rw [List.flatMap_cons, List.flatMap_cons, List.forall_mem_cons, ← hl]
    constructor
    · exact fun h => List.append_inj h (hlength p List.mem_cons_self)
    · rintro ⟨hp, hrest⟩
      rw [hp, hrest]

end Thunder.Pieces
