import Mathlib.Data.List.TakeWhile
import Mathlib.Order.Basic

/-! The fields of a text between delimiters, `List.splitOnP`, with and without the empty ones. -/

namespace Thunder.Text

variable {α : Type*} {p : α → Bool} {field l : List α} {sep : α}

/-- A text has no delimiter, or it is a field, a delimiter and a text. -/
theorem split_induction {motive : List α → Prop}
    (last : ∀ field, (∀ a ∈ field, p a = false) → motive field)
    (cut : ∀ field sep l, (∀ a ∈ field, p a = false) → p sep = true → motive l →
      motive (field ++ sep :: l)) (l : List α) : motive l := by
  induction hn : l.length using Nat.strongRecOn generalizing l with
  | _ n ih =>
    subst hn
    have hfield : ∀ a ∈ l.takeWhile (!p ·), p a = false := fun a ha => by
      simpa using List.mem_takeWhile_imp ha
    cases hrest : l.dropWhile (!p ·) with
    | nil =>
      rw [← List.takeWhile_append_dropWhile (p := (!p ·)) (l := l), hrest, List.append_nil]
      exact last _ hfield
    | cons sep rest =>
      have hsep : p sep = true := by
        have hhead := List.head_dropWhile_not (!p ·) (by rw [hrest]; exact List.cons_ne_nil _ _)
        simpa [hrest] using hhead
      have hl : l = l.takeWhile (!p ·) ++ sep :: rest := by
        rw [← hrest, List.takeWhile_append_dropWhile]
      have hlen : rest.length < l.length := by
        rw [hl, List.length_append, List.length_cons]
        omega
      rw [hl]
      exact cut _ sep rest hfield hsep (ih _ hlen rest rfl)

/-- The fields of a text, without an empty one at its end. -/
def fields (p : α → Bool) (l : List α) : List (List α) :=
  if (l.splitOnP p).getLast?.any List.isEmpty then (l.splitOnP p).dropLast else l.splitOnP p

@[simp] theorem fields_nil (p : α → Bool) : fields p ([] : List α) = [] := rfl

theorem fields_of_forall (h : ∀ a ∈ field, p a = false) (hne : field ≠ []) :
    fields p field = [field] := by
  simp [fields, List.splitOnP_eq_singleton h, hne]

theorem splitOnP_cut (h : ∀ a ∈ field, p a = false) (hsep : p sep = true) (l : List α) :
    (field ++ sep :: l).splitOnP p = field :: l.splitOnP p :=
  List.splitOnP_append_cons_of_forall_mem h sep hsep l

theorem fields_cut (h : ∀ a ∈ field, p a = false) (hsep : p sep = true) (l : List α) :
    fields p (field ++ sep :: l) = field :: fields p l := by
  obtain ⟨first, rest, hl⟩ := List.exists_cons_of_ne_nil (List.splitOnP_ne_nil p l)
  rw [fields, splitOnP_cut h hsep, fields, hl, List.getLast?_cons_cons, List.dropLast_cons_cons]
  split_ifs <;> rfl

/-- The text does not end with a delimiter, and is not empty. -/
def Open (p : α → Bool) (l : List α) : Prop := ∃ a ∈ l.getLast?, p a = false

theorem open_cut (field : List α) (hsep : p sep = true) (l : List α) :
    Open p (field ++ sep :: l) ↔ Open p l := by
  cases l with
  | nil => simp [Open, hsep]
  | cons a l => simp [Open, List.getLast?_append]

/-- Only an empty field at the end is left out. -/
theorem fields_eq_splitOnP_iff (l : List α) : fields p l = l.splitOnP p ↔ Open p l := by
  induction l using split_induction (p := p) with
  | last field h =>
    by_cases hne : field = []
    · subst hne
      simp [Open]
    · have hlast : Open p field :=
        ⟨field.getLast hne, List.getLast?_eq_some_getLast hne, h _ (List.getLast_mem hne)⟩
      rw [fields_of_forall h hne, List.splitOnP_eq_singleton h]
      exact iff_of_true rfl hlast
  | cut field sep l h hsep ih =>
    rw [fields_cut h hsep, splitOnP_cut h hsep, open_cut field hsep, ← ih]
    exact List.cons_inj_right field

/-- No delimiter is at the begin of the text or right behind another one; `behind` says that the
text is behind a delimiter. -/
def spaced (p : α → Bool) : Bool → List α → Bool
  | _, [] => true
  | behind, a :: l => if p a then !behind && spaced p true l else spaced p false l

theorem spaced_cons (behind : Bool) (a : α) (l : List α) : spaced p behind (a :: l) =
    if p a then !behind && spaced p true l else spaced p false l := rfl

theorem spaced_append (h : ∀ a ∈ field, p a = false) (behind : Bool) (l : List α) :
    spaced p behind (field ++ l) = spaced p (behind && field.isEmpty) l := by
  induction field generalizing behind with
  | nil => simp
  | cons a field ih =>
    obtain ⟨ha, hfield⟩ := List.forall_mem_cons.mp h
    rw [List.cons_append, spaced_cons, if_neg (by rw [ha]; exact Bool.false_ne_true), ih hfield]
    simp

/-- The fields that are not empty are all but an empty one at the end exactly if the delimiters are
apart. -/
theorem fields_eq_filter_iff (l : List α) :
    fields p l = (l.splitOnP p).filter (fun field => !field.isEmpty) ↔ spaced p true l = true := by
  induction l using split_induction (p := p) with
  | last field h =>
    have hspaced := spaced_append h true []
    rw [List.append_nil] at hspaced
    rw [hspaced, List.splitOnP_eq_singleton h]
    by_cases hne : field = []
    · subst hne
      simp [spaced]
    · rw [fields_of_forall h hne]
      simp [spaced, hne]
  | cut field sep l h hsep ih =>
    rw [fields_cut h hsep, splitOnP_cut h hsep, spaced_append h, spaced_cons, if_pos hsep]
    cases field with
    | nil =>
      have hempty : [] :: fields p l ≠
          ([] :: l.splitOnP p).filter (fun field => !field.isEmpty) := by
        intro heq
        have hmem : [] ∈ ([] :: l.splitOnP p).filter (fun field => !field.isEmpty) :=
          heq ▸ List.mem_cons_self
        simp at hmem
      exact iff_of_false hempty (by simp)
    | cons a field =>
      simp [ih]

end Thunder.Text
