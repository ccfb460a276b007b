import Mathlib.Data.List.Induction
import Thunder.Library.Path

/-! Normal forms of paths: the names that are left when every name is cancelled by the `..` behind
it, and the texts of names with slashes behind them. -/

namespace Thunder.Path

/-- The name of the directory around. -/
abbrev parent : Name := ['.', '.']

/-- A name behind names that are reduced already, the last one first.  Above the start of a closed
path there is nothing. -/
def cancel (closed : Bool) (stack : List Name) (name : Name) : Option (List Name) :=
  if name = [] ∨ name = ['.'] then some stack
  else if name = parent then
    match stack with
    | [] => if closed then none else some [parent]
    | top :: before => if top = parent then some (parent :: stack) else some before
  else some (name :: stack)

/-- The names of a path without the empty ones, without `.`, and without a name that is cancelled by
the `..` behind it. -/
def reduce (closed : Bool) (names : List Name) : Option (List Name) :=
  names.foldlM (cancel closed) []

/-- A name of a file or a directory. -/
structure Plain (name : Name) : Prop where
  ne_nil : name ≠ []
  ne_dot : name ≠ ['.']
  ne_parent : name ≠ parent
  no_slash : '/' ∉ name

/-- In reduced names a `..` stands behind other ones only. -/
inductive Reduced (closed : Bool) : List Name → Prop
  | nil : Reduced closed []
  | parents {stack : List Name} (hopen : closed = false)
      (hparents : ∀ name ∈ stack, name = parent) : Reduced closed (parent :: stack)
  | name {name : Name} {stack : List Name} (hname : Plain name) (hstack : Reduced closed stack) :
      Reduced closed (name :: stack)

/-- The text of a path: whether there is a slash in front, the names with a slash behind them, the
last one first, and what follows. -/
structure Form where
  lead : Bool
  names : List Name
  last : Name

def Form.text (f : Form) : List Char :=
  (if f.lead then ['/'] else []) ++ f.names.reverse.flatMap (· ++ ['/']) ++ f.last

/-- The names of a form have characters, and no slash. -/
def Form.Clean (f : Form) : Prop :=
  (∀ name ∈ f.names, name ≠ [] ∧ '/' ∉ name) ∧ '/' ∉ f.last

/-- A directory; the one where the path starts is written as a dot. -/
def dirForm (lead : Bool) (names : List Name) : Form :=
  if lead = false ∧ names = [] then ⟨false, [['.']], []⟩ else ⟨lead, names, []⟩

variable {closed : Bool} {stack before : List Name} {name top last : Name} {ns : List Name}
  {f f' : Form}

/-! ### Reduced names -/

theorem cancel_skip (h : name = [] ∨ name = ['.']) : cancel closed stack name = some stack :=
  if_pos h

theorem cancel_plain (hnil : name ≠ []) (hdot : name ≠ ['.']) (hparent : name ≠ parent) :
    cancel closed stack name = some (name :: stack) := by
  rw [cancel.eq_def, if_neg (not_or.mpr ⟨hnil, hdot⟩), if_neg hparent]

theorem cancel_parent_nil : cancel closed [] parent = if closed then none else some [parent] := by
  rw [cancel.eq_def, if_neg (by decide), if_pos rfl]

theorem cancel_parent_cons : cancel closed (top :: before) parent =
    if top = parent then some (parent :: top :: before) else some before := by
  rw [cancel.eq_def, if_neg (by decide), if_pos rfl]

@[simp] theorem reduce_nil : reduce closed [] = some [] := rfl

theorem reduce_concat (ns : List Name) (name : Name) :
    reduce closed (ns ++ [name]) = (reduce closed ns).bind (cancel closed · name) := by
  rw [reduce, List.foldlM_append]
  rw [reduce]
  cases ns.foldlM (cancel closed) [] with
  | none => rfl
  | some stack =>
    change (Path.cancel closed stack name).bind some = _
    rw [Option.bind_some, Option.bind_fun_some]

theorem Reduced.names_ne (h : Reduced closed stack) : ∀ name ∈ stack, name ≠ [] ∧ '/' ∉ name := by
  have hclean : parent ≠ [] ∧ '/' ∉ parent := by decide
  induction h with
  | nil => exact nofun
  | parents _ hparents =>
    intro name hname
    rcases List.mem_cons.mp hname with rfl | hname
    · exact hclean
    · exact hparents name hname ▸ hclean
  | name hplain _ ih =>
    intro name hname
    rcases List.mem_cons.mp hname with rfl | hname
    · exact ⟨hplain.ne_nil, hplain.no_slash⟩
    · exact ih name hname

theorem Reduced.tail (h : Reduced closed (top :: before)) : Reduced closed before := by
  cases h with
  | parents hopen hparents =>
    rcases before with _ | ⟨name, before⟩
    · exact .nil
    · obtain rfl := hparents name List.mem_cons_self
      exact .parents hopen fun other hother => hparents other (List.mem_cons_of_mem _ hother)
  | name _ hstack => exact hstack

theorem Reduced.cancel (h : Reduced closed stack) (hslash : '/' ∉ name) {stack' : List Name}
    (hcancel : cancel closed stack name = some stack') : Reduced closed stack' := by
  by_cases hskip : name = [] ∨ name = ['.']
  · rw [cancel_skip hskip] at hcancel
    cases hcancel
    exact h
  by_cases hparent : name = parent
  · subst hparent
    rcases stack with _ | ⟨top, before⟩
    · rw [cancel_parent_nil] at hcancel
      cases closed with
      | true => cases hcancel
      | false =>
        cases hcancel
        exact .parents rfl nofun
    · rw [cancel_parent_cons] at hcancel
      split_ifs at hcancel with htop
      · cases hcancel
        subst htop
        cases h with
        | parents hopen hparents =>
          refine .parents hopen fun other hother => ?_
          rcases List.mem_cons.mp hother with rfl | hother
          · rfl
          · exact hparents other hother
        | name hplain _ => exact absurd rfl hplain.ne_parent
      · cases hcancel
        exact h.tail
  · rw [cancel_plain (not_or.mp hskip).1 (not_or.mp hskip).2 hparent] at hcancel
    cases hcancel
    exact .name ⟨(not_or.mp hskip).1, (not_or.mp hskip).2, hparent, hslash⟩ h

theorem reduced_of_reduce (hslash : ∀ name ∈ ns, '/' ∉ name) (h : reduce closed ns = some stack) :
    Reduced closed stack := by
  induction ns using List.reverseRecOn generalizing stack with
  | nil =>
    cases h
    exact .nil
  | append_singleton ns name ih =>
    rw [reduce_concat] at h
    obtain ⟨stack', hstack', hcancel⟩ := Option.bind_eq_some_iff.mp h
    exact (ih (fun other hother => hslash other (List.mem_append_left _ hother)) hstack').cancel
      (hslash name (by simp)) hcancel

/-- The name `x` stands behind names with a property. -/
def Behind (x : Name) (P : List Name → Prop) (ns : List Name) : Prop :=
  ∃ pre post, ns = pre ++ x :: post ∧ P pre

theorem behind_nil {x : Name} {P : List Name → Prop} : ¬Behind x P [] := by
  rintro ⟨pre, post, h, -⟩
  cases pre <;> cases h

theorem behind_concat {x : Name} {P : List Name → Prop} :
    Behind x P (ns ++ [name]) ↔ Behind x P ns ∨ (name = x ∧ P ns) := by
  constructor
  · rintro ⟨pre, post, h, hP⟩
    rcases List.eq_nil_or_concat' post with rfl | ⟨post, last, rfl⟩
    · obtain ⟨rfl, hname⟩ := List.append_inj' h rfl
      cases hname
      exact .inr ⟨rfl, hP⟩
    · rw [← List.cons_append, ← List.append_assoc] at h
      obtain ⟨rfl, -⟩ := List.append_inj' h rfl
      exact .inl ⟨pre, post, rfl, hP⟩
  · rintro (⟨pre, post, rfl, hP⟩ | ⟨rfl, hP⟩)
    · exact ⟨pre, post ++ [name], by simp, hP⟩
    · exact ⟨ns, [], rfl, hP⟩

/-- Where there is nothing above the start, a path that leads there is not reduced. -/
theorem reduce_eq_none_of_behind {P : List Name → Prop} (h : Behind parent P ns)
    (hP : ∀ pre, P pre → reduce true pre = some []) : reduce true ns = none := by
  induction ns using List.reverseRecOn with
  | nil => exact absurd h behind_nil
  | append_singleton ns name ih =>
    rw [reduce_concat]
    rcases behind_concat.mp h with hbefore | ⟨rfl, hnow⟩
    · rw [ih hbefore]
      rfl
    · rw [hP ns hnow]
      rfl

/-! ### Texts -/

theorem names_cons (c : Char) (path : List Char) : names (c :: path) =
    if c = '/' then [] :: names path else (names path).modifyHead (c :: ·) := by
  rw [names, List.splitOn_cons_eq_if_modifyHead]
  simp only [beq_iff_eq]
  rfl

theorem names_no_slash (path : List Char) : ∀ name ∈ names path, '/' ∉ name := by
  induction path with
  | nil =>
    intro name hname
    rw [names_plain (by simp), List.mem_singleton] at hname
    rw [hname]
    exact List.not_mem_nil
  | cons c path ih =>
    intro name hname
    rw [names_cons] at hname
    split_ifs at hname with hc
    · rcases List.mem_cons.mp hname with rfl | hname
      · exact List.not_mem_nil
      · exact ih name hname
    · obtain ⟨first, rest, hnames⟩ := List.exists_cons_of_ne_nil (names_ne_nil path)
      rw [hnames, List.modifyHead_cons] at hname
      rw [hnames] at ih
      rcases List.mem_cons.mp hname with rfl | hname
      · intro hmem
        rcases List.mem_cons.mp hmem with h | h
        · exact hc h.symm
        · exact ih first List.mem_cons_self h
      · exact ih name (List.mem_cons_of_mem _ hname)

/-- A path begins with a slash when its first name is empty and another one follows. -/
theorem head_eq_slash_iff {path : List Char} : path.head? = some '/' ↔
    ∃ rest, rest ≠ [] ∧ names path = [] :: rest := by
  cases path with
  | nil =>
    refine iff_of_false (by simp) ?_
    rintro ⟨rest, hrest, hnames⟩
    rw [names_plain (by simp)] at hnames
    exact hrest (List.cons.inj hnames).2.symm
  | cons c path =>
    rw [names_cons, List.head?_cons, Option.some.injEq]
    split_ifs with hc
    · exact iff_of_true hc ⟨_, names_ne_nil path, rfl⟩
    · refine iff_of_false hc ?_
      rintro ⟨rest, -, hnames⟩
      obtain ⟨first, more, hfirst⟩ := List.exists_cons_of_ne_nil (names_ne_nil path)
      rw [hfirst, List.modifyHead_cons] at hnames
      cases hnames

theorem names_append_text {stack : List Name} (hclean : ∀ name ∈ stack, '/' ∉ name)
    (hlast : '/' ∉ last) :
    names (stack.reverse.flatMap (· ++ ['/']) ++ last) = stack.reverse ++ [last] := by
  induction stack generalizing last with
  | nil => exact names_plain hlast
  | cons name stack ih =>
    have hname : '/' ∉ name := hclean name List.mem_cons_self
    have hrest : ∀ other ∈ stack, '/' ∉ other :=
      fun other hother => hclean other (List.mem_cons_of_mem _ hother)
    have htext : (name :: stack).reverse.flatMap (· ++ ['/']) ++ last =
        (stack.reverse.flatMap (· ++ ['/']) ++ name) ++ '/' :: last := by simp
    rw [htext, names_slash, ih hrest hname, names_plain hlast, List.reverse_cons]

theorem names_text (hclean : f.Clean) :
    names f.text = (if f.lead then [[]] else []) ++ f.names.reverse ++ [f.last] := by
  have hnames := names_append_text (fun name hname => (hclean.1 name hname).2) hclean.2
  obtain ⟨lead, stack, last⟩ := f
  cases lead with
  | false => exact hnames
  | true =>
    rw [Form.text, if_pos rfl, if_pos rfl, List.append_assoc, List.singleton_append, names_cons,
      if_pos rfl, hnames]
    rfl

/-- The text says what the form is. -/
theorem text_inj (hclean : f.Clean) (hclean' : f'.Clean) (h : f.text = f'.text) : f = f' := by
  have hnames := congrArg names h
  rw [names_text hclean, names_text hclean'] at hnames
  obtain ⟨hfront, hlast⟩ := List.append_inj' hnames rfl
  obtain ⟨lead, stack, last⟩ := f
  obtain ⟨lead', stack', last'⟩ := f'
  have hne : ∀ {stack stack' : List Name}, (∀ name ∈ stack, name ≠ [] ∧ '/' ∉ name) →
      [[]] ++ stack'.reverse ≠ [] ++ stack.reverse := by
    intro stack stack' hstack heq
    rw [List.nil_append, List.singleton_append] at heq
    have hmem : [] ∈ stack := by
      rw [← List.mem_reverse, ← heq]
      exact List.mem_cons_self
    exact (hstack [] hmem).1 rfl
  cases hlast
  cases lead <;> cases lead'
  · cases List.reverse_injective hfront
    rfl
  · exact absurd hfront.symm (hne hclean.1)
  · exact absurd hfront (hne hclean'.1)
  · cases List.reverse_injective (List.append_cancel_left hfront)
    rfl

end Thunder.Path
