import Mathlib.Data.List.Basic

/-! Paths: texts of names with slashes between them, and the place where a path leads when no name
on the way is a link. -/

namespace Thunder.Path

abbrev Name := List Char

/-- The names of a path; those between two slashes, or before the first and behind the last one,
may be empty. -/
def names (path : List Char) : List Name := path.splitOn '/'

/-- A name of a path, taken at a place: the names of the directories around it, the innermost
first. -/
def enter (place : List Name) (name : Name) : List Name :=
  if name = [] ∨ name = ['.'] then place
  else if name = ['.', '.'] then place.tail
  else name :: place

def walk (place : List Name) (names : List Name) : List Name := names.foldl enter place

/-- Where a path leads.  A path without a slash in front starts at the working directory. -/
def resolve (cwd : List Name) (path : List Char) : List Name :=
  walk (if path.head? = some '/' then [] else cwd) (names path)

/-- A path leads to something below a directory. -/
def Inside (cwd : List Name) (directory path : List Char) : Prop :=
  resolve cwd directory <:+ resolve cwd path ∧ resolve cwd path ≠ resolve cwd directory

instance (cwd : List Name) (directory path : List Char) : Decidable (Inside cwd directory path) :=
  inferInstanceAs (Decidable (_ ∧ _))

variable {cwd place below : List Name} {name : Name} {path directory : List Char}

theorem names_slash (path rest : List Char) :
    names (path ++ '/' :: rest) = names path ++ names rest :=
  List.splitOn_append_cons_self path rest

theorem names_plain (h : '/' ∉ path) : names path = [path] := List.splitOn_eq_singleton h

/-- What is appended without a slash goes to the last name. -/
theorem names_append {tail : List Char} (h : '/' ∉ tail) (path : List Char) :
    ∃ front last, names (path ++ tail) = front ++ [last ++ tail] := by
  induction path with
  | nil => exact ⟨[], [], names_plain h⟩
  | cons c path ih =>
    obtain ⟨front, last, hnames⟩ := ih
    rw [names] at hnames
    rw [names, List.cons_append, List.splitOn_cons_eq_if_modifyHead, hnames]
    by_cases hc : (c == '/') = true
    · exact ⟨[] :: front, last, if_pos hc⟩
    · rw [if_neg hc]
      cases front with
      | nil => exact ⟨[], c :: last, rfl⟩
      | cons first front => exact ⟨(c :: first) :: front, last, rfl⟩

theorem names_ne_nil (path : List Char) : names path ≠ [] := List.splitOn_ne_nil '/' path

@[simp] theorem walk_cons (names : List Name) :
    walk place (name :: names) = walk (enter place name) names := rfl

theorem walk_append (names names' : List Name) :
    walk place (names ++ names') = walk (walk place names) names' := List.foldl_append ..

theorem enter_skip (h : name = [] ∨ name = ['.']) : enter place name = place := if_pos h

theorem enter_name (h : name ≠ []) (hdot : name ≠ ['.']) (hup : name ≠ ['.', '.']) :
    enter place name = name :: place := by
  rw [enter, if_neg (not_or.mpr ⟨h, hdot⟩), if_neg hup]

/-- A path in a directory, whose text ends with a slash. -/
theorem resolve_append (h : directory.getLast? = some '/') :
    resolve cwd (directory ++ path) = walk (resolve cwd directory) (names path) := by
  obtain ⟨text, rfl⟩ := List.getLast?_eq_some_iff.mp h
  have hhead : (text ++ ['/'] ++ path).head? = (text ++ ['/']).head? := by
    cases text <;> rfl
  have hnames : names (text ++ ['/']) = names text ++ [[]] := names_slash text []
  rw [resolve, resolve, hhead, List.append_assoc, List.singleton_append, names_slash, walk_append,
    hnames, walk_append]
  rfl

theorem inside_append (h : directory.getLast? = some '/')
    (hwalk : walk (resolve cwd directory) (names path) = below ++ resolve cwd directory)
    (hbelow : below ≠ []) : Inside cwd directory (directory ++ path) := by
  rw [Inside, resolve_append h, hwalk]
  exact ⟨List.suffix_append _ _, fun heq => hbelow (List.append_left_eq_self.mp heq)⟩

/-- Names without a `..` lead further down, or nowhere. -/
theorem walk_of_no_up (place : List Name) {names : List Name} (h : ['.', '.'] ∉ names) :
    ∃ below, walk place names = below ++ place := by
  induction names generalizing place with
  | nil => exact ⟨[], rfl⟩
  | cons name names ih =>
    rw [List.mem_cons, not_or] at h
    rw [walk_cons]
    by_cases hskip : name = [] ∨ name = ['.']
    · rw [enter_skip hskip]
      exact ih place h.2
    · obtain ⟨below, hbelow⟩ := ih (name :: place) h.2
      rw [enter_name (not_or.mp hskip).1 (not_or.mp hskip).2 (Ne.symm h.1)]
      exact ⟨below ++ [name], by rw [hbelow, List.append_cons]⟩

/-- A path without a `..` to a file leads to something below. -/
theorem walk_file (place : List Name) {tail : List Char} (htail : '/' ∉ tail)
    (hlast : ∃ c, tail.getLast? = some c ∧ c ≠ '.')
    (h : ['.', '.'] ∉ names (path ++ tail)) :
    ∃ below, below ≠ [] ∧ walk place (names (path ++ tail)) = below ++ place := by
  obtain ⟨front, last, hnames⟩ := names_append htail path
  obtain ⟨c, hc, hdot⟩ := hlast
  obtain ⟨init, rfl⟩ := List.getLast?_eq_some_iff.mp hc
  have hend : ∀ name : Name, name.getLast? = some '.' → last ++ (init ++ [c]) ≠ name := by
    rintro name hname rfl
    rw [← List.append_assoc, List.getLast?_concat] at hname
    exact hdot (Option.some.inj hname)
  rw [hnames, List.mem_append, not_or] at h
  obtain ⟨below, hbelow⟩ := walk_of_no_up place h.1
  refine ⟨(last ++ (init ++ [c])) :: below, List.cons_ne_nil _ _, ?_⟩
  rw [hnames, walk_append, hbelow, walk_cons,
    enter_name (by simp) (hend ['.'] rfl) (hend ['.', '.'] rfl)]
  rfl

end Thunder.Path
