import Thunder.Core.FileInBounds
import Thunder.Core.FileNormalize

/-! `File::Normalize` and the normal form of a path: where the names of the loop go together with
the reduced ones, and when the text that is returned is the normal form. -/

namespace Thunder.Core.File

open Thunder.Path

/-! ### The normal form, and the names that lead elsewhere -/

/-- The forms that the path may be returned in: without its `.` and empty names and without the
names that a `..` cancels.  A directory ends with a slash, which may be missing behind a `..` that
stays behind another one; there is none where the path leads above its start, if it is closed, and
none of a directory unless they are allowed. -/
def IsNormal (absolute closed allowDirs : Bool) (ns : List Name) (last : Name) (f : Option Form) :
    Prop :=
  match reduce closed ns with
  | none => f = none
  | some before =>
    if last = [] ∨ last = ['.'] then
      f = if allowDirs then some (dirForm absolute before) else none
    else if last = parent then
      match cancel closed before parent with
      | none => f = none
      | some stack =>
        if allowDirs then
          f = some (dirForm absolute stack) ∨
            (before.head? = some parent ∧ f = some ⟨absolute, before, parent⟩)
        else f = none
    else f = some ⟨absolute, before, last⟩

/-- An empty name where nothing is left of the names: the slash behind it comes to the front. -/
def Slashed (closed : Bool) (ns : List Name) : Prop :=
  Behind [] (fun pre => reduce closed pre = some []) ns

/-- A name that begins with a dot, or, in front, has one for its second character. -/
def KeptAt (absolute closed : Bool) (pre : List Name) : Prop :=
  ∃ top before, reduce closed pre = some (top :: before) ∧ top ≠ parent ∧
    (top.head? = some '.' ∨
      (before = [] ∧ absolute = false ∧ ¬Slashed closed pre ∧ top[1]? = some '.'))

/-- A `..` that should cancel such a name. -/
def Keeps (absolute closed : Bool) (ns : List Name) : Prop :=
  Behind parent (KeptAt absolute closed) ns

/-- A `..` that leads above the start of a closed path, before one that is kept. -/
def Refused (absolute closed : Bool) (ns : List Name) : Prop :=
  closed = true ∧
    Behind parent (fun pre => reduce closed pre = some [] ∧ ¬Keeps absolute closed pre) ns

/-- A kept `..`. -/
def Stuck (names : List Name) : Prop :=
  ∃ after top before, names = after ++ parent :: top :: before ∧ top ≠ parent

/-- How the names of the loop and the reduced ones go together. -/
inductive Track (absolute s : Bool) (ns : List Name) : Prop
  | along {lead : Bool} {stack : List Name} (hkeeps : ¬Keeps absolute (absolute || s) ns)
      (hlead : lead = true ↔ absolute = true ∨ Slashed (absolute || s) ns)
      (hreduce : reduce (absolute || s) ns = some stack)
      (hfollow : follow s ns = some ⟨lead, stack⟩)
  | refused (hrefused : Refused absolute (absolute || s) ns) (hfollow : follow s ns = none)
  | lost {stack : List Name} (hopen : (absolute || s) = false)
      (hslashed : Slashed (absolute || s) ns) (hreduce : reduce (absolute || s) ns = some stack)
      (hparent : parent ∈ stack) (hfollow : follow s ns = none)
  | kept {t : Trail} (hkeeps : Keeps absolute (absolute || s) ns)
      (hrefused : ¬Refused absolute (absolute || s) ns) (hfollow : follow s ns = some t)
      (hstuck : Stuck t.names)

variable {absolute closed s allowDirs : Bool} {location : List Char} {ns stack before : List Name}
  {name last top : Name} {t : Trail}

theorem slashed_concat : Slashed closed (ns ++ [name]) ↔
    Slashed closed ns ∨ (name = [] ∧ reduce closed ns = some []) := behind_concat

theorem keeps_concat : Keeps absolute closed (ns ++ [name]) ↔
    Keeps absolute closed ns ∨ (name = parent ∧ KeptAt absolute closed ns) := behind_concat

theorem refused_concat : Refused absolute closed (ns ++ [name]) ↔ Refused absolute closed ns ∨
    (closed = true ∧ name = parent ∧ reduce closed ns = some [] ∧ ¬Keeps absolute closed ns) := by
  unfold Refused
  rw [behind_concat]
  tauto

theorem reduce_of_refused (h : Refused absolute closed ns) : reduce closed ns = none := by
  obtain ⟨rfl, h⟩ := h
  exact reduce_eq_none_of_behind h fun _ h => h.1

/-- A name that is kept is one that sticks. -/
theorem keptAt_iff {lead : Bool} (hlead : lead = true ↔ absolute = true ∨ Slashed closed ns)
    (h : reduce closed ns = some (top :: before)) (htop : top ≠ parent) :
    KeptAt absolute closed ns ↔ sticks lead before top = true := by
  have hfront : lead = false ↔ absolute = false ∧ ¬Slashed closed ns := by
    rw [← Bool.not_eq_true, hlead, not_or, Bool.not_eq_true]
  rw [sticks, decide_eq_true_eq, hfront]
  constructor
  · rintro ⟨top', before', h', -, hkept⟩
    cases h.symm.trans h'
    tauto
  · intro hkept
    refine ⟨top, before, h, htop, ?_⟩
    tauto

theorem not_keptAt_parent (h : reduce closed ns = some (parent :: before)) :
    ¬KeptAt absolute closed ns := by
  rintro ⟨top', before', h', htop, -⟩
  cases h.symm.trans h'
  exact htop rfl

theorem not_keptAt_nil (h : reduce closed ns = some []) : ¬KeptAt absolute closed ns := by
  rintro ⟨top', before', h', -⟩
  cases h.symm.trans h'

theorem sticks_parent (lead : Bool) (before : List Name) : sticks lead before parent = true := by
  simp [sticks]

theorem Stuck.cons (h : Stuck stack) (name : Name) : Stuck (name :: stack) := by
  obtain ⟨after, top, before, rfl, htop⟩ := h
  exact ⟨name :: after, top, before, rfl, htop⟩

theorem Stuck.tail (h : Stuck (top :: before)) (htop : top ≠ parent) : Stuck before := by
  obtain ⟨_ | ⟨name, after⟩, top', before', heq, htop'⟩ := h
  · cases heq
    exact absurd rfl htop
  · cases heq
    exact ⟨after, top', before', rfl, htop'⟩

theorem not_stuck_of_reduced (h : Reduced closed stack) : ¬Stuck stack := by
  induction h with
  | nil =>
    rintro ⟨after, top, before, h, -⟩
    cases after <;> cases h
  | parents _ hparents =>
    rintro ⟨after, top, before, h, htop⟩
    have hmem : ∀ name ∈ after ++ parent :: top :: before, name = parent := by
      rw [← h]
      intro name hname
      rcases List.mem_cons.mp hname with rfl | hname
      · rfl
      · exact hparents name hname
    exact htop (hmem top (by simp))
  | name hplain _ ih => exact fun hstuck => ih (hstuck.tail hplain.ne_parent)

theorem enter_nil (t : Trail) :
    t.enter [] = some ⟨t.lead || decide (t.names = []), t.names⟩ := by
  rw [Trail.enter, if_pos rfl]
  obtain ⟨lead, _ | ⟨name, names⟩⟩ := t <;> simp

theorem enterIn_parent_nil (lead s : Bool) : Trail.enterIn s ⟨lead, []⟩ parent =
    if lead || s then none else some ⟨false, [parent]⟩ := by
  cases lead <;> cases s <;> rfl

theorem enterIn_parent_cons (lead s : Bool) (top : Name) (before : List Name) :
    Trail.enterIn s ⟨lead, top :: before⟩ parent =
      some ⟨lead, if sticks lead before top then parent :: top :: before else before⟩ :=
  enterIn_of_names (List.cons_ne_nil top before)

theorem enterIn_plain (hnil : name ≠ []) (hdot : name ≠ ['.']) (hparent : name ≠ parent) :
    t.enterIn s name = some ⟨t.lead, name :: t.names⟩ := by
  rw [enterIn_of_ne hparent, Trail.enter, if_neg hnil, if_neg hdot, if_neg hparent]

/-- A name of a kept `..` does not go. -/
theorem Stuck.enterIn (h : Stuck t.names) (name : Name) :
    ∃ t', t.enterIn s name = some t' ∧ Stuck t'.names := by
  by_cases hnil : name = []
  · subst hnil
    exact ⟨_, (enterIn_of_ne (by decide)).trans (enter_nil t), h⟩
  by_cases hdot : name = ['.']
  · subst hdot
    exact ⟨t, enterIn_of_ne (by decide), h⟩
  by_cases hparent : name = parent
  · subst hparent
    obtain ⟨lead, _ | ⟨top, before⟩⟩ := t
    · obtain ⟨after, top, before, heq, -⟩ := h
      cases after <;> cases heq
    · refine ⟨_, enterIn_parent_cons lead s top before, ?_⟩
      dsimp only
      split_ifs with hsticks
      · exact h.cons parent
      · refine h.tail fun htop => hsticks ?_
        rw [htop]
        exact sticks_parent lead before
  · exact ⟨_, enterIn_plain hnil hdot hparent, h.cons name⟩

/-- A `..` in front of names that agree so far. -/
theorem track_parent {lead : Bool} (hkeeps : ¬Keeps absolute (absolute || s) ns)
    (hlead : lead = true ↔ absolute = true ∨ Slashed (absolute || s) ns)
    (hreduce : reduce (absolute || s) ns = some stack)
    (hfollow : follow s ns = some ⟨lead, stack⟩) : Track absolute s (ns ++ [parent]) := by
  have hslashed : Slashed (absolute || s) (ns ++ [parent]) ↔ Slashed (absolute || s) ns := by
    rw [slashed_concat, or_iff_left fun h => absurd h.1 (by decide)]
  have hfollow' : follow s (ns ++ [parent]) = Trail.enterIn s ⟨lead, stack⟩ parent := by
    rw [follow_concat, hfollow, Option.bind_some]
  have hreduce' : reduce (absolute || s) (ns ++ [parent]) =
      cancel (absolute || s) stack parent := by
    rw [reduce_concat, hreduce, Option.bind_some]
  rcases stack with _ | ⟨top, before⟩
  · rw [enterIn_parent_nil] at hfollow'
    rw [cancel_parent_nil] at hreduce'
    cases hclosed : absolute || s with
    | true =>
      have hup : (lead || s) = true := by
        cases absolute with
        | true => rw [hlead.mpr (.inl rfl), Bool.true_or]
        | false => rw [show s = true from hclosed, Bool.or_true]
      rw [if_pos hup] at hfollow'
      exact .refused (refused_concat.mpr (.inr ⟨hclosed, rfl, hreduce, hkeeps⟩)) hfollow'
    | false =>
      obtain ⟨rfl, rfl⟩ := Bool.or_eq_false_iff.mp hclosed
      rw [if_neg (by decide)] at hreduce'
      cases lead with
      | true =>
        have hbefore := (hlead.mp rfl).resolve_left Bool.false_ne_true
        exact .lost rfl (hslashed.mpr hbefore) hreduce' List.mem_cons_self hfollow'
      | false =>
        refine .along ?_ (by rw [hslashed]; exact hlead) hreduce' hfollow'
        rw [keeps_concat, not_or, not_and]
        exact ⟨hkeeps, fun _ => not_keptAt_nil hreduce⟩
  · rw [enterIn_parent_cons] at hfollow'
    rw [cancel_parent_cons] at hreduce'
    by_cases htop : top = parent
    · subst htop
      rw [if_pos rfl] at hreduce'
      rw [if_pos (sticks_parent lead before)] at hfollow'
      refine .along ?_ (by rwa [hslashed]) hreduce' hfollow'
      rw [keeps_concat, not_or, not_and]
      exact ⟨hkeeps, fun _ => not_keptAt_parent hreduce⟩
    · rw [if_neg htop] at hreduce'
      have hkept := keptAt_iff hlead hreduce htop
      by_cases hsticks : sticks lead before top = true
      · rw [if_pos hsticks] at hfollow'
        refine .kept (keeps_concat.mpr (.inr ⟨rfl, hkept.mpr hsticks⟩)) ?_ hfollow'
          ⟨[], top, before, rfl, htop⟩
        rw [refused_concat, not_or]
        refine ⟨fun h => ?_, fun h => ?_⟩
        · rw [reduce_of_refused h] at hreduce
          cases hreduce
        · cases hreduce.symm.trans h.2.2.1
      · rw [if_neg hsticks] at hfollow'
        refine .along ?_ (by rwa [hslashed]) hreduce' hfollow'
        rw [keeps_concat, not_or, not_and]
        exact ⟨hkeeps, fun _ h => hsticks (hkept.mp h)⟩

theorem mem_of_cancel (hmem : parent ∈ stack) (name : Name) :
    ∃ stack', cancel closed stack name = some stack' ∧ parent ∈ stack' := by
  by_cases hskip : name = [] ∨ name = ['.']
  · exact ⟨stack, cancel_skip hskip, hmem⟩
  by_cases hparent : name = parent
  · subst hparent
    obtain ⟨top, before, rfl⟩ := List.exists_cons_of_ne_nil (List.ne_nil_of_mem hmem)
    rw [cancel_parent_cons]
    split_ifs with htop
    · exact ⟨_, rfl, List.mem_cons_self⟩
    · exact ⟨_, rfl, (List.mem_cons.mp hmem).resolve_left (Ne.symm htop)⟩
  · exact ⟨_, cancel_plain (not_or.mp hskip).1 (not_or.mp hskip).2 hparent,
      List.mem_cons_of_mem _ hmem⟩

theorem Track.concat (h : Track absolute s ns) (name : Name) : Track absolute s (ns ++ [name]) := by
  cases h with
  | @along lead stack hkeeps hlead hreduce hfollow =>
    by_cases hparent : name = parent
    · subst hparent
      exact track_parent hkeeps hlead hreduce hfollow
    have hkeeps' : ¬Keeps absolute (absolute || s) (ns ++ [name]) := by
      rw [keeps_concat, or_iff_left fun h => hparent h.1]
      exact hkeeps
    by_cases hnil : name = []
    · subst hnil
      refine @Track.along absolute s _ (lead || decide (stack = [])) stack hkeeps' ?_
        (by rw [reduce_concat, hreduce]; rfl)
        (by rw [follow_concat, hfollow]; exact (enterIn_of_ne hparent).trans (enter_nil _))
      rw [Bool.or_eq_true, decide_eq_true_eq, hlead, slashed_concat, hreduce, Option.some.injEq]
      tauto
    have hslashed : Slashed (absolute || s) (ns ++ [name]) ↔ Slashed (absolute || s) ns := by
      rw [slashed_concat, or_iff_left fun h => hnil h.1]
    by_cases hdot : name = ['.']
    · subst hdot
      exact .along hkeeps' (by rwa [hslashed]) (by rw [reduce_concat, hreduce]; rfl)
        (by rw [follow_concat, hfollow]; exact enterIn_of_ne hparent)
    · exact .along hkeeps' (by rwa [hslashed])
        (by rw [reduce_concat, hreduce]; exact cancel_plain hnil hdot hparent)
        (by rw [follow_concat, hfollow]; exact enterIn_plain hnil hdot hparent)
  | refused hrefused hfollow =>
    exact .refused (refused_concat.mpr (.inl hrefused)) (by rw [follow_concat, hfollow]; rfl)
  | lost hopen hslashed hreduce hmem hfollow =>
    obtain ⟨stack', hcancel, hmem'⟩ := mem_of_cancel hmem name
    exact .lost hopen (slashed_concat.mpr (.inl hslashed))
      (by rw [reduce_concat, hreduce]; exact hcancel) hmem' (by rw [follow_concat, hfollow]; rfl)
  | kept hkeeps hrefused hfollow hstuck =>
    obtain ⟨t', henter, hstuck'⟩ := hstuck.enterIn name
    refine .kept (keeps_concat.mpr (.inl hkeeps)) ?_ (by rw [follow_concat, hfollow]; exact henter)
      hstuck'
    rw [refused_concat, not_or]
    exact ⟨hrefused, fun h => h.2.2.2 hkeeps⟩

/-! ### The end, compared -/

/-- The last name says that the path is one of a directory. -/
def IsDirectory (last : Name) : Prop := last = [] ∨ last = ['.'] ∨ last = parent

/-- A last name that is treated as it should be: not one that ends with a dot; a `..` not above the
start, and not behind a name that is kept. -/
def Fits (absolute s : Bool) (stack : List Name) (last : Name) : Prop :=
  last = [] ∨ last = ['.'] ∨
  (last = parent ∧ (stack = [] → absolute = true ∨ s = false) ∧
    ∀ top before, stack = top :: before → top = parent ∨ sticks absolute before top = false) ∨
  (last ≠ parent ∧ last.getLast? ≠ some '.')

theorem dirForm_ne (lead : Bool) (names names' : List Name) (h : last ≠ []) (lead' : Bool) :
    (⟨lead', names', last⟩ : Form) ≠ dirForm lead names := by
  unfold dirForm
  split_ifs
  · intro heq
    cases heq
    exact h rfl
  · intro heq
    cases heq
    exact h rfl

theorem isNormal_agrees (habsolute : absolute = true → location.head? ≠ some '.')
    (hreduce : reduce (absolute || s) ns = some stack) :
    IsNormal absolute (absolute || s) allowDirs ns last
        (closing location allowDirs ⟨absolute, stack⟩ last) ↔
      (allowDirs = false ∧ IsDirectory last) ∨ Fits absolute s stack last := by
  unfold IsNormal closing IsDirectory Fits
  rw [hreduce]
  dsimp only
  by_cases hnil : last = []
  · subst hnil
    refine iff_of_true ?_ (.inr (.inl rfl))
    rw [if_pos (.inl rfl)]
    cases allowDirs with
    | false => rfl
    | true =>
      rw [if_neg (by decide), if_pos rfl, if_neg fun h => habsolute h.1 h.2.2, if_pos rfl]
  by_cases hdot : last = ['.']
  · subst hdot
    refine iff_of_true ?_ (.inr (.inr (.inl rfl)))
    rw [if_pos (.inr rfl)]
    cases allowDirs <;> rfl
  rw [if_neg (not_or.mpr ⟨hnil, hdot⟩)]
  by_cases hparent : last = parent
  · subst hparent
    rw [if_pos rfl, if_pos rfl]
    cases allowDirs with
    | false =>
      refine iff_of_true ?_ (.inl ⟨rfl, .inr (.inr rfl)⟩)
      cases hcancel : cancel (absolute || s) stack parent <;> rfl
    | true =>
      rw [if_neg (by decide), if_neg hnil, if_neg hdot]
      simp only [hnil, hdot, true_and, false_or, ne_eq, not_true_eq_false, false_and, or_false,
        Bool.true_eq_false, if_true]
      rcases stack with _ | ⟨top, before⟩
      · rw [cancel_parent_nil]
        cases absolute <;> cases s <;> simp [dirForm]
      · rw [cancel_parent_cons]
        by_cases htop : top = parent
        · subst htop
          rw [if_pos rfl]
          dsimp only
          rw [if_pos (sticks_parent absolute before)]
          refine iff_of_true (.inr ⟨rfl, rfl⟩) ⟨nofun, fun top' before' heq => ?_⟩
          cases heq
          exact .inl rfl
        · rw [if_neg htop]
          dsimp only
          cases hsticks : sticks absolute before top with
          | true =>
            rw [if_pos rfl]
            refine iff_of_false ?_ fun h => ?_
            · rintro (h | ⟨h, -⟩)
              · exact dirForm_ne absolute before _ hnil absolute (Option.some.inj h)
              · exact htop (Option.some.inj h)
            · rcases h.2 top before rfl with h | h
              · exact htop h
              · rw [hsticks] at h
                cases h
          | false =>
            rw [if_neg Bool.false_ne_true]
            refine iff_of_true (.inl rfl) ⟨nofun, fun top' before' heq => ?_⟩
            cases heq
            exact .inr hsticks
  · rw [if_neg hparent]
    by_cases hend : last.getLast? = some '.'
    · refine iff_of_false ?_ ?_
      · cases allowDirs with
        | false =>
          rw [if_pos rfl, if_pos (.inr hend)]
          exact nofun
        | true =>
          rw [if_neg (by decide), if_neg hnil, if_neg hdot, if_neg hparent, if_pos hend]
          intro h
          cases h
      · simp [hnil, hdot, hparent, hend]
    · refine iff_of_true ?_ (.inr (.inr (.inr (.inr ⟨hparent, hend⟩))))
      cases allowDirs with
      | false => rw [if_pos rfl, if_neg (not_or.mpr ⟨hnil, hend⟩)]
      | true =>
        rw [if_neg (by decide), if_neg hnil, if_neg hdot, if_neg hparent, if_neg hend]

/-- The paths that are in normal form. -/
inductive Normal (absolute closed allowDirs : Bool) : Form → Prop
  | dir {stack : List Name} (hallow : allowDirs = true) (hstack : Reduced closed stack) :
      Normal absolute closed allowDirs (dirForm absolute stack)
  | up {before : List Name} (hallow : allowDirs = true)
      (hstack : Reduced closed (parent :: before)) :
      Normal absolute closed allowDirs ⟨absolute, parent :: before, parent⟩
  | file {stack : List Name} {name : Name} (hname : Plain name) (hstack : Reduced closed stack) :
      Normal absolute closed allowDirs ⟨absolute, stack, name⟩

theorem normal_of_isNormal {f : Form} (hslash : ∀ name ∈ ns ++ [last], '/' ∉ name)
    (h : IsNormal absolute closed allowDirs ns last (some f)) :
    Normal absolute closed allowDirs f := by
  unfold IsNormal at h
  cases hreduce : reduce closed ns with
  | none =>
    rw [hreduce] at h
    cases h
  | some before =>
    have hbefore : Reduced closed before := reduced_of_reduce
      (fun name hname => hslash name (List.mem_append_left _ hname)) hreduce
    rw [hreduce] at h
    dsimp only at h
    by_cases hskip : last = [] ∨ last = ['.']
    · rw [if_pos hskip] at h
      cases allowDirs with
      | false => cases h
      | true =>
        cases h
        exact .dir rfl hbefore
    rw [if_neg hskip] at h
    by_cases hparent : last = parent
    · rw [if_pos hparent] at h
      cases hcancel : cancel closed before parent with
      | none =>
        rw [hcancel] at h
        cases h
      | some stack =>
        rw [hcancel] at h
        cases allowDirs with
        | false => cases h
        | true =>
          rcases h with h | ⟨hhead, h⟩
          · cases h
            exact .dir rfl (hbefore.cancel (by decide) hcancel)
          · obtain ⟨before, rfl⟩ := List.head?_eq_some_iff.mp hhead
            cases h
            exact .up rfl hbefore
    · rw [if_neg hparent] at h
      cases h
      exact .file ⟨(not_or.mp hskip).1, (not_or.mp hskip).2, hparent, hslash last (by simp)⟩ hbefore

/-- A path in normal form is of its own kind, relative or not, and has no kept `..`. -/
theorem Normal.lead_not_stuck {f : Form} (h : Normal absolute closed allowDirs f) :
    f.lead = absolute ∧ ¬Stuck f.names := by
  cases h with
  | dir _ hstack =>
    unfold dirForm
    split_ifs with hempty
    · refine ⟨hempty.1.symm, ?_⟩
      rintro ⟨_ | ⟨name, _ | ⟨name', after⟩⟩, top, before, heq, -⟩ <;> cases heq
    · exact ⟨rfl, not_stuck_of_reduced hstack⟩
  | up _ hstack => exact ⟨rfl, not_stuck_of_reduced hstack⟩
  | file _ hstack => exact ⟨rfl, not_stuck_of_reduced hstack⟩

/-- Where nothing is returned. -/
theorem isNormal_none : IsNormal absolute closed allowDirs ns last none ↔
    (allowDirs = false ∧ IsDirectory last) ∨ reduce closed ns = none ∨
      (last = parent ∧ closed = true ∧ reduce closed ns = some []) := by
  unfold IsNormal IsDirectory
  cases hreduce : reduce closed ns with
  | none => simp
  | some before =>
    dsimp only
    by_cases hskip : last = [] ∨ last = ['.']
    · have hne : last ≠ parent := by
        rintro rfl
        revert hskip
        decide
      rw [if_pos hskip]
      cases allowDirs <;> simp [hskip, hne]
    rw [if_neg hskip]
    obtain ⟨hnil, hdot⟩ := not_or.mp hskip
    by_cases hparent : last = parent
    · subst hparent
      rw [if_pos rfl]
      rcases before with _ | ⟨top, before⟩
      · rw [cancel_parent_nil]
        cases closed <;> cases allowDirs <;> simp
      · rw [cancel_parent_cons]
        by_cases htop : top = parent
        · rw [if_pos htop]
          cases allowDirs <;> simp
        · rw [if_neg htop]
          cases allowDirs <;> simp
    · simp [hnil, hdot, hparent]

theorem isNormal_slashed (hreduce : reduce s ns = some stack)
    (hslash : ∀ name ∈ ns ++ [last], '/' ∉ name) :
    IsNormal false s allowDirs ns last (closing location allowDirs ⟨true, stack⟩ last) ↔
      (allowDirs = false ∧ IsDirectory last) ∨ (allowDirs = true ∧ stack = [] ∧
        ((last = [] ∧ location.head? = some '.') ∨ (last = parent ∧ s = true))) := by
  have hlead : ∀ {f : Form}, f.lead = true → ¬IsNormal false s allowDirs ns last (some f) := by
    intro f hf h
    rw [(normal_of_isNormal hslash h).lead_not_stuck.1] at hf
    cases hf
  have hdir : ∀ names, (dirForm true names).lead = true := fun _ => rfl
  unfold closing IsDirectory
  cases allowDirs with
  | false =>
    rw [if_pos rfl]
    by_cases hend : last = [] ∨ last.getLast? = some '.'
    · rw [if_pos hend, isNormal_none, hreduce]
      unfold IsDirectory
      simp only [true_and, reduceCtorEq, false_or, false_and, or_false, Bool.false_eq_true]
      tauto
    · rw [if_neg hend]
      refine iff_of_false (hlead rfl) ?_
      rintro (⟨-, hnil | hdot | hparent⟩ | ⟨h, -⟩)
      · exact hend (.inl hnil)
      · exact hend (.inr (by rw [hdot]; rfl))
      · exact hend (.inr (by rw [hparent]; rfl))
      · cases h
  | true =>
    rw [if_neg (by decide)]
    simp only [Bool.true_eq_false, false_and, false_or, true_and]
    by_cases hnil : last = []
    · subst hnil
      rw [if_pos rfl]
      by_cases hpatch : stack = [] ∧ location.head? = some '.'
      · rw [if_pos hpatch]
        refine iff_of_true ?_ ⟨hpatch.1, .inl ⟨rfl, hpatch.2⟩⟩
        rw [IsNormal, hreduce, hpatch.1]
        rfl
      · rw [if_neg hpatch]
        refine iff_of_false (hlead (hdir stack)) ?_
        rintro ⟨hstack, ⟨-, hhead⟩ | ⟨h, -⟩⟩
        · exact hpatch ⟨hstack, hhead⟩
        · cases h
    rw [if_neg hnil]
    by_cases hdot : last = ['.']
    · subst hdot
      rw [if_pos rfl]
      refine iff_of_false (hlead (hdir stack)) ?_
      rintro ⟨-, ⟨h, -⟩ | ⟨h, -⟩⟩ <;> cases h
    rw [if_neg hdot]
    by_cases hparent : last = parent
    · subst hparent
      rw [if_pos rfl]
      rcases stack with _ | ⟨top, before⟩
      · dsimp only
        rw [if_pos trivial, isNormal_none, hreduce]
        simp [hnil]
      · refine iff_of_false ?_ (by simp)
        dsimp only
        split_ifs
        · exact hlead rfl
        · exact hlead (hdir before)
    rw [if_neg hparent]
    refine iff_of_false ?_ (by simp [hnil, hparent])
    split_ifs
    · exact hlead rfl
    · exact hlead rfl

theorem Stuck.ne_nil (h : Stuck stack) : stack ≠ [] := by
  obtain ⟨after, top, before, rfl, -⟩ := h
  cases after <;> nofun

/-- A kept `..` is still there at the end. -/
theorem closing_stuck (location : List Char) (h : Stuck t.names) (last : Name) :
    ∃ f, closing location true t last = some f ∧ Stuck f.names := by
  have hdir : ∀ {names : List Name}, Stuck names → Stuck (dirForm t.lead names).names := by
    intro names hnames
    rw [dirForm, if_neg fun h => hnames.ne_nil h.2]
    exact hnames
  unfold closing
  rw [if_neg (by decide)]
  by_cases hnil : last = []
  · rw [if_pos hnil, if_neg fun hpatch => h.ne_nil hpatch.2.1]
    exact ⟨_, rfl, hdir h⟩
  rw [if_neg hnil]
  by_cases hdot : last = ['.']
  · rw [if_pos hdot]
    exact ⟨_, rfl, hdir h⟩
  rw [if_neg hdot]
  by_cases hparent : last = parent
  · rw [if_pos hparent]
    obtain ⟨lead, _ | ⟨top, before⟩⟩ := t
    · exact absurd rfl h.ne_nil
    · dsimp only
      split_ifs with hsticks
      · exact ⟨_, rfl, h⟩
      · refine ⟨_, rfl, hdir (h.tail fun htop => hsticks ?_)⟩
        rw [htop]
        exact sticks_parent lead before
  rw [if_neg hparent]
  split_ifs
  · exact ⟨_, rfl, h.cons last⟩
  · exact ⟨_, rfl, h⟩

theorem isNormal_stuck (h : Stuck t.names) (hslash : ∀ name ∈ ns ++ [last], '/' ∉ name) :
    IsNormal absolute closed allowDirs ns last (closing location allowDirs t last) ↔
      allowDirs = false ∧
        (IsDirectory last ∨ (last.getLast? = some '.' ∧ reduce closed ns = none)) := by
  have hstuck : ∀ {f : Form}, Stuck f.names →
      ¬IsNormal absolute closed allowDirs ns last (some f) :=
    fun hf hnormal => (normal_of_isNormal hslash hnormal).lead_not_stuck.2 hf
  cases allowDirs with
  | true =>
    obtain ⟨f, hclosing, hf⟩ := closing_stuck location h last
    rw [hclosing]
    exact iff_of_false (hstuck hf) nofun
  | false =>
    unfold closing
    rw [if_pos rfl]
    by_cases hend : last = [] ∨ last.getLast? = some '.'
    · rw [if_pos hend, isNormal_none]
      have hup : last = parent ∧ closed = true ∧ reduce closed ns = some [] → IsDirectory last :=
        fun h => .inr (.inr h.1)
      have hnil : last = [] → IsDirectory last := .inl
      tauto
    · rw [if_neg hend]
      refine iff_of_false (hstuck h) ?_
      rintro ⟨-, (hnil | hdot | hparent) | ⟨hlast, -⟩⟩
      · exact hend (.inl hnil)
      · exact hend (.inr (by rw [hdot]; rfl))
      · exact hend (.inr (by rw [hparent]; rfl))
      · exact hend (.inr hlast)

/-! ### When the path is normalised -/

/-- When a path is normalised: the names in front of the last one, and that one. -/
def Meets (absolute s allowDirs : Bool) (location : List Char) (ns : List Name) (last : Name) :
    Prop :=
  -- Nothing is returned, as it should be.
  (allowDirs = false ∧ IsDirectory last) ∨
  Refused absolute (absolute || s) ns ∨
  (allowDirs = false ∧ last.getLast? = some '.' ∧ reduce (absolute || s) ns = none) ∨
  -- The names of the loop are the reduced ones.
  (¬Keeps absolute (absolute || s) ns ∧ (absolute = false → ¬Slashed (absolute || s) ns) ∧
    ∃ stack, reduce (absolute || s) ns = some stack ∧ Fits absolute s stack last) ∨
  -- The slash that came to the front goes again with the end of the text.
  (allowDirs = true ∧ absolute = false ∧ ¬Keeps absolute (absolute || s) ns ∧
    Slashed (absolute || s) ns ∧ reduce (absolute || s) ns = some [] ∧
    ((last = [] ∧ location.head? = some '.') ∨ (last = parent ∧ s = true)))

theorem isNormal_iff (allowDirs : Bool) (h : Track absolute s ns)
    (hslash : ∀ name ∈ ns ++ [last], '/' ∉ name)
    (habsolute : absolute = true → location.head? ≠ some '.') :
    IsNormal absolute (absolute || s) allowDirs ns last
        ((follow s ns).bind (closing location allowDirs · last)) ↔
      Meets absolute s allowDirs location ns last := by
  unfold Meets
  cases h with
  | @along lead stack hkeeps hlead hreduce hfollow =>
    have hrefused : ¬Refused absolute (absolute || s) ns := by
      intro h
      cases hreduce.symm.trans (reduce_of_refused h)
    rw [hfollow, Option.bind_some, hreduce]
    by_cases hfront : absolute = false ∧ Slashed (absolute || s) ns
    · obtain ⟨rfl, hslashed⟩ := hfront
      obtain rfl := hlead.mpr (.inr hslashed)
      rw [Bool.false_or] at hreduce hrefused hkeeps hslashed ⊢
      rw [isNormal_slashed hreduce hslash]
      simp only [hrefused, hkeeps, hslashed, Option.some.injEq, reduceCtorEq, and_false, false_or,
        not_true_eq_false, true_and, false_and, forall_const, not_false_eq_true]
    · have hfront' : absolute = false → ¬Slashed (absolute || s) ns :=
        fun habs hslashed => hfront ⟨habs, hslashed⟩
      have hlead' : lead = absolute := by
        rw [Bool.eq_iff_iff, hlead]
        refine or_iff_left_of_imp fun hslashed => ?_
        by_contra habs
        exact hfront ⟨Bool.not_eq_true _ ▸ habs, hslashed⟩
      subst hlead'
      rw [isNormal_agrees habsolute hreduce]
      constructor
      · rintro (h | h)
        · exact .inl h
        · exact .inr (.inr (.inr (.inl ⟨hkeeps, hfront', stack, rfl, h⟩)))
      · rintro (h | h | ⟨-, -, h⟩ | ⟨-, -, stack', h, hfits⟩ | ⟨-, habs, -, hslashed, -⟩)
        · exact .inl h
        · exact absurd h hrefused
        · cases h
        · cases h
          exact .inr hfits
        · exact absurd hslashed (hfront' habs)
  | refused hrefused hfollow =>
    rw [hfollow]
    exact iff_of_true (isNormal_none.mpr (.inr (.inl (reduce_of_refused hrefused))))
      (.inr (.inl hrefused))
  | @lost stack hopen hslashed hreduce hmem hfollow =>
    obtain ⟨rfl, rfl⟩ := Bool.or_eq_false_iff.mp hopen
    have hrefused : ¬Refused false false ns := nofun
    have hstack : stack ≠ [] := List.ne_nil_of_mem hmem
    have hnone : ((none : Option Trail).bind (closing location allowDirs · last)) = none := rfl
    rw [Bool.or_self] at hslashed hreduce ⊢
    rw [hfollow, hnone, isNormal_none, hreduce]
    simp only [hrefused, hslashed, hstack, Option.some.injEq, reduceCtorEq, Bool.false_eq_true,
      and_false, or_false, not_true_eq_false, false_and, forall_const]
  | kept hkeeps hrefused hfollow hstuck =>
    rw [hfollow, Option.bind_some, isNormal_stuck hstuck hslash]
    simp only [hrefused, hkeeps, not_true_eq_false, false_and, and_false, or_false, false_or,
      and_or_left]

/-! ### Texts -/

/-- A form that has a text, which does not end with a dot, apart from that of a `..`. -/
structure Spelled (f : Form) : Prop where
  clean : f.Clean
  text_ne_nil : f.text ≠ []
  last : f.last = parent ∨ f.last.getLast? ≠ some '.'

theorem spelled_dirForm (lead : Bool) {names : List Name} (h : Trail.Clean ⟨lead, names⟩) :
    Spelled (dirForm lead names) := by
  unfold dirForm
  split_ifs with hempty
  · refine ⟨⟨fun name hname => ?_, nofun⟩, by decide, .inr nofun⟩
    rw [List.mem_singleton.mp hname]
    decide
  · refine ⟨⟨h, List.not_mem_nil⟩, ?_, .inr nofun⟩
    have htext := form_text ⟨lead, names⟩ []
    rw [List.append_nil] at htext
    rw [htext]
    exact fun hnil => hempty (Trail.text_nil.mp hnil)

theorem spelled_last {f : Form} (hclean : f.Clean) (hlast : f.last ≠ [])
    (hdot : f.last = parent ∨ f.last.getLast? ≠ some '.') : Spelled f :=
  ⟨hclean, fun hnil => hlast (List.append_eq_nil_iff.mp hnil).2, hdot⟩

theorem closing_spelled {f : Form} (hclean : t.Clean) (hslash : '/' ∉ last)
    (h : closing location allowDirs t last = some f) : Spelled f := by
  unfold closing at h
  cases allowDirs with
  | false =>
    rw [if_pos rfl] at h
    split_ifs at h with hend
    cases h
    exact spelled_last ⟨hclean, hslash⟩ (not_or.mp hend).1 (.inr (not_or.mp hend).2)
  | true =>
    rw [if_neg (by decide)] at h
    by_cases hnil : last = []
    · rw [if_pos hnil] at h
      split_ifs at h
      · cases h
        exact spelled_dirForm false nofun
      · cases h
        exact spelled_dirForm t.lead hclean
    rw [if_neg hnil] at h
    by_cases hdot : last = ['.']
    · rw [if_pos hdot] at h
      cases h
      exact spelled_dirForm t.lead hclean
    rw [if_neg hdot] at h
    by_cases hparent : last = parent
    · subst hparent
      rw [if_pos rfl] at h
      obtain ⟨lead, _ | ⟨top, before⟩⟩ := t
      · cases lead with
        | true => cases h
        | false =>
          cases h
          exact spelled_dirForm false (Trail.Clean.push (t := ⟨false, []⟩) nofun hnil hslash)
      · dsimp only at h
        split_ifs at h
        · cases h
          exact spelled_last ⟨hclean, hslash⟩ hnil (.inl rfl)
        · cases h
          exact spelled_dirForm lead fun name hname => hclean name (List.mem_cons_of_mem _ hname)
    rw [if_neg hparent] at h
    split_ifs at h with hend
    · cases h
      exact ⟨⟨hclean.push hnil hslash, List.not_mem_nil⟩, by simp [Form.text], .inr nofun⟩
    · cases h
      exact spelled_last ⟨hclean, hslash⟩ hnil (.inr hend)

/-- The names of a reduced path are taken as they are. -/
theorem follow_reduced (h : Reduced (absolute || s) stack) :
    follow s ((if absolute then [[]] else []) ++ stack.reverse) = some ⟨absolute, stack⟩ := by
  induction stack with
  | nil => cases absolute <;> cases s <;> rfl
  | cons name stack ih =>
    rw [List.reverse_cons, ← List.append_assoc, follow_concat, ih h.tail, Option.bind_some]
    cases h with
    | parents hopen hparents =>
      obtain ⟨rfl, rfl⟩ := Bool.or_eq_false_iff.mp hopen
      rcases stack with _ | ⟨top, before⟩
      · rfl
      · obtain rfl := hparents top List.mem_cons_self
        rw [enterIn_parent_cons, if_pos (sticks_parent false before)]
    | name hplain _ => exact enterIn_plain hplain.ne_nil hplain.ne_dot hplain.ne_parent

/-- The text of a path in normal form is left as it is. -/
theorem normalize_normal {f : Form} (hspelled : Spelled f)
    (h : Normal absolute (absolute || s) allowDirs f) : normalize f.text s allowDirs = f.text := by
  have hnames := names_text hspelled.clean
  rw [normalize_eq s allowDirs hspelled.text_ne_nil hnames]
  have hhead : f.lead = true → f.text.head? ≠ some '.' := by
    intro hlead
    simp [Form.text, hlead]
  cases h with
  | @dir stack hallow hstack =>
    subst hallow
    by_cases hempty : absolute = false ∧ stack = []
    · obtain ⟨rfl, rfl⟩ := hempty
      cases s <;> rfl
    · have hform : dirForm absolute stack = ⟨absolute, stack, []⟩ := if_neg hempty
      rw [hform] at hhead ⊢
      rw [follow_reduced hstack, Option.bind_some, closing, if_neg (by decide), if_pos rfl,
        if_neg fun hpatch => hhead hpatch.1 hpatch.2.2, hform]
      rfl
  | @up before hallow hstack =>
    subst hallow
    rw [follow_reduced hstack, Option.bind_some, closing, if_neg (by decide), if_neg (by rintro ⟨⟩),
      if_neg (by rintro ⟨⟩), if_pos rfl]
    dsimp only
    rw [if_pos (sticks_parent absolute before)]
    rfl
  | @file stack name hname hstack =>
    rw [follow_reduced hstack, Option.bind_some, closing]
    have hend := hspelled.last.resolve_left hname.ne_parent
    cases allowDirs with
    | false =>
      rw [if_pos rfl, if_neg (not_or.mpr ⟨hname.ne_nil, hend⟩)]
      rfl
    | true =>
      rw [if_neg (by decide), if_neg hname.ne_nil, if_neg hname.ne_dot, if_neg hname.ne_parent,
        if_neg hend]
      rfl

/-! ### All texts -/

def isAbsolute (location : List Char) : Bool := location.head? = some '/'

/-- The text is the normal form of a path; nothing is made of an empty one. -/
def IsNormalised (location : List Char) (inScopeOnly allowDirs : Bool) (result : List Char) :
    Prop :=
  if location = [] then result = []
  else ∃ f, IsNormal (isAbsolute location) (isAbsolute location || inScopeOnly) allowDirs
    (names location).dropLast ((names location).getLastD []) f ∧ result = spell f

/-- A path is normalised: no access fails, the loop ends, the text is the normal form, and it is its
own one. -/
def Normalises (location : List Char) (inScopeOnly allowDirs : Bool) : Prop :=
  ∃ result, normalize? location inScopeOnly allowDirs = some result ∧
    IsNormalised location inScopeOnly allowDirs result ∧
    normalize? result inScopeOnly allowDirs = some result

theorem Track.append (h : Track absolute s ns) (more : List Name) :
    Track absolute s (ns ++ more) := by
  induction more generalizing ns with
  | nil => rwa [List.append_nil]
  | cons name more ih =>
    rw [List.append_cons]
    exact ih (h.concat name)

theorem track_nil (s : Bool) : Track false s [] :=
  .along behind_nil (iff_of_false (by decide) (not_or.mpr ⟨by decide, behind_nil⟩)) rfl rfl

theorem track_slash (s : Bool) : Track true s [[]] := by
  refine .along ?_ (iff_of_true rfl (.inl rfl)) rfl (by cases s <;> rfl)
  rw [← List.nil_append [[]], keeps_concat, not_or]
  exact ⟨behind_nil, fun h => absurd h.1 (by decide)⟩

theorem track_names (s : Bool) (hnames : names location = ns ++ [last]) :
    Track (isAbsolute location) s ns := by
  unfold isAbsolute
  by_cases hslash : location.head? = some '/'
  · obtain ⟨rest, hrest, hsplit⟩ := head_eq_slash_iff.mp hslash
    obtain ⟨more, last', rfl⟩ := (List.eq_nil_or_concat' rest).resolve_left hrest
    rw [hsplit, ← List.cons_append] at hnames
    obtain ⟨rfl, -⟩ := List.append_inj' hnames rfl
    rw [decide_eq_true hslash]
    exact (track_slash s).append more
  · rw [decide_eq_false hslash]
    exact (track_nil s).append ns

theorem spell_inj {f f' : Option Form} (hf : ∀ g, f = some g → Spelled g)
    (hf' : ∀ g, f' = some g → g.Clean ∧ g.text ≠ []) (h : spell f = spell f') : f = f' := by
  cases f with
  | none =>
    cases f' with
    | none => rfl
    | some g' => exact absurd h.symm (hf' g' rfl).2
  | some g =>
    cases f' with
    | none => exact absurd h (hf g rfl).text_ne_nil
    | some g' => exact congrArg some (text_inj (hf g rfl).clean (hf' g' rfl).1 h)

theorem Normal.clean {f : Form} (h : Normal absolute closed allowDirs f) :
    f.Clean ∧ f.text ≠ [] := by
  cases h with
  | dir _ hstack =>
    have hspelled := spelled_dirForm absolute hstack.names_ne
    exact ⟨hspelled.clean, hspelled.text_ne_nil⟩
  | up _ hstack =>
    have hparent : '/' ∉ parent := by decide
    exact ⟨⟨hstack.names_ne, hparent⟩, by simp [Form.text]⟩
  | file hname hstack =>
    exact ⟨⟨hstack.names_ne, hname.no_slash⟩, by simp [Form.text, hname.ne_nil]⟩

/-- A path is normalised exactly when the names that lead elsewhere are not there. -/
theorem normalises_iff (location : List Char) (inScopeOnly allowDirs : Bool) :
    Normalises location inScopeOnly allowDirs ↔ location = [] ∨
      Meets (isAbsolute location) inScopeOnly allowDirs location (names location).dropLast
        ((names location).getLastD []) := by
  unfold Normalises IsNormalised
  by_cases hlocation : location = []
  · subst hlocation
    exact iff_of_true ⟨[], rfl, by rw [if_pos rfl], rfl⟩ (.inl rfl)
  obtain ⟨ns, last, hnames⟩ := (List.eq_nil_or_concat' (names location)).resolve_left
    (names_ne_nil location)
  have hdrop : (names location).dropLast = ns := by rw [hnames, List.dropLast_concat]
  have hlast : (names location).getLastD [] = last := by rw [hnames, List.getLastD_concat]
  have hslash : ∀ name ∈ ns ++ [last], '/' ∉ name := hnames ▸ names_no_slash location
  have habsolute : isAbsolute location = true → location.head? ≠ some '.' := by
    intro h hdot
    rw [isAbsolute, hdot] at h
    exact absurd h (by decide)
  have hresult := normalize_eq inScopeOnly allowDirs hlocation hnames
  have hiff := isNormal_iff allowDirs (track_names inScopeOnly hnames) hslash habsolute
  have hspelled : ∀ f, (follow inScopeOnly ns).bind (closing location allowDirs · last) = some f →
      Spelled f := by
    intro f hf
    obtain ⟨t, ht, hclosing⟩ := Option.bind_eq_some_iff.mp hf
    exact closing_spelled (follow_clean (fun name hname =>
      hslash name (List.mem_append_left _ hname)) ht) (hslash last (by simp)) hclosing
  rw [hdrop, hlast, or_iff_right hlocation, ← hiff]
  simp only [normalize?_eq, Option.some.injEq, if_neg hlocation]
  constructor
  · rintro ⟨_, rfl, ⟨f, hf, htext⟩, -⟩
    rw [hresult] at htext
    have hsame := spell_inj hspelled
      (fun g hg => (normal_of_isNormal hslash (hg ▸ hf)).clean) htext
    rw [hsame]
    exact hf
  · intro hnormal
    refine ⟨_, rfl, ⟨_, hnormal, hresult⟩, ?_⟩
    rw [hresult]
    cases hform : (follow inScopeOnly ns).bind (closing location allowDirs · last) with
    | none => rfl
    | some f =>
      exact normalize_normal (hspelled f hform) (normal_of_isNormal hslash (hform ▸ hnormal))

/-- The text as it is returned for a name that is kept: the path is that of `x`. -/
theorem not_normalises_kept : ¬Normalises ['.', 'a', '/', '.', '.', '/', 'x'] false false := by
  rintro ⟨result, hresult, hnormal, -⟩
  have hkept : normalize? ['.', 'a', '/', '.', '.', '/', 'x'] false false =
      some ['.', 'a', '/', '.', '.', '/', 'x'] := by decide
  cases hkept.symm.trans hresult
  rw [IsNormalised, if_neg nofun] at hnormal
  obtain ⟨f, hf, htext⟩ := hnormal
  have hform : f = some ⟨false, [], ['x']⟩ := hf
  rw [hform] at htext
  revert htext
  decide

/-! ### What a normal form is good for -/

end Thunder.Core.File
