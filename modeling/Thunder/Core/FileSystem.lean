import Thunder.Library.Path
import Mathlib.Tactic.SplitIfs

/-! `File::Normalize`: the text of a path, rewritten in place. -/

namespace Thunder.Core.File

open Thunder.Path

/-- A character of a string; the one behind the last is NUL. -/
def charAt (s : List Char) (index : Nat) : Char := s.getD index '\x00'

def erase (s : List Char) (position count : Nat) : List Char :=
  s.take position ++ s.drop (position + count)

/-- From an offset back to a slash, or to the front. -/
def backTo (result : List Char) : Nat → Nat
  | 0 => 0
  | offset + 1 => if charAt result (offset + 1) ≠ '/' then backTo result offset else offset + 1

/-- A turn of the loop, with the increment of the index behind it.  An index of a dot in front goes
below zero before that, and is 0 again. -/
def turn (inScopeOnly : Bool) (result : List Char) (index : Nat) : List Char × Nat :=
  if charAt result index = '/' ∧ 1 ≤ index then
    if charAt result (index - 1) = '/' then (erase result index 1, index)
    else if charAt result (index - 1) = '.' then
      if index = 1 ∨ charAt result (index - 2) = '/' then
        if result.length ≠ 2 then
          (erase result (index - if index = 1 then 1 else 2) 2, index - 1)
        else (result, index + 1)
      else if charAt result (index - 2) = '.' ∧ (index = 2 ∨ charAt result (index - 3) = '/') then
        if index = 2 then (if inScopeOnly then [] else result, index + 1)
        else if index = 3 then ([], index + 1)
        else
          let offset := backTo result (index - 4)
          if charAt result offset ≠ '.' ∧ charAt result (offset + 1) ≠ '.' then
            (erase result (offset + if charAt result offset = '/' then 1 else 0)
              (index - offset - if charAt result offset = '/' then 0 else 1), offset + 1)
          else (result, index + 1)
      else (result, index + 1)
    else (result, index + 1)
  else (result, index + 1)

def loop (inScopeOnly : Bool) : Nat → List Char → Nat → List Char
  | 0, result, _ => result
  | fuel + 1, result, index =>
    if index < result.length then
      loop inScopeOnly fuel (turn inScopeOnly result index).1 (turn inScopeOnly result index).2
    else result

/-- What is done about the end of the text behind the loop. -/
def lastPart (location result : List Char) (allowDirs : Bool) : List Char :=
  let length := result.length
  if 1 ≤ length then
    if charAt result (length - 1) = '/' then
      if allowDirs = false then []
      else if length = 1 ∧ charAt result 0 = '/' ∧ charAt location 0 = '.' then ['.', '/']
      else result
    else if charAt result (length - 1) = '.' then
      if allowDirs = false then []
      else if 2 ≤ length ∧ charAt result (length - 2) = '/' then erase result (length - 1) 1
      else if 3 ≤ length ∧ charAt result (length - 2) = '.' ∧ charAt result (length - 3) = '/' then
        if length = 3 then []
        else
          let offset := backTo result (length - 4)
          if charAt result offset ≠ '.' ∧ charAt result (offset + 1) ≠ '.' then
            let kept := result.take (offset + if charAt result offset = '/' then 1 else 0)
            if kept = [] ∧ allowDirs = true then ['.', '/'] else kept
          else result
      else result ++ ['/']
    else result
  else result

/-- Each character costs at most two turns. -/
def normalize (location : List Char) (inScopeOnly allowDirs : Bool) : List Char :=
  if location ≠ [] then
    lastPart location (loop inScopeOnly (2 * location.length) location 0) allowDirs
  else location

/-! ### The names that the loop has behind it -/

/-- Whether the text begins with a slash, and the names, the last one first. -/
structure Trail where
  lead : Bool
  names : List Name

/-- A name that a `..` behind it does not remove: it begins with a dot, or it is the first of the
text and the second character is a dot. -/
def sticks (lead : Bool) (before : List Name) (name : Name) : Bool :=
  name.head? = some '.' ∨ (lead = false ∧ before = [] ∧ name[1]? = some '.')

/-- A name with a slash behind it. -/
def Trail.enter (t : Trail) (name : Name) : Option Trail :=
  if name = [] then some (if t.names = [] then { t with lead := true } else t)
  else if name = ['.'] then some t
  else if name = ['.', '.'] then
    match t.names with
    | [] => none
    | top :: before =>
      some { t with names := if sticks t.lead before top then name :: t.names else before }
  else some { t with names := name :: t.names }

/-- The names are taken one after another; the last one is neither empty nor does it end with a
dot. -/
def accepts : Trail → List Name → Bool
  | _, [] => false
  | _, [last] => last ≠ [] ∧ last.getLast? ≠ some '.'
  | t, name :: next :: rest => (t.enter name).elim false (accepts · (next :: rest))

/-- A `..` on the way is kept, as what it should remove is. -/
def keepsUp : Trail → List Name → Bool
  | _, [] => false
  | _, [_] => false
  | t, name :: next :: rest =>
    (name = ['.', '.'] ∧ ∃ top ∈ t.names.head?, sticks t.lead t.names.tail top) ∨
      (t.enter name).elim false (keepsUp · (next :: rest))

def Trail.text (t : Trail) : List Char :=
  (if t.lead then ['/'] else []) ++ t.names.reverse.flatMap (· ++ ['/'])

/-- The names of a trail have characters, and no slash. -/
def Trail.Clean (t : Trail) : Prop := ∀ name ∈ t.names, name ≠ [] ∧ '/' ∉ name

/-! ### The turns -/

section

variable {s : Bool} {a b cur top : List Char} {c : Char} {k : Nat}

theorem charAt_at (h : k = a.length) : charAt (a ++ c :: b) k = c := by
  rw [charAt, List.getD_eq_getElem?_getD, h, List.getElem?_append_right (Nat.le_refl _),
    Nat.sub_self]
  rfl

theorem charAt_append (h : k < a.length) : charAt (a ++ b) k = a[k] := by
  rw [charAt, List.getD_eq_getElem?_getD, List.getElem?_append_left h, List.getElem?_eq_getElem h]
  rfl

theorem erase_middle (mid : List Char) (hk : k = a.length) {n : Nat} (hn : n = mid.length) :
    erase (a ++ mid ++ b) k n = a ++ b := by
  rw [erase, hk, hn, List.append_assoc, List.take_left, ← List.length_append,
    ← List.append_assoc, List.drop_left]

theorem turn_char (h : c ≠ '/') : turn s (a ++ c :: b) a.length = (a ++ c :: b, a.length + 1) := by
  rw [turn, charAt_at rfl, if_neg fun hc => h hc.1]

theorem turn_lead : turn s ('/' :: b) 0 = ('/' :: b, 1) := by
  rw [turn, if_neg fun hc => absurd hc.2 (by decide)]

theorem turn_slash :
    turn s (a ++ '/' :: '/' :: b) (a.length + 1) = (a ++ '/' :: b, a.length + 1) := by
  have hat : charAt (a ++ '/' :: '/' :: b) (a.length + 1) = '/' := by
    rw [List.append_cons]
    exact charAt_at (by simp)
  rw [turn, hat, if_pos ⟨rfl, by omega⟩, Nat.add_sub_cancel, charAt_at rfl, if_pos rfl]
  have herase := erase_middle (a := a ++ ['/']) (b := b) ['/'] (k := a.length + 1)
    (by simp) (n := 1) rfl
  simp only [List.append_assoc, List.cons_append, List.nil_append] at herase
  rw [herase]

theorem turn_dot_front (h : b ≠ []) : turn s ('.' :: '/' :: b) 1 = (b, 0) := by
  have hlength : ('.' :: '/' :: b).length ≠ 2 := by simpa using h
  have hat : charAt ('.' :: '/' :: b) (1 - 1) = '.' := rfl
  rw [turn, if_pos ⟨rfl, by decide⟩, hat, if_neg (by decide), if_pos rfl, if_pos (.inl rfl),
    if_pos hlength]
  rfl

theorem turn_dot :
    turn s (a ++ '/' :: '.' :: '/' :: b) (a.length + 2) = (a ++ '/' :: b, a.length + 1) := by
  have hat : charAt (a ++ '/' :: '.' :: '/' :: b) (a.length + 2) = '/' := by
    rw [List.append_cons, List.append_cons]
    exact charAt_at (by simp)
  have hdot : charAt (a ++ '/' :: '.' :: '/' :: b) (a.length + 2 - 1) = '.' := by
    rw [List.append_cons]
    exact charAt_at (by simp)
  have hlength : (a ++ '/' :: '.' :: '/' :: b).length ≠ 2 := by
    simp only [List.length_append, List.length_cons]
    omega
  rw [turn, if_pos ⟨hat, by omega⟩, hdot, if_neg (by decide), if_pos rfl,
    if_pos (.inr (charAt_at rfl)), if_pos hlength, if_neg (by omega)]
  have herase := erase_middle (a := a) (b := '/' :: b) ['/', '.'] (k := a.length) rfl
    (n := 2) rfl
  simp only [List.append_assoc, List.cons_append, List.nil_append] at herase
  rw [Nat.add_sub_cancel, herase]
  rfl

theorem turn_up_front : turn true ('.' :: '.' :: '/' :: b) 2 = ([], 3) := rfl

theorem turn_up_lead : turn s ('/' :: '.' :: '.' :: '/' :: b) 3 = ([], 4) := rfl

/-- A name that ends with a character other than a dot stays. -/
theorem turn_name (hcur : cur ≠ []) (hplain : '/' ∉ cur) (hdot : cur ≠ ['.'])
    (hup : cur ≠ ['.', '.']) : turn s (a ++ cur ++ '/' :: b) (a.length + cur.length) =
      (a ++ cur ++ '/' :: b, a.length + cur.length + 1) := by
  have hat : charAt (a ++ cur ++ '/' :: b) (a.length + cur.length) = '/' :=
    charAt_at (by rw [List.length_append])
  have hpos : 0 < cur.length := List.length_pos_iff.mpr hcur
  obtain ⟨init, c, rfl⟩ := (List.eq_nil_or_concat' cur).resolve_left hcur
  have hc : charAt (a ++ (init ++ [c]) ++ '/' :: b) (a.length + (init ++ [c]).length - 1) = c := by
    rw [← List.append_assoc, List.append_assoc _ [c]]
    exact charAt_at (by simp)
  have hcplain : c ≠ '/' := by
    rintro rfl
    exact hplain (by simp)
  rw [turn, hat, if_pos ⟨rfl, by omega⟩, hc, if_neg hcplain]
  by_cases hcdot : c = '.'
  · subst hcdot
    rw [if_pos rfl]
    have hinit : init ≠ [] := fun h => hdot (by rw [h]; rfl)
    obtain ⟨init, c', rfl⟩ := (List.eq_nil_or_concat' init).resolve_left hinit
    have hc' : charAt (a ++ (init ++ [c'] ++ ['.']) ++ '/' :: b)
        (a.length + (init ++ [c'] ++ ['.']).length - 2) = c' := by
      have htext : a ++ (init ++ [c'] ++ ['.']) ++ '/' :: b =
          (a ++ init) ++ c' :: '.' :: '/' :: b := by simp
      rw [htext]
      exact charAt_at (by simp; omega)
    have hplain' : c' ≠ '/' := by
      rintro rfl
      exact hplain (by simp)
    have hindex : a.length + (init ++ [c'] ++ ['.']).length ≠ 1 := by
      simp only [List.length_append, List.length_singleton]
      omega
    rw [hc', if_neg (not_or.mpr ⟨hindex, hplain'⟩), if_neg]
    rintro ⟨rfl, hthird⟩
    have hinit' : init ≠ [] := fun h => hup (by rw [h]; rfl)
    obtain ⟨init, d, rfl⟩ := (List.eq_nil_or_concat' init).resolve_left hinit'
    rcases hthird with hthird | hthird
    · simp only [List.length_append, List.length_singleton] at hthird
      omega
    · have hd : charAt (a ++ (init ++ [d] ++ ['.'] ++ ['.']) ++ '/' :: b)
          (a.length + (init ++ [d] ++ ['.'] ++ ['.']).length - 3) = d := by
        have htext : a ++ (init ++ [d] ++ ['.'] ++ ['.']) ++ '/' :: b =
            (a ++ init) ++ d :: '.' :: '.' :: '/' :: b := by simp
        rw [htext]
        exact charAt_at (by simp; omega)
      rw [hd] at hthird
      exact hplain (by simp [hthird])
  · rw [if_neg hcdot]

/-- Back over a name to the slash before it, or to the front. -/
theorem backTo_name (ha : a = [] ∨ a.getLast? = some '/') (hplain : '/' ∉ top)
    (hk : k < top.length) : backTo (a ++ top ++ b) (a.length + k) = a.length - 1 := by
  have hstop : backTo (a ++ top ++ b) (a.length - 1) = a.length - 1 := by
    rcases ha with rfl | hlast
    · rfl
    · obtain ⟨text, rfl⟩ := List.getLast?_eq_some_iff.mp hlast
      have hat : charAt (text ++ ['/'] ++ top ++ b) text.length = '/' := by
        rw [List.append_assoc, List.append_assoc]
        exact charAt_at rfl
      rw [List.length_append, List.length_singleton, Nat.add_sub_cancel]
      cases hlength : text.length with
      | zero => rfl
      | succ n =>
        rw [← hlength, backTo.eq_def, hlength]
        rw [hlength] at hat
        simp only [hat, ne_eq, not_true_eq_false, if_false]
  have hback : ∀ i, i < top.length →
      backTo (a ++ top ++ b) (a.length + i) = backTo (a ++ top ++ b) (a.length + i - 1) := by
    intro i hi
    have hat : charAt (a ++ top ++ b) (a.length + i) ≠ '/' := by
      rw [charAt_append (by rw [List.length_append]; omega),
        List.getElem_append_right (Nat.le_add_right _ _)]
      exact fun h => hplain (h ▸ List.getElem_mem _)
    cases hn : a.length + i with
    | zero => rfl
    | succ n =>
      rw [backTo, ← hn, if_pos hat, hn, Nat.add_sub_cancel]
  induction k with
  | zero => exact (hback 0 hk).trans hstop
  | succ k ih => exact (hback (k + 1) hk).trans (ih (Nat.lt_of_succ_lt hk))

/-- The two characters that are looked at there. -/
theorem charAt_backTo (ha : a = [] ∨ a.getLast? = some '/') (htop : top ≠ []) (hplain : '/' ∉ top) :
    (charAt (a ++ top ++ '/' :: b) (a.length - 1) ≠ '.' ∧
      charAt (a ++ top ++ '/' :: b) (a.length - 1 + 1) ≠ '.') ↔
        ¬ (top.head? = some '.' ∨ a = [] ∧ top[1]? = some '.') := by
  obtain ⟨first, more, rfl⟩ := List.exists_cons_of_ne_nil htop
  have hhead : (first :: more).head? = some '.' ↔ first = '.' := ⟨Option.some.inj, congrArg some⟩
  rw [hhead, not_or]
  rcases ha with rfl | hlast
  · refine and_congr_right fun _ => not_congr ?_
    cases more with
    | nil => exact iff_of_false (by simp [charAt]) (by simp)
    | cons second more =>
      exact ⟨fun h => ⟨rfl, congrArg some h⟩, fun h => Option.some.inj h.2⟩
  · obtain ⟨text, rfl⟩ := List.getLast?_eq_some_iff.mp hlast
    have hslash : charAt (text ++ ['/'] ++ (first :: more) ++ '/' :: b)
        ((text ++ ['/']).length - 1) = '/' := by
      rw [List.append_assoc, List.append_assoc]
      exact charAt_at (by simp)
    have hnext : charAt (text ++ ['/'] ++ (first :: more) ++ '/' :: b)
        ((text ++ ['/']).length - 1 + 1) = first := by
      rw [List.append_assoc]
      exact charAt_at (by simp)
    rw [hslash, hnext]
    exact ⟨fun h => ⟨h.2, fun h' => absurd h'.1 (by simp)⟩, fun h => ⟨by decide, h.1⟩⟩

/-- A `..` behind a name, of the text or of what begins with a slash. -/
theorem turn_up (ha : a = [] ∨ a.getLast? = some '/') (htop : top ≠ []) (hplain : '/' ∉ top) :
    turn s (a ++ top ++ '/' :: '.' :: '.' :: '/' :: b) (a.length + top.length + 3) =
      if top.head? = some '.' ∨ a = [] ∧ top[1]? = some '.' then
        (a ++ top ++ '/' :: '.' :: '.' :: '/' :: b, a.length + top.length + 4)
      else if a = [] then ('.' :: '/' :: b, 1)
      else (a ++ b, a.length) := by
  have hpos : 0 < top.length := List.length_pos_iff.mpr htop
  have hat : charAt (a ++ top ++ '/' :: '.' :: '.' :: '/' :: b)
    (a.length + top.length + 3) = '/' := by
    rw [List.append_cons, List.append_cons, List.append_cons]
    exact charAt_at (by simp [Nat.add_assoc])
  have hdot : charAt (a ++ top ++ '/' :: '.' :: '.' :: '/' :: b)
      (a.length + top.length + 3 - 1) = '.' := by
    rw [List.append_cons, List.append_cons]
    exact charAt_at (by simp [Nat.add_assoc])
  have hdot' : charAt (a ++ top ++ '/' :: '.' :: '.' :: '/' :: b)
      (a.length + top.length + 3 - 2) = '.' := by
    rw [List.append_cons]
    exact charAt_at (by simp; omega)
  have hslash : charAt (a ++ top ++ '/' :: '.' :: '.' :: '/' :: b)
      (a.length + top.length + 3 - 3) = '/' := charAt_at (by simp)
  have hback : backTo (a ++ top ++ '/' :: '.' :: '.' :: '/' :: b)
      (a.length + top.length + 3 - 4) = a.length - 1 := by
    rw [show a.length + top.length + 3 - 4 = a.length + (top.length - 1) by omega]
    exact backTo_name ha hplain (by omega)
  rw [turn, if_pos ⟨hat, by omega⟩, hdot, if_neg (by decide), if_pos rfl, hdot',
    if_neg (not_or.mpr ⟨by omega, by decide⟩), if_pos ⟨rfl, .inr hslash⟩, if_neg (by omega),
    if_neg (by omega)]
  dsimp only
  rw [hback]
  have hsticks := charAt_backTo (b := '.' :: '.' :: '/' :: b) ha htop hplain
  by_cases hstick : top.head? = some '.' ∨ a = [] ∧ top[1]? = some '.'
  · rw [if_neg fun h => hsticks.mp h hstick, if_pos hstick]
  · rw [if_pos (hsticks.mpr hstick), if_neg hstick]
    rcases ha with rfl | hlast
    · have hfirst : charAt ([] ++ top ++ '/' :: '.' :: '.' :: '/' :: b) 0 ≠ '/' := by
        rw [List.nil_append, charAt_append hpos]
        exact fun h => hplain (h ▸ List.getElem_mem _)
      have herase := erase_middle (a := []) (b := '.' :: '/' :: b) (top ++ ['/', '.'])
        (k := 0) rfl (n := top.length + 2) (by simp)
      simp only [List.nil_append, List.append_assoc, List.cons_append] at herase
      rw [List.length_nil, if_neg hfirst, if_neg hfirst, if_pos rfl, Nat.add_zero,
        show 0 + top.length + 3 - (0 - 1) - 1 = top.length + 2 by omega, List.nil_append, herase]
    · obtain ⟨text, rfl⟩ := List.getLast?_eq_some_iff.mp hlast
      have hat' : charAt (text ++ ['/'] ++ top ++ '/' :: '.' :: '.' :: '/' :: b)
          ((text ++ ['/']).length - 1) = '/' := by
        rw [List.append_assoc, List.append_assoc]
        exact charAt_at (by simp)
      have herase := erase_middle (a := text ++ ['/']) (b := b) (top ++ ['/', '.', '.', '/'])
        (k := text.length + 1) (by simp) (n := top.length + 4) (by simp)
      simp only [List.append_assoc, List.cons_append, List.nil_append] at herase
      rw [if_pos hat', if_pos hat', if_neg (by simp), List.length_append, List.length_singleton,
        Nat.add_sub_cancel, show text.length + 1 + top.length + 3 - text.length - 0 =
          top.length + 4 by omega]
      simp only [List.append_assoc, List.cons_append, List.nil_append, herase]

/-! ### The loop -/

section

variable {t : Trail} {cur rest : List Char} {name : Name} {more : List Name} {fuel : Nat}

theorem Trail.text_push :
    Trail.text { t with names := name :: t.names } = t.text ++ name ++ ['/'] := by
  simp [Trail.text]

theorem Trail.text_last (t : Trail) : t.text = [] ∨ t.text.getLast? = some '/' := by
  obtain ⟨lead, _ | ⟨name, names⟩⟩ := t
  · cases lead
    · exact .inl rfl
    · exact .inr rfl
  · rw [show (⟨lead, name :: names⟩ : Trail).text = _ from Trail.text_push (t := ⟨lead, names⟩)]
    exact .inr (List.getLast?_concat ..)

theorem Trail.text_nil : t.text = [] ↔ t.lead = false ∧ t.names = [] := by
  obtain ⟨lead, _ | ⟨name, names⟩⟩ := t
  · cases lead <;> simp [Trail.text]
  · simp [Trail.text]

theorem accepts_cons (h : more ≠ []) :
    accepts t (name :: more) = (t.enter name).elim false (accepts · more) := by
  obtain ⟨next, rest, rfl⟩ := List.exists_cons_of_ne_nil h
  rfl

/-- A text that does not end with a slash or a dot. -/
def ends (result : List Char) : Bool :=
  result ≠ [] ∧ result.getLast? ≠ some '/' ∧ result.getLast? ≠ some '.'

theorem loop_nil (s : Bool) (k : Nat) : loop s fuel [] k = [] := by
  cases fuel <;> rfl

theorem loop_turn {s : Bool} {result result' : List Char} {k k' : Nat} (hk : k < result.length)
    (hturn : turn s result k = (result', k')) :
    loop s (fuel + 1) result k = loop s fuel result' k' := by
  rw [loop, if_pos hk, hturn]

theorem loop_end {s : Bool} {result : List Char} : loop s fuel result result.length = result := by
  cases fuel with
  | zero => rfl
  | succ fuel => rw [loop, if_neg (Nat.lt_irrefl _)]

theorem ends_dot_front :
    ends (loop true (fuel + 1) ('.' :: '/' :: rest) 1) = ends (loop true fuel rest 0) := by
  by_cases hrest : rest = []
  · subst hrest
    have hturn : turn true ['.', '/'] 1 = (['.', '/'], 2) := rfl
    rw [loop_turn (by decide) hturn, loop_nil true]
    exact (congrArg ends loop_end).trans (by decide : ends ['.', '/'] = ends [])
  · rw [loop_turn (by simp) (turn_dot_front hrest)]

theorem ends_text (hplain : '/' ∉ cur) : ends (t.text ++ cur) = accepts t [cur] := by
  rcases List.eq_nil_or_concat' cur with rfl | ⟨init, c, rfl⟩
  · rw [List.append_nil]
    rcases t.text_last with hnil | hlast
    · rw [hnil]
      rfl
    · simp [ends, accepts, hlast]
  · have hc : c ≠ '/' := by
      rintro rfl
      exact hplain (by simp)
    simp [ends, accepts, ← List.append_assoc, hc]

theorem Trail.Clean.push (h : t.Clean) (hname : name ≠ []) (hplain : '/' ∉ name) :
    Trail.Clean { t with names := name :: t.names } := by
  rintro other hother
  rcases List.mem_cons.mp hother with rfl | hother
  · exact ⟨hname, hplain⟩
  · exact h other hother

/-- A `..` in front of the loop, where the rest is accepted exactly when its names are. -/
theorem loop_up (hclean : t.Clean)
    (hlt : (t.text ++ ['.', '.']).length < (t.text ++ ['.', '.'] ++ '/' :: rest).length)
    (hnext : ∀ {t' : Trail}, t'.Clean →
      ends (loop true (fuel + 1) (t'.text ++ rest) t'.text.length) = accepts t' (names rest))
    (hnext' : ∀ {t' : Trail}, t'.Clean →
      ends (loop true fuel (t'.text ++ rest) t'.text.length) = accepts t' (names rest)) :
    ends (loop true (fuel + 1 + 1) (t.text ++ ['.', '.'] ++ '/' :: rest)
        (t.text ++ ['.', '.']).length) =
      (t.enter ['.', '.']).elim false (accepts · (names rest)) := by
  obtain ⟨lead, _ | ⟨top, before⟩⟩ := t
  · cases lead with
    | false => exact congrArg ends ((loop_turn hlt turn_up_front).trans (loop_nil true 3))
    | true => exact congrArg ends ((loop_turn hlt turn_up_lead).trans (loop_nil true 4))
  · have htop := hclean top List.mem_cons_self
    have hbefore : Trail.Clean ⟨lead, before⟩ := fun name hname =>
      hclean name (List.mem_cons_of_mem _ hname)
    have hclean' : Trail.Clean ⟨lead, ['.', '.'] :: top :: before⟩ :=
      hclean.push (by simp) (by simp)
    have hpush := hnext hclean'
    rw [Trail.text_push (t := ⟨lead, top :: before⟩)] at hpush
    have htext : Trail.text ⟨lead, top :: before⟩ = Trail.text ⟨lead, before⟩ ++ top ++ ['/'] :=
      Trail.text_push (t := ⟨lead, before⟩)
    have hturn := turn_up (s := true) (b := rest) (Trail.text_last ⟨lead, before⟩) htop.1 htop.2
    have hsticks : sticks lead before top = true ↔ top.head? = some '.' ∨
        Trail.text ⟨lead, before⟩ = [] ∧ top[1]? = some '.' := by
      rw [sticks, decide_eq_true_eq, Trail.text_nil, and_assoc]
    have henter : Trail.enter ⟨lead, top :: before⟩ ['.', '.'] = some ⟨lead,
        if sticks lead before top then ['.', '.'] :: top :: before else before⟩ := rfl
    rw [henter, Option.elim_some]
    have hrest := hnext hbefore
    have hrest' := hnext' hbefore
    rw [htext] at hpush hlt ⊢
    generalize Trail.text ⟨lead, before⟩ = text at *
    simp only [List.append_assoc, List.cons_append, List.nil_append, List.length_append,
      List.length_cons, List.length_nil, Nat.add_assoc, Nat.zero_add, Nat.reduceAdd] at *
    have hindex : text.length + (top.length + 3) <
        (text ++ (top ++ '/' :: '.' :: '.' :: '/' :: rest)).length := by
      simp only [List.length_append, List.length_cons]
      omega
    by_cases hstick : top.head? = some '.' ∨ text = [] ∧ top[1]? = some '.'
    · rw [if_pos hstick] at hturn
      rw [if_pos (hsticks.mpr hstick), loop_turn hindex hturn]
      exact hpush
    · rw [if_neg hstick] at hturn
      rw [if_neg fun h => hstick (hsticks.mp h)]
      by_cases hempty : text = []
      · subst hempty
        rw [if_pos rfl] at hturn
        rw [loop_turn hindex hturn, ends_dot_front]
        exact hrest'
      · rw [if_neg hempty] at hturn
        rw [loop_turn hindex hturn]
        exact hrest

/-- The text is accepted exactly when its names are; by induction on what is in front of the loop.
-/
theorem loop_accepts (hclean : t.Clean) (hplain : '/' ∉ cur) (hfuel : 2 * rest.length ≤ fuel) :
    ends (loop true fuel (t.text ++ cur ++ rest) (t.text ++ cur).length) =
      accepts t (names (cur ++ rest)) := by
  induction rest generalizing t cur fuel with
  | nil =>
    rw [List.append_nil, List.append_nil, loop_end, names_plain hplain, ends_text hplain]
  | cons c rest ih =>
    have hlt : (t.text ++ cur).length < (t.text ++ cur ++ c :: rest).length := by
      simp only [List.length_append, List.length_cons]
      omega
    rw [List.length_cons] at hfuel
    obtain ⟨fuel, rfl⟩ : ∃ n, fuel = n + 1 + 1 := ⟨fuel - 2, by omega⟩
    -- Behind a slash the loop is at a new name.
    have hnext : ∀ {t' : Trail} {fuel' : Nat}, t'.Clean → fuel ≤ fuel' →
        ends (loop true fuel' (t'.text ++ rest) t'.text.length) = accepts t' (names rest) := by
      intro t' fuel' hclean' hle
      have h := @ih t' [] fuel' hclean' (by simp) (by omega)
      rwa [List.append_nil, List.nil_append] at h
    by_cases hc : c = '/'
    · subst hc
      rw [names_slash, names_plain hplain, List.singleton_append, accepts_cons (names_ne_nil rest)]
      by_cases hempty : cur = []
      · subst hempty
        rw [List.append_nil]
        rcases t.text_last with hnil | hlast
        · obtain ⟨hlead, hnames⟩ := Trail.text_nil.mp hnil
          have henter : t.enter [] = some ⟨true, []⟩ := by
            rw [Trail.enter, if_pos rfl, if_pos hnames, hnames]
          rw [hnil, henter]
          exact (congrArg ends (loop_turn (by simp) turn_lead)).trans
            (@hnext ⟨true, []⟩ _ nofun (Nat.le_succ fuel))
        · have henter : t.enter [] = some t := by
            rw [Trail.enter, if_pos rfl]
            split_ifs with hnames
            · obtain ⟨lead, names⟩ := t
              cases lead with
              | true => rfl
              | false => rw [Trail.text_nil.mpr ⟨rfl, hnames⟩] at hlast; cases hlast
            · rfl
          have hrest := hnext hclean (Nat.le_succ fuel)
          obtain ⟨text, htext⟩ := List.getLast?_eq_some_iff.mp hlast
          rw [henter, htext, List.append_assoc, List.singleton_append, List.length_append,
            List.length_singleton, loop_turn (by simp) turn_slash]
          rw [htext, List.append_assoc, List.length_append] at hrest
          exact hrest
      by_cases hdot : cur = ['.']
      · subst hdot
        have henter : t.enter ['.'] = some t := rfl
        rw [henter]
        rcases t.text_last with hnil | hlast
        · have hrest := hnext hclean (Nat.le_succ fuel)
          rw [hnil] at hrest ⊢
          have hdot : ends (loop true (fuel + 1 + 1) ('.' :: '/' :: rest) 1) = _ := ends_dot_front
          exact hdot.trans hrest
        · have hrest := hnext hclean (Nat.le_succ fuel)
          obtain ⟨text, htext⟩ := List.getLast?_eq_some_iff.mp hlast
          rw [htext, List.append_assoc, List.length_append] at hrest
          have hturn := turn_dot (s := true) (a := text) (b := rest)
          rw [htext] at hlt ⊢
          simp only [List.append_assoc, List.cons_append, List.nil_append, List.length_append,
            List.length_cons, List.length_nil, Nat.add_assoc, Nat.zero_add,
              Nat.reduceAdd] at hlt hrest ⊢
          rw [loop_turn (by simp only [List.length_append, List.length_cons]; omega) hturn]
          exact hrest
      by_cases hup : cur = ['.', '.']
      · subst hup
        exact loop_up hclean hlt (fun hclean' => hnext hclean' (Nat.le_succ fuel))
          (fun hclean' => hnext hclean' (Nat.le_refl fuel))
      have hturn := turn_name (s := true) (a := t.text) (b := rest) hempty hplain hdot hup
      have hpush := hnext (hclean.push hempty hplain) (Nat.le_succ fuel)
      rw [List.length_append, loop_turn (by simp) hturn]
      rw [Trail.text_push] at hpush
      simpa [Trail.enter, hempty, hdot, hup, Nat.add_assoc] using hpush
    · have h := @ih t (cur ++ [c]) (fuel + 1) hclean (by simp [hplain, Ne.symm hc]) (by omega)
      rw [loop_turn hlt (turn_char hc)]
      simpa [Nat.add_assoc] using h

theorem charAt_last {result : List Char} (h : result ≠ []) :
    result.getLast? = some (charAt result (result.length - 1)) := by
  obtain ⟨init, c, rfl⟩ := (List.eq_nil_or_concat' result).resolve_left h
  rw [List.getLast?_concat, charAt_at (by simp)]

theorem lastPart_ne_nil {location result : List Char} :
    lastPart location result false ≠ [] ↔ ends result = true := by
  rw [ends, decide_eq_true_eq, lastPart]
  by_cases hresult : result = []
  · subst hresult
    exact iff_of_false (fun h => h rfl) fun h => h.1 rfl
  · have hlength : 1 ≤ result.length := List.length_pos_iff.mpr hresult
    rw [charAt_last hresult, Option.some_inj.ne, Option.some_inj.ne]
    dsimp only
    rw [if_pos hlength]
    by_cases hslash : charAt result (result.length - 1) = '/'
    · rw [if_pos hslash, if_pos rfl]
      exact iff_of_false (fun h => h rfl) fun h => h.2.1 hslash
    · rw [if_neg hslash]
      by_cases hdot : charAt result (result.length - 1) = '.'
      · rw [if_pos hdot, if_pos rfl]
        exact iff_of_false (fun h => h rfl) fun h => h.2.2 hdot
      · rw [if_neg hdot]
        exact iff_of_true hresult ⟨hresult, hslash, hdot⟩

/-- What is not refused are the paths whose names are accepted. -/
theorem normalize_ne_nil {location : List Char} :
    normalize location true false ≠ [] ↔ accepts ⟨false, []⟩ (names location) = true := by
  have hloop := @loop_accepts ⟨false, []⟩ [] location _ nofun (by simp) (Nat.le_refl _)
  rw [List.nil_append] at hloop
  rw [normalize, ← hloop]
  split_ifs with hlocation
  · exact lastPart_ne_nil
  · rw [not_not.mp hlocation]
    exact iff_of_false (fun h => h rfl) (by decide)

/-- The names that are accepted, with no `..` kept on the way, lead to something below the names
that are there. -/
theorem walk_of_accepts (place : List Name) {more : List Name}
    (hnames : ∀ name ∈ t.names, name ≠ ['.', '.']) (haccepts : accepts t more = true)
    (hkeeps : keepsUp t more = false) :
    ∃ below, below ≠ [] ∧ walk (t.names ++ place) more = below ++ place := by
  induction more generalizing t with
  | nil => cases haccepts
  | cons name more ih =>
    cases more with
    | nil =>
      rw [accepts, decide_eq_true_eq] at haccepts
      refine ⟨name :: t.names, List.cons_ne_nil _ _, enter_name haccepts.1 ?_ ?_⟩
      · rintro rfl
        exact haccepts.2 rfl
      · rintro rfl
        exact haccepts.2 rfl
    | cons next rest =>
      rw [accepts] at haccepts
      rw [keepsUp, decide_eq_false_iff_not, not_or, Bool.not_eq_true] at hkeeps
      rw [walk_cons]
      by_cases hempty : name = []
      · have hnames' : ∀ other ∈ (if t.names = [] then { t with lead := true } else t).names,
            other ≠ ['.', '.'] := by
          split_ifs <;> exact hnames
        rw [Trail.enter, if_pos hempty] at haccepts hkeeps
        rw [enter_skip (.inl hempty)]
        have h := ih hnames' haccepts hkeeps.2
        split_ifs at h <;> exact h
      by_cases hdot : name = ['.']
      · rw [Trail.enter, if_neg hempty, if_pos hdot] at haccepts hkeeps
        rw [enter_skip (.inr hdot)]
        exact ih hnames haccepts hkeeps.2
      by_cases hup : name = ['.', '.']
      · subst hup
        obtain ⟨lead, _ | ⟨top, before⟩⟩ := t
        · cases haccepts
        · have hsticks : sticks lead before top = false := by
            rw [← Bool.not_eq_true]
            exact fun h => hkeeps.1 ⟨rfl, top, rfl, h⟩
          have henter : Trail.enter ⟨lead, top :: before⟩ ['.', '.'] = some ⟨lead, before⟩ := by
            rw [Trail.enter, if_neg hempty, if_neg hdot, if_pos rfl]
            simp only [hsticks, Bool.false_eq_true, if_false]
          rw [henter] at haccepts hkeeps
          exact ih (fun other hother => hnames other (List.mem_cons_of_mem _ hother)) haccepts
            hkeeps.2
      · rw [Trail.enter, if_neg hempty, if_neg hdot, if_neg hup] at haccepts hkeeps
        rw [enter_name hempty hdot hup]
        refine ih (fun other hother => ?_) haccepts hkeeps.2
        rcases List.mem_cons.mp hother with rfl | hother
        · exact hup
        · exact hnames other hother

end

end

end Thunder.Core.File
