import Thunder.Core.FileSystem
import Thunder.Library.PathForm

/-! The text that `File::Normalize` returns, for all texts: what the names of the path lead to, and
what is made of the end. -/

namespace Thunder.Core.File

open Thunder.Path

/-! ### The text behind the loop -/

/-- A name with a slash behind it, with and without `inScopeOnly`. -/
def Trail.enterIn (inScopeOnly : Bool) (t : Trail) (name : Name) : Option Trail :=
  if inScopeOnly = false ∧ t.lead = false ∧ t.names = [] ∧ name = parent then some ⟨false, [parent]⟩
  else t.enter name

/-- Where nothing is left in front of a slash that ends the text, a dot is left. -/
def textOf (t : Trail) (last : Name) : List Char :=
  if t.text = [] ∧ last = [] then ['.', '/'] else t.text ++ last

def finalText (inScopeOnly : Bool) : Trail → List Name → List Char
  | _, [] => []
  | t, [last] => textOf t last
  | t, name :: next :: rest =>
    (t.enterIn inScopeOnly name).elim [] (finalText inScopeOnly · (next :: rest))

variable {s : Bool} {t : Trail} {cur rest : List Char} {name : Name} {more : List Name} {fuel : Nat}

theorem finalText_cons (h : more ≠ []) :
    finalText s t (name :: more) = (t.enterIn s name).elim [] (finalText s · more) := by
  obtain ⟨next, rest, rfl⟩ := List.exists_cons_of_ne_nil h
  rfl

theorem enterIn_of_ne (h : name ≠ parent) : t.enterIn s name = t.enter name :=
  if_neg fun hc => h hc.2.2.2

theorem enterIn_of_names (h : t.names ≠ []) : t.enterIn s name = t.enter name :=
  if_neg fun hc => h hc.2.2.1

theorem textOf_of_ne_nil (h : t.text ≠ [] ∨ cur ≠ []) : textOf t cur = t.text ++ cur :=
  if_neg fun hc => h.elim (fun h => h hc.1) fun h => h hc.2

theorem loop_dot_front :
    loop s (fuel + 1) ('.' :: '/' :: rest) 1 =
      if rest = [] then ['.', '/'] else loop s fuel rest 0 := by
  split_ifs with hrest
  · subst hrest
    have hturn : turn s ['.', '/'] 1 = (['.', '/'], 2) := rfl
    rw [loop_turn (by decide) hturn]
    exact loop_end
  · exact loop_turn (by simp) (turn_dot_front hrest)

/-- Behind a dot in front, or what has become one, the loop is at the rest of the text. -/
theorem loop_dot_text
    (hnext : rest ≠ [] → loop s fuel rest 0 = finalText s ⟨false, []⟩ (names rest)) :
    loop s (fuel + 1) ('.' :: '/' :: rest) 1 = finalText s ⟨false, []⟩ (names rest) := by
  rw [loop_dot_front]
  split_ifs with hrest
  · subst hrest
    rw [names_plain (by simp)]
    rfl
  · exact hnext hrest

/-- A `..` in front of the loop. -/
theorem loop_up_text (hclean : t.Clean)
    (hnext : ∀ {t' : Trail} {fuel' : Nat}, t'.Clean → fuel ≤ fuel' → t'.text ++ rest ≠ [] →
      loop s fuel' (t'.text ++ rest) t'.text.length = finalText s t' (names rest)) :
    loop s (fuel + 1 + 1) (t.text ++ parent ++ '/' :: rest) (t.text ++ parent).length =
      (t.enterIn s parent).elim [] (finalText s · (names rest)) := by
  obtain ⟨lead, _ | ⟨top, before⟩⟩ := t
  · cases lead with
    | true =>
      have henter : Trail.enterIn s ⟨true, []⟩ parent = none := if_neg (by simp)
      rw [henter]
      exact (loop_turn (by simp) turn_up_lead).trans (loop_nil s 4)
    | false =>
      cases s with
      | true => exact (loop_turn (by simp) turn_up_front).trans (loop_nil true 3)
      | false =>
        have hturn : turn false ('.' :: '.' :: '/' :: rest) 2 =
            ('.' :: '.' :: '/' :: rest, 3) := rfl
        have hup : Trail.Clean ⟨false, [parent]⟩ := by
          intro name hname
          rw [List.mem_singleton.mp hname]
          decide
        exact (loop_turn (by simp) hturn).trans
          (hnext hup (Nat.le_succ fuel) (by simp [Trail.text]))
  · have htop := hclean top List.mem_cons_self
    have hbefore : Trail.Clean ⟨lead, before⟩ := fun name hname =>
      hclean name (List.mem_cons_of_mem _ hname)
    have hclean' : Trail.Clean ⟨lead, parent :: top :: before⟩ := hclean.push (by simp) (by decide)
    have htext : Trail.text ⟨lead, top :: before⟩ = Trail.text ⟨lead, before⟩ ++ top ++ ['/'] :=
      Trail.text_push (t := ⟨lead, before⟩)
    have hpush := hnext hclean' (Nat.le_succ fuel)
    rw [Trail.text_push (t := ⟨lead, top :: before⟩), htext] at hpush
    have hturn := turn_up (s := s) (b := rest) (Trail.text_last ⟨lead, before⟩) htop.1 htop.2
    have hsticks : sticks lead before top = true ↔ top.head? = some '.' ∨
        Trail.text ⟨lead, before⟩ = [] ∧ top[1]? = some '.' := by
      rw [sticks, decide_eq_true_eq, Trail.text_nil, and_assoc]
    have henter : Trail.enterIn s ⟨lead, top :: before⟩ parent = some ⟨lead,
        if sticks lead before top then parent :: top :: before else before⟩ :=
      enterIn_of_names (List.cons_ne_nil top before)
    have hindex : (Trail.text ⟨lead, before⟩).length + top.length + 3 <
        (Trail.text ⟨lead, before⟩ ++ top ++ '/' :: '.' :: '.' :: '/' :: rest).length := by
      simp only [List.length_append, List.length_cons]
      omega
    have hwhole : Trail.text ⟨lead, before⟩ ++ top ++ ['/'] ++ parent ++ '/' :: rest =
        Trail.text ⟨lead, before⟩ ++ top ++ '/' :: '.' :: '.' :: '/' :: rest := by simp
    have hat : (Trail.text ⟨lead, before⟩ ++ top ++ ['/'] ++ parent).length =
        (Trail.text ⟨lead, before⟩).length + top.length + 3 := by
      simp only [List.length_append, List.length_cons, List.length_nil]
    rw [henter, Option.elim_some, htext, hwhole, hat]
    by_cases hstick : top.head? = some '.' ∨ Trail.text ⟨lead, before⟩ = [] ∧ top[1]? = some '.'
    · rw [if_pos hstick] at hturn
      rw [if_pos (hsticks.mpr hstick), loop_turn hindex hturn]
      have hrest := hpush (by simp)
      simp only [List.append_assoc, List.cons_append, List.nil_append, List.length_append,
        List.length_cons, List.length_nil] at hrest ⊢
      exact hrest
    · rw [if_neg hstick] at hturn
      rw [if_neg fun h => hstick (hsticks.mp h)]
      by_cases hempty : Trail.text ⟨lead, before⟩ = []
      · rw [if_pos hempty] at hturn
        obtain ⟨rfl, rfl⟩ := Trail.text_nil.mp hempty
        rw [loop_turn hindex hturn]
        exact loop_dot_text fun hrest => hnext hbefore (Nat.le_refl fuel) hrest
      · rw [if_neg hempty] at hturn
        rw [loop_turn hindex hturn]
        exact hnext hbefore (Nat.le_succ fuel) (by simp [hempty])

/-- The loop leaves the text that its names lead to; by induction on what is in front of it. -/
theorem loop_text (hclean : t.Clean) (hplain : '/' ∉ cur) (hfuel : 2 * rest.length ≤ fuel)
    (hsome : t.text ++ cur ++ rest ≠ []) :
    loop s fuel (t.text ++ cur ++ rest) (t.text ++ cur).length =
      finalText s t (names (cur ++ rest)) := by
  induction rest generalizing t cur fuel with
  | nil =>
    rw [List.append_nil] at hsome
    rw [List.append_nil, List.append_nil, loop_end, names_plain hplain]
    refine (textOf_of_ne_nil ?_).symm
    by_contra hnil
    rw [not_or, not_not, not_not] at hnil
    rw [hnil.1, hnil.2] at hsome
    exact hsome rfl
  | cons c rest ih =>
    have hlt : (t.text ++ cur).length < (t.text ++ cur ++ c :: rest).length := by
      simp only [List.length_append, List.length_cons]
      omega
    rw [List.length_cons] at hfuel
    obtain ⟨fuel, rfl⟩ : ∃ n, fuel = n + 1 + 1 := ⟨fuel - 2, by omega⟩
    -- Behind a slash the loop is at a new name.
    have hnext : ∀ {t' : Trail} {fuel' : Nat}, t'.Clean → fuel ≤ fuel' → t'.text ++ rest ≠ [] →
        loop s fuel' (t'.text ++ rest) t'.text.length = finalText s t' (names rest) := by
      intro t' fuel' hclean' hle hsome'
      have h := @ih t' [] fuel' hclean' (by simp) (by omega) (by rwa [List.append_nil])
      rwa [List.append_nil, List.nil_append] at h
    by_cases hc : c = '/'
    swap
    · have h := @ih t (cur ++ [c]) (fuel + 1) hclean (by simp [hplain, Ne.symm hc]) (by omega)
        (by simp)
      rw [loop_turn hlt (turn_char hc)]
      simpa [Nat.add_assoc] using h
    subst hc
    rw [names_slash, names_plain hplain, List.singleton_append, finalText_cons (names_ne_nil rest)]
    by_cases hempty : cur = []
    · subst hempty
      rw [List.append_nil, enterIn_of_ne (by decide)]
      rcases t.text_last with hnil | hlast
      · obtain ⟨hlead, hnames⟩ := Trail.text_nil.mp hnil
        have henter : t.enter [] = some ⟨true, []⟩ := by
          rw [Trail.enter, if_pos rfl, if_pos hnames, hnames]
        rw [hnil, henter]
        exact (loop_turn (by simp) turn_lead).trans
          (@hnext ⟨true, []⟩ _ (by rintro _ ⟨⟩) (Nat.le_succ fuel) (by simp [Trail.text]))
      · have henter : t.enter [] = some t := by
          rw [Trail.enter, if_pos rfl]
          split_ifs with hnames
          · obtain ⟨lead, names⟩ := t
            cases lead with
            | true => rfl
            | false => rw [Trail.text_nil.mpr ⟨rfl, hnames⟩] at hlast; cases hlast
          · rfl
        obtain ⟨text, htext⟩ := List.getLast?_eq_some_iff.mp hlast
        have hrest := hnext hclean (Nat.le_succ fuel) (by simp [htext])
        rw [henter, htext, List.append_assoc, List.singleton_append, List.length_append,
          List.length_singleton, loop_turn (by simp) turn_slash]
        rw [htext, List.append_assoc, List.length_append] at hrest
        exact hrest
    by_cases hdot : cur = ['.']
    · subst hdot
      have henter : t.enter ['.'] = some t := rfl
      rw [enterIn_of_ne (by decide), henter]
      rcases t.text_last with hnil | hlast
      · obtain ⟨hlead, hnames⟩ := Trail.text_nil.mp hnil
        obtain ⟨lead, names⟩ := t
        cases hlead
        cases hnames
        exact loop_dot_text fun hrest => hnext hclean (Nat.le_succ fuel) hrest
      · obtain ⟨text, htext⟩ := List.getLast?_eq_some_iff.mp hlast
        have hrest := hnext hclean (Nat.le_succ fuel) (by simp [htext])
        rw [htext, List.append_assoc, List.length_append] at hrest
        have hturn := turn_dot (s := s) (a := text) (b := rest)
        rw [htext] at hlt ⊢
        simp only [List.append_assoc, List.cons_append, List.nil_append, List.length_append,
          List.length_cons, List.length_nil, Nat.add_assoc, Nat.zero_add,
          Nat.reduceAdd] at hlt hrest ⊢
        rw [loop_turn (by simp only [List.length_append, List.length_cons]; omega) hturn]
        exact hrest
    by_cases hup : cur = parent
    · subst hup
      exact loop_up_text hclean hnext
    have hturn := turn_name (s := s) (a := t.text) (b := rest) hempty hplain hdot hup
    have hpush := hnext (hclean.push hempty hplain) (Nat.le_succ fuel)
      (by rw [Trail.text_push]; simp)
    rw [List.length_append, loop_turn (by simp) hturn, enterIn_of_ne hup]
    rw [Trail.text_push] at hpush
    simpa [Trail.enter, hempty, hdot, hup, Nat.add_assoc] using hpush

/-! ### The end of the text -/

/-- What is made of the names and what is behind them, if anything. -/
def closing (location : List Char) (allowDirs : Bool) (t : Trail) (last : Name) : Option Form :=
  if allowDirs = false then
    if last = [] ∨ last.getLast? = some '.' then none else some ⟨t.lead, t.names, last⟩
  else if last = [] then
    if t.lead = true ∧ t.names = [] ∧ location.head? = some '.' then some (dirForm false [])
    else some (dirForm t.lead t.names)
  else if last = ['.'] then some (dirForm t.lead t.names)
  else if last = parent then
    match t.names with
    | [] => if t.lead then none else some ⟨false, [parent], []⟩
    | top :: before =>
      if sticks t.lead before top then some ⟨t.lead, t.names, parent⟩
      else some (dirForm t.lead before)
  else if last.getLast? = some '.' then some ⟨t.lead, last :: t.names, []⟩
  else some ⟨t.lead, t.names, last⟩

/-- The text of a path, or none. -/
def spell (f : Option Form) : List Char := f.elim [] Form.text

variable {location result : List Char} {last : Name}

theorem form_text (t : Trail) (last : Name) : Form.text ⟨t.lead, t.names, last⟩ = t.text ++ last :=
  rfl

theorem textOf_nil (t : Trail) : textOf t [] = (dirForm t.lead t.names).text := by
  unfold textOf dirForm
  simp only [Trail.text_nil, and_true]
  split_ifs
  · rfl
  · exact (form_text t []).symm

theorem charAt_zero (s : List Char) (c : Char) (hc : c ≠ '\x00') :
    charAt s 0 = c ↔ s.head? = some c := by
  cases s with
  | nil => exact iff_of_false (fun h => hc h.symm) (by simp)
  | cons c' s => exact ⟨congrArg some, Option.some.inj⟩

theorem lastPart_slash (hlast : result.getLast? = some '/') :
    lastPart location result true =
      if result = ['/'] ∧ location.head? = some '.' then ['.', '/'] else result := by
  obtain ⟨text, rfl⟩ := List.getLast?_eq_some_iff.mp hlast
  have hat : charAt (text ++ ['/']) ((text ++ ['/']).length - 1) = '/' := charAt_at (by simp)
  rw [lastPart]
  dsimp only
  rw [if_pos (by simp), hat, if_pos rfl, if_neg (by decide)]
  refine if_congr ?_ rfl rfl
  rw [charAt_zero location '.' (by decide)]
  constructor
  · rintro ⟨hlength, -, hhead⟩
    have htext : text = [] := by simpa using hlength
    exact ⟨by rw [htext]; rfl, hhead⟩
  · rintro ⟨htext, hhead⟩
    rw [htext]
    exact ⟨rfl, rfl, hhead⟩

theorem lastPart_dot (text : List Char) :
    lastPart location (text ++ ['/', '.']) true = text ++ ['/'] := by
  have hlength : (text ++ ['/', '.']).length = text.length + 2 := by simp
  have hat : charAt (text ++ ['/', '.']) (text.length + 2 - 1) = '.' := by
    rw [List.append_cons]
    exact charAt_at (by simp)
  have hslash : charAt (text ++ ['/', '.']) (text.length + 2 - 2) = '/' := charAt_at rfl
  have herase := erase_middle (a := text ++ ['/']) (b := []) ['.'] (k := text.length + 1)
    (by simp) (n := 1) rfl
  simp only [List.append_assoc, List.cons_append, List.nil_append, List.append_nil] at herase
  rw [lastPart]
  dsimp only
  rw [hlength, if_pos (by omega), hat, if_neg (by decide), if_pos rfl, if_neg (by decide), hslash,
    if_pos ⟨by omega, rfl⟩]
  exact herase

/-- A `..` behind a name ends the text. -/
theorem lastPart_up (location : List Char) {text top : List Char}
    (htext : text = [] ∨ text.getLast? = some '/') (htop : top ≠ []) (hplain : '/' ∉ top) :
    lastPart location (text ++ top ++ ['/', '.', '.']) true =
      if top.head? = some '.' ∨ text = [] ∧ top[1]? = some '.' then text ++ top ++ ['/', '.', '.']
      else if text = [] then ['.', '/'] else text := by
  have hpos : 0 < top.length := List.length_pos_iff.mpr htop
  have hlength : (text ++ top ++ ['/', '.', '.']).length = text.length + top.length + 3 := by
    simp [Nat.add_assoc]
  have hat : charAt (text ++ top ++ ['/', '.', '.']) (text.length + top.length + 3 - 1) = '.' := by
    rw [List.append_cons, List.append_cons]
    exact charAt_at (by simp; omega)
  have hat' : charAt (text ++ top ++ ['/', '.', '.']) (text.length + top.length + 3 - 2) = '.' := by
    rw [List.append_cons]
    exact charAt_at (by simp; omega)
  have hslash : charAt (text ++ top ++ ['/', '.', '.']) (text.length + top.length + 3 - 3) = '/' :=
    charAt_at (by simp)
  have hback : backTo (text ++ top ++ ['/', '.', '.']) (text.length + top.length + 3 - 4) =
      text.length - 1 := by
    rw [show text.length + top.length + 3 - 4 = text.length + (top.length - 1) by omega]
    exact backTo_name htext hplain (by omega)
  have hsticks := charAt_backTo (b := ['.', '.']) htext htop hplain
  rw [lastPart]
  dsimp only
  rw [hlength, if_pos (by omega), hat, if_neg (by decide), if_pos rfl, if_neg (by decide), hat',
    if_neg (by simp), hslash, if_pos ⟨by omega, rfl, rfl⟩, if_neg (by omega), hback]
  by_cases hstick : top.head? = some '.' ∨ text = [] ∧ top[1]? = some '.'
  · rw [if_neg fun h => hsticks.mp h hstick, if_pos hstick]
  · rw [if_pos (hsticks.mpr hstick), if_neg hstick]
    rcases htext with rfl | hlast
    · have hfirst : charAt ([] ++ top ++ ['/', '.', '.']) 0 ≠ '/' := by
        rw [List.nil_append, charAt_append hpos]
        exact fun h => hplain (h ▸ List.getElem_mem _)
      rw [List.length_nil, if_neg hfirst, if_pos rfl, List.take_zero, if_pos ⟨rfl, rfl⟩]
    · obtain ⟨front, rfl⟩ := List.getLast?_eq_some_iff.mp hlast
      have hfirst : charAt (front ++ ['/'] ++ top ++ ['/', '.', '.'])
          ((front ++ ['/']).length - 1) = '/' := by
        rw [List.append_assoc, List.append_assoc]
        exact charAt_at (by simp)
      have htake : (front ++ ['/'] ++ top ++ ['/', '.', '.']).take
          ((front ++ ['/']).length - 1 + 1) = front ++ ['/'] := by
        rw [Nat.sub_add_cancel (by simp), List.append_assoc, List.take_left]
      rw [if_pos hfirst, htake, if_neg (by simp), if_neg (by simp)]

/-- Another name that ends with a dot. -/
theorem lastPart_name (hplain : '/' ∉ last) (hlast : last.getLast? = some '.') (hdot : last ≠ ['.'])
    (hup : last ≠ parent) (text : List Char) :
    lastPart location (text ++ last) true = text ++ last ++ ['/'] := by
  obtain ⟨init, rfl⟩ := List.getLast?_eq_some_iff.mp hlast
  obtain ⟨init, c, rfl⟩ := (List.eq_nil_or_concat' init).resolve_left fun h => hdot (by rw [h]; rfl)
  have hlength : (text ++ (init ++ [c] ++ ['.'])).length = text.length + init.length + 2 := by
    simp only [List.length_append, List.length_cons, List.length_nil]
    omega
  have hwhole : text ++ (init ++ [c] ++ ['.']) = (text ++ init) ++ c :: ['.'] := by simp
  have hat : charAt (text ++ (init ++ [c] ++ ['.'])) (text.length + init.length + 2 - 1) = '.' := by
    rw [hwhole, List.append_cons]
    exact charAt_at (by simp; omega)
  have hat' : charAt (text ++ (init ++ [c] ++ ['.'])) (text.length + init.length + 2 - 2) = c := by
    rw [hwhole]
    exact charAt_at (by simp)
  have hc : c ≠ '/' := by
    rintro rfl
    exact hplain (by simp)
  have hthird : ¬(3 ≤ text.length + init.length + 2 ∧ c = '.' ∧
      charAt (text ++ (init ++ [c] ++ ['.'])) (text.length + init.length + 2 - 3) = '/') := by
    rintro ⟨-, rfl, h⟩
    obtain ⟨init, d, rfl⟩ :=
      (List.eq_nil_or_concat' init).resolve_left fun h => hup (by rw [h]; rfl)
    have hd : text ++ (init ++ [d] ++ ['.'] ++ ['.']) = (text ++ init) ++ d :: ['.', '.'] := by simp
    rw [hd, charAt_at (by simp)] at h
    exact hplain (by simp [h])
  rw [lastPart]
  dsimp only
  rw [hlength, if_pos (by omega), hat, if_neg (by decide), if_pos rfl, if_neg (by decide), hat',
    if_neg fun h => hc h.2, if_neg hthird]

theorem lastPart_ends {allowDirs : Bool} (h : ends result = true) :
    lastPart location result allowDirs = result := by
  rw [ends, decide_eq_true_eq] at h
  obtain ⟨hne, hslash, hdot⟩ := h
  obtain ⟨init, c, rfl⟩ := (List.eq_nil_or_concat' result).resolve_left hne
  rw [List.getLast?_concat, Option.some_inj.ne] at hslash hdot
  have hat : charAt (init ++ [c]) ((init ++ [c]).length - 1) = c := charAt_at (by simp)
  rw [lastPart]
  dsimp only
  rw [if_pos (by simp), hat, if_neg hslash, if_neg hdot]

theorem lastPart_file (location result : List Char) :
    lastPart location result false = if ends result then result else [] := by
  rcases List.eq_nil_or_concat' result with rfl | ⟨init, c, rfl⟩
  · rfl
  · have hat : charAt (init ++ [c]) ((init ++ [c]).length - 1) = c := charAt_at (by simp)
    rw [lastPart]
    dsimp only
    rw [if_pos (by simp), hat]
    simp only [if_true, ends, List.getLast?_concat]
    split_ifs with hslash hdot hends hends hends <;> simp_all

theorem Trail.text_cons (lead : Bool) (name : Name) (names : List Name) :
    Trail.text ⟨lead, name :: names⟩ = Trail.text ⟨lead, names⟩ ++ name ++ ['/'] :=
  Trail.text_push (t := ⟨lead, names⟩)

theorem spell_dirForm (lead : Bool) (names : List Name) :
    spell (some (dirForm lead names)) =
      if Trail.text ⟨lead, names⟩ = [] then ['.', '/'] else Trail.text ⟨lead, names⟩ := by
  have h := textOf_nil ⟨lead, names⟩
  rw [textOf] at h
  simp only [and_true, List.append_nil] at h
  exact h.symm

theorem text_eq_slash_iff (hclean : t.Clean) :
    (if t.text = [] then ['.', '/'] else t.text) = ['/'] ↔ t.lead = true ∧ t.names = [] := by
  obtain ⟨lead, _ | ⟨name, names⟩⟩ := t
  · cases lead <;> decide
  · refine iff_of_false ?_ (by simp)
    have hname := (hclean name List.mem_cons_self).1
    have hpos := List.length_pos_of_ne_nil hname
    rw [Trail.text_cons, if_neg (by simp)]
    intro h
    have hlength := congrArg List.length h
    simp only [List.length_append, List.length_cons, List.length_nil] at hlength
    omega

theorem ends_textOf (hlast : '/' ∉ last) :
    ends (textOf t last) = true ↔ ¬(last = [] ∨ last.getLast? = some '.') := by
  rcases List.eq_nil_or_concat' last with rfl | ⟨init, c, rfl⟩
  · refine iff_of_false ?_ (by simp)
    unfold textOf
    rcases t.text_last with hnil | hslash
    · rw [if_pos ⟨hnil, rfl⟩]
      decide
    · simp [ends, hslash, show t.text ≠ [] from fun h => by simp [h] at hslash]
  · have hc : c ≠ '/' := by
      rintro rfl
      exact hlast (by simp)
    rw [textOf_of_ne_nil (.inr (by simp))]
    simp [ends, ← List.append_assoc, hc]

theorem lastPart_textOf (location : List Char) (allowDirs : Bool) (hclean : t.Clean)
    (hlast : '/' ∉ last) :
    lastPart location (textOf t last) allowDirs = spell (closing location allowDirs t last) := by
  unfold closing
  cases allowDirs with
  | false =>
    rw [lastPart_file, if_pos rfl]
    by_cases hend : last = [] ∨ last.getLast? = some '.'
    · rw [if_neg fun h => (ends_textOf hlast).mp h hend, if_pos hend]
      rfl
    · rw [if_pos ((ends_textOf hlast).mpr hend), if_neg hend]
      exact textOf_of_ne_nil (.inr (not_or.mp hend).1)
  | true =>
    rw [if_neg (by decide)]
    by_cases hnil : last = []
    · subst hnil
      have htext := textOf_nil t
      have hslash : (textOf t []).getLast? = some '/' := by
        unfold textOf
        rcases t.text_last with hempty | hslash
        · rw [if_pos ⟨hempty, rfl⟩]
          rfl
        · rw [List.append_nil]
          split_ifs
          · rfl
          · exact hslash
      have hwhole : textOf t [] = if t.text = [] then ['.', '/'] else t.text := by
        simp [textOf]
      rw [lastPart_slash hslash, if_pos rfl, hwhole]
      simp only [text_eq_slash_iff hclean, and_assoc]
      split_ifs with hpatch hempty
      · rfl
      · rw [spell_dirForm, if_pos hempty]
      · rw [spell_dirForm, if_neg hempty]
    rw [if_neg hnil]
    by_cases hdot : last = ['.']
    · subst hdot
      rw [if_pos rfl, textOf_of_ne_nil (.inr hnil), spell_dirForm]
      rcases t.text_last with hempty | hslash
      · rw [hempty, if_pos rfl]
        rfl
      · obtain ⟨text, htext⟩ := List.getLast?_eq_some_iff.mp hslash
        rw [if_neg (by simp [htext]), htext, List.append_assoc]
        exact lastPart_dot text
    rw [if_neg hdot]
    by_cases hup : last = parent
    · subst hup
      rw [if_pos rfl, textOf_of_ne_nil (.inr hnil)]
      obtain ⟨lead, _ | ⟨top, before⟩⟩ := t
      · cases lead <;> rfl
      · have htop := hclean top List.mem_cons_self
        have hsticks : sticks lead before top = true ↔ top.head? = some '.' ∨
            Trail.text ⟨lead, before⟩ = [] ∧ top[1]? = some '.' := by
          rw [sticks, decide_eq_true_eq, Trail.text_nil, and_assoc]
        have hend := lastPart_up location (Trail.text_last ⟨lead, before⟩) htop.1 htop.2
        have hwhole : Trail.text ⟨lead, before⟩ ++ top ++ ['/'] ++ parent =
            Trail.text ⟨lead, before⟩ ++ top ++ ['/', '.', '.'] := by simp
        dsimp only
        rw [Trail.text_cons, hwhole, hend]
        by_cases hstick : sticks lead before top = true
        · rw [if_pos (hsticks.mp hstick), if_pos hstick, ← hwhole, ← Trail.text_cons]
          rfl
        · rw [if_neg fun h => hstick (hsticks.mpr h), if_neg hstick, spell_dirForm]
    rw [if_neg hup]
    split_ifs with hend
    · rw [textOf_of_ne_nil (.inr hnil), lastPart_name hlast hend hdot hup, ← Trail.text_cons]
      exact (List.append_nil _).symm
    · rw [lastPart_ends ((ends_textOf hlast).mpr (not_or.mpr ⟨hnil, hend⟩))]
      exact textOf_of_ne_nil (.inr hnil)

/-! ### The whole function -/

/-- The names are taken one after another. -/
def follow (inScopeOnly : Bool) (ns : List Name) : Option Trail :=
  ns.foldlM (Trail.enterIn inScopeOnly) ⟨false, []⟩

variable {ns : List Name}

theorem follow_concat (ns : List Name) (name : Name) :
    follow s (ns ++ [name]) = (follow s ns).bind (·.enterIn s name) := by
  rw [follow, List.foldlM_append]
  change (follow s ns).bind _ = _
  cases follow s ns with
  | none => rfl
  | some t =>
    change (t.enterIn s name).bind some = _
    rw [Option.bind_some, Option.bind_fun_some]

theorem finalText_eq (t : Trail) (ns : List Name) (last : Name) :
    finalText s t (ns ++ [last]) = (ns.foldlM (Trail.enterIn s) t).elim [] (textOf · last) := by
  induction ns generalizing t with
  | nil => rfl
  | cons name ns ih =>
    rw [List.cons_append, finalText_cons (by simp), List.foldlM_cons]
    cases t.enterIn s name with
    | none => rfl
    | some t' => exact ih t'

theorem Trail.Clean.enterIn {t' : Trail} (h : t.Clean) (hname : '/' ∉ name)
    (henter : t.enterIn s name = some t') : t'.Clean := by
  unfold Trail.enterIn at henter
  split_ifs at henter
  · cases henter
    intro other hother
    rw [List.mem_singleton.mp hother]
    decide
  unfold Trail.enter at henter
  split_ifs at henter with hnil hnames hdot hup
  · cases henter
    exact h
  · cases henter
    exact h
  · cases henter
    exact h
  · obtain ⟨lead, _ | ⟨top, before⟩⟩ := t
    · cases henter
    · cases henter
      have hbefore : Trail.Clean ⟨lead, before⟩ :=
        fun other hother => h other (List.mem_cons_of_mem _ hother)
      dsimp only
      split_ifs
      · exact h.push hnil hname
      · exact hbefore
  · cases henter
    exact h.push hnil hname

theorem follow_clean (hslash : ∀ name ∈ ns, '/' ∉ name) (h : follow s ns = some t) : t.Clean := by
  induction ns using List.reverseRecOn generalizing t with
  | nil =>
    cases h
    exact nofun
  | append_singleton ns name ih =>
    rw [follow_concat] at h
    obtain ⟨t', ht', henter⟩ := Option.bind_eq_some_iff.mp h
    exact (ih (fun other hother => hslash other (List.mem_append_left _ hother)) ht').enterIn
      (hslash name (by simp)) henter

/-- What `Normalize` returns: the names in front of the last one are taken, then the end. -/
theorem normalize_eq (inScopeOnly allowDirs : Bool) (hlocation : location ≠ [])
    (hnames : names location = ns ++ [last]) :
    normalize location inScopeOnly allowDirs =
      spell ((follow inScopeOnly ns).bind (closing location allowDirs · last)) := by
  have hslash : ∀ name ∈ ns ++ [last], '/' ∉ name := hnames ▸ names_no_slash location
  have hloop := @loop_text inScopeOnly ⟨false, []⟩ [] location _ nofun (by simp) (Nat.le_refl _)
    (by simpa [Trail.text] using hlocation)
  rw [List.nil_append, hnames, finalText_eq] at hloop
  rw [normalize, if_pos hlocation]
  change lastPart location (loop inScopeOnly (2 * location.length)
    (Trail.text ⟨false, []⟩ ++ [] ++ location) (Trail.text ⟨false, []⟩ ++ []).length) allowDirs = _
  rw [hloop]
  change lastPart location ((follow inScopeOnly ns).elim [] (textOf · last)) allowDirs = _
  cases hfollow : follow inScopeOnly ns with
  | none => rfl
  | some t =>
    have hclean : t.Clean :=
      follow_clean (fun name hname => hslash name (List.mem_append_left _ hname)) hfollow
    exact lastPart_textOf location allowDirs hclean (hslash last (by simp))

end Thunder.Core.File
