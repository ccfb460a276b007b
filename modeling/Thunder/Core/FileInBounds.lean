import Thunder.Core.FileSystem

/-! `File::Normalize` with every access checked: an index outside the text, a subtraction below
zero, a removal behind the end and a loop that goes on are all failures, and there is none. -/

namespace Thunder.Core.File

/-- The character some places before an index, compared. -/
def is? (s : List Char) (index back : Nat) (c : Char) : Option Bool :=
  if back ≤ index ∧ index - back < s.length then some (charAt s (index - back) = c) else none

def both? (p q : Option Bool) : Option Bool := p.bind fun b => if b then q else some false

def either? (p q : Option Bool) : Option Bool := p.bind fun b => if b then some true else q

def erase? (s : List Char) (position count : Nat) : Option (List Char) :=
  if position ≤ s.length then some (erase s position count) else none

def backTo? (result : List Char) : Nat → Option Nat
  | 0 => some 0
  | offset + 1 => do
    if ← is? result (offset + 1) 0 '/' then return offset + 1
    backTo? result offset

/-- `(result[offset] != '.') && (result[offset + 1] != '.')` -/
def drops? (result : List Char) (offset : Nat) : Option Bool :=
  both? ((is? result offset 0 '.').map (!·)) ((is? result (offset + 1) 0 '.').map (!·))

def turn? (inScopeOnly : Bool) (result : List Char) (index : Nat) : Option (List Char × Nat) := do
  if ← both? (is? result index 0 '/') (some (1 ≤ index)) then
    if ← is? result index 1 '/' then return (← erase? result index 1, index)
    else if ← is? result index 1 '.' then
      if ← either? (some (index = 1)) (is? result index 2 '/') then
        if result.length ≠ 2 then
          return (← erase? result (index - if index = 1 then 1 else 2) 2, index - 1)
        else return (result, index + 1)
      else if ← both? (is? result index 2 '.')
          (either? (some (index = 2)) (is? result index 3 '/')) then
        if index = 2 then return (if inScopeOnly then [] else result, index + 1)
        else if index = 3 then return ([], index + 1)
        else if 4 ≤ index then
          let offset ← backTo? result (index - 4)
          if ← drops? result offset then
            let slash ← is? result offset 0 '/'
            return (← erase? result (offset + if slash then 1 else 0)
              (index - offset - if slash then 0 else 1), offset + 1)
          else return (result, index + 1)
        else none
      else return (result, index + 1)
    else return (result, index + 1)
  else return (result, index + 1)

/-- The index stays below a limit. -/
def loop? (inScopeOnly : Bool) (limit : Nat) : Nat → List Char → Nat → Option (List Char)
  | 0, result, index => if index < result.length then none else some result
  | fuel + 1, result, index =>
    if index < result.length then
      if index < limit then
        (turn? inScopeOnly result index).bind fun next =>
          loop? inScopeOnly limit fuel next.1 next.2
      else none
    else some result

def lastPart? (location result : List Char) (allowDirs : Bool) : Option (List Char) := do
  let length := result.length
  if 1 ≤ length then
    if ← is? result length 1 '/' then
      if allowDirs = false then return []
      else if ← both? (some (length = 1)) (both? (is? result 0 0 '/') (is? location 0 0 '.')) then
        return ['.', '/']
      else return result
    else if ← is? result length 1 '.' then
      if allowDirs = false then return []
      else if ← both? (some (2 ≤ length)) (is? result length 2 '/') then
        erase? result (length - 1) 1
      else if ← both? (some (3 ≤ length))
          (both? (is? result length 2 '.') (is? result length 3 '/')) then
        if length = 3 then return []
        else if 4 ≤ length then
          let offset ← backTo? result (length - 4)
          if ← drops? result offset then
            let slash ← is? result offset 0 '/'
            let kept := result.take (offset + if slash then 1 else 0)
            return if kept = [] ∧ allowDirs = true then ['.', '/'] else kept
          else return result
        else none
      else return result ++ ['/']
    else return result
  else return result

def normalize? (location : List Char) (inScopeOnly allowDirs : Bool) : Option (List Char) := do
  if location ≠ [] then
    let result ← loop? inScopeOnly location.length (2 * location.length) location 0
    lastPart? location result allowDirs
  else return location

/-! ### Nothing fails -/

section

variable {s result location : List Char} {inScopeOnly allowDirs : Bool} {index back offset : Nat}
  {position count : Nat} {c : Char} {p q : Prop} [Decidable p] [Decidable q] {q' : Option Bool}

theorem is?_eq (hback : back ≤ index) (hlt : index - back < s.length) :
    is? s index back c = some (decide (charAt s (index - back) = c)) := if_pos ⟨hback, hlt⟩

theorem isNot?_eq (hback : back ≤ index) (hlt : index - back < s.length) :
    (is? s index back c).map (!·) = some (decide (charAt s (index - back) ≠ c)) := by
  rw [is?_eq hback hlt, Option.map_some, decide_not]

theorem both?_eq (h : p → q' = some (decide q)) :
    both? (some (decide p)) q' = some (decide (p ∧ q)) := by
  by_cases hp : p
  · simp [both?, hp, h hp]
  · simp [both?, hp]

theorem either?_eq (h : ¬p → q' = some (decide q)) :
    either? (some (decide p)) q' = some (decide (p ∨ q)) := by
  by_cases hp : p
  · simp [either?, hp]
  · simp [either?, hp, h hp]

theorem erase?_eq (h : position ≤ s.length) :
    erase? s position count = some (erase s position count) :=
  if_pos h

theorem backTo_le (result : List Char) (offset : Nat) : backTo result offset ≤ offset := by
  induction offset with
  | zero => exact Nat.le_refl 0
  | succ offset ih =>
    rw [backTo]
    split_ifs
    · exact Nat.le_succ_of_le ih
    · exact Nat.le_refl _

theorem backTo_stop (result : List Char) (offset : Nat) :
    backTo result offset = 0 ∨ charAt result (backTo result offset) = '/' := by
  induction offset with
  | zero => exact .inl rfl
  | succ offset ih =>
    rw [backTo]
    split_ifs with h
    · exact ih
    · exact .inr (not_not.mp h)

theorem backTo?_eq (h : offset < result.length) :
    backTo? result offset = some (backTo result offset) := by
  induction offset with
  | zero => rfl
  | succ offset ih =>
    rw [backTo?, backTo, is?_eq (Nat.zero_le _) h, ih (Nat.lt_of_succ_lt h)]
    by_cases hc : charAt result (offset + 1) = '/' <;> simp [hc]

theorem drops?_eq (h : offset + 1 < result.length) : drops? result offset =
    some (decide (charAt result offset ≠ '.' ∧ charAt result (offset + 1) ≠ '.')) := by
  rw [drops?, isNot?_eq (Nat.zero_le _) (Nat.lt_of_succ_lt h)]
  exact both?_eq fun _ => isNot?_eq (Nat.zero_le _) h

theorem turn?_eq (h : index < result.length) :
    turn? inScopeOnly result index = some (turn inScopeOnly result index) := by
  have hslash : both? (is? result index 0 '/') (some (decide (1 ≤ index))) =
      some (decide (charAt result index = '/' ∧ 1 ≤ index)) := by
    rw [is?_eq (Nat.zero_le _) h]
    exact both?_eq fun _ => rfl
  have hback : ∀ back c, 1 ≤ back → back ≤ index →
      is? result index back c = some (decide (charAt result (index - back) = c)) :=
    fun back c hpos hle => is?_eq hle (by omega)
  unfold turn? turn
  rw [hslash, Option.bind_eq_bind, Option.bind_some]
  by_cases hat : charAt result index = '/' ∧ 1 ≤ index
  swap
  · rw [if_neg (by simpa using hat), if_neg hat]
    rfl
  rw [if_pos (decide_eq_true hat), if_pos hat, hback 1 _ (Nat.le_refl 1) hat.2,
    Option.bind_some]
  by_cases hdouble : charAt result (index - 1) = '/'
  · rw [if_pos (decide_eq_true hdouble), if_pos hdouble, erase?_eq (Nat.le_of_lt h)]
    rfl
  rw [if_neg (by simpa using hdouble), if_neg hdouble, hback 1 _ (Nat.le_refl 1) hat.2,
    Option.bind_some]
  by_cases hdot : charAt result (index - 1) = '.'
  swap
  · rw [if_neg (by simpa using hdot), if_neg hdot]
    rfl
  have halone : either? (some (decide (index = 1))) (is? result index 2 '/') =
      some (decide (index = 1 ∨ charAt result (index - 2) = '/')) :=
    either?_eq fun hne => hback 2 '/' (by decide) (by omega)
  rw [if_pos (decide_eq_true hdot), if_pos hdot, halone, Option.bind_some]
  by_cases hfront : index = 1 ∨ charAt result (index - 2) = '/'
  · rw [if_pos (decide_eq_true hfront), if_pos hfront]
    split_ifs
    · rw [erase?_eq (by omega)]
      rfl
    · rw [erase?_eq (by omega)]
      rfl
    · rfl
  obtain ⟨hone, -⟩ := not_or.mp hfront
  have hpair : both? (is? result index 2 '.')
      (either? (some (decide (index = 2))) (is? result index 3 '/')) =
      some (decide (charAt result (index - 2) = '.' ∧
        (index = 2 ∨ charAt result (index - 3) = '/'))) := by
    rw [hback 2 _ (by decide) (by omega)]
    exact both?_eq fun _ => either?_eq fun hne => hback 3 '/' (by decide) (by omega)
  rw [if_neg (by simpa using hfront), if_neg hfront, hpair, Option.bind_some]
  by_cases hup : charAt result (index - 2) = '.' ∧ (index = 2 ∨ charAt result (index - 3) = '/')
  swap
  · rw [if_neg (by simpa using hup), if_neg hup]
    rfl
  rw [if_pos (decide_eq_true hup), if_pos hup]
  by_cases htwo : index = 2
  · rw [if_pos htwo, if_pos htwo]
    rfl
  by_cases hthree : index = 3
  · rw [if_neg htwo, if_neg htwo, if_pos hthree, if_pos hthree]
    rfl
  have hfour : 4 ≤ index := by omega
  have hle := backTo_le result (index - 4)
  rw [if_neg htwo, if_neg htwo, if_neg hthree, if_neg hthree, if_pos hfour,
    backTo?_eq (by omega), Option.bind_eq_bind, Option.bind_some, drops?_eq (by omega),
    Option.bind_some]
  dsimp only
  generalize backTo result (index - 4) = offset at hle
  by_cases hdrops : charAt result offset ≠ '.' ∧ charAt result (offset + 1) ≠ '.'
  swap
  · rw [if_neg (by simpa using hdrops), if_neg hdrops]
    rfl
  rw [if_pos (decide_eq_true hdrops), if_pos hdrops, is?_eq (Nat.zero_le _) (by omega),
    Option.bind_some]
  simp only [decide_eq_true_eq, Nat.sub_zero]
  rw [erase?_eq (by split_ifs <;> omega)]
  rfl

/-! ### Every turn comes closer to the end -/

/-- What is left to do: an index that is not in front can come back there once. -/
def room (result : List Char) (index : Nat) : Nat :=
  2 * (result.length - index) + if index ≤ 1 then 0 else 1

theorem length_erase (h : position ≤ s.length) :
    (erase s position count).length = position + (s.length - (position + count)) := by
  rw [erase, List.length_append, List.length_take, List.length_drop, Nat.min_eq_left h]

theorem turn_room (inScopeOnly : Bool) (h : index < result.length) :
    (turn inScopeOnly result index).1.length ≤ result.length ∧
      room (turn inScopeOnly result index).1 (turn inScopeOnly result index).2 <
        room result index := by
  have hstay : room result (index + 1) < room result index := by
    unfold room
    split_ifs <;> omega
  have hstay' : result.length ≤ result.length ∧ room result (index + 1) < room result index :=
    ⟨Nat.le_refl _, hstay⟩
  unfold turn
  by_cases hat : charAt result index = '/' ∧ 1 ≤ index
  swap
  · rw [if_neg hat]
    exact hstay'
  rw [if_pos hat]
  by_cases hdouble : charAt result (index - 1) = '/'
  · rw [if_pos hdouble]
    unfold room
    dsimp only
    rw [length_erase (by omega)]
    omega
  rw [if_neg hdouble]
  by_cases hdot : charAt result (index - 1) = '.'
  swap
  · rw [if_neg hdot]
    exact hstay'
  rw [if_pos hdot]
  by_cases hfront : index = 1 ∨ charAt result (index - 2) = '/'
  · rw [if_pos hfront]
    by_cases hlength : result.length = 2
    · rw [if_neg (not_not.mpr hlength)]
      exact hstay'
    · rw [if_pos hlength]
      unfold room
      dsimp only
      rw [length_erase (by omega)]
      split_ifs <;> omega
  rw [if_neg hfront]
  obtain ⟨hone, -⟩ := not_or.mp hfront
  have hclear : ([] : List Char).length ≤ result.length ∧
      room [] (index + 1) < room result index := by
    unfold room
    rw [List.length_nil]
    split_ifs <;> omega
  by_cases hup : charAt result (index - 2) = '.' ∧ (index = 2 ∨ charAt result (index - 3) = '/')
  swap
  · rw [if_neg hup]
    exact hstay'
  rw [if_pos hup]
  by_cases htwo : index = 2
  · rw [if_pos htwo]
    cases inScopeOnly with
    | true => exact hclear
    | false => exact hstay'
  by_cases hthree : index = 3
  · rw [if_neg htwo, if_pos hthree]
    exact hclear
  have hle := backTo_le result (index - 4)
  have hstop := backTo_stop result (index - 4)
  rw [if_neg htwo, if_neg hthree]
  dsimp only
  generalize backTo result (index - 4) = offset at hle hstop
  split_ifs with hdrops hslash
  · unfold room
    dsimp only
    rw [length_erase (by omega)]
    split_ifs <;> omega
  · have hoffset : offset = 0 := hstop.resolve_right hslash
    unfold room
    dsimp only
    rw [length_erase (by omega)]
    split_ifs <;> omega
  · exact hstay'

theorem loop?_eq {limit fuel : Nat} (hlimit : result.length ≤ limit)
    (hfuel : room result index ≤ fuel) :
    loop? inScopeOnly limit fuel result index = some (loop inScopeOnly fuel result index) := by
  induction fuel generalizing result index with
  | zero =>
    have hend : ¬index < result.length := by
      unfold room at hfuel
      omega
    rw [loop?, if_neg hend]
    rfl
  | succ fuel ih =>
    rw [loop?, loop]
    by_cases hlt : index < result.length
    · obtain ⟨hlength, hroom⟩ := turn_room inScopeOnly hlt
      rw [if_pos hlt, if_pos hlt, if_pos (Nat.lt_of_lt_of_le hlt hlimit), turn?_eq hlt,
        Option.bind_some]
      exact ih (Nat.le_trans hlength hlimit) (by omega)
    · rw [if_neg hlt, if_neg hlt]

/-! ### The end, and the whole -/

theorem lastPart?_eq (hlocation : location ≠ []) :
    lastPart? location result allowDirs = some (lastPart location result allowDirs) := by
  have hfirst : 0 < location.length := List.length_pos_iff.mpr hlocation
  have hback : ∀ back c, 1 ≤ back → back ≤ result.length →
      is? result result.length back c = some (decide (charAt result (result.length - back) = c)) :=
    fun back c hpos hle => is?_eq hle (by omega)
  unfold lastPart? lastPart
  dsimp only
  by_cases hlength : 1 ≤ result.length
  swap
  · rw [if_neg hlength, if_neg hlength]
    rfl
  rw [if_pos hlength, if_pos hlength, hback 1 _ (Nat.le_refl 1) hlength, Option.bind_eq_bind,
    Option.bind_some]
  by_cases hslash : charAt result (result.length - 1) = '/'
  · have hcorner : both? (some (decide (result.length = 1)))
        (both? (is? result 0 0 '/') (is? location 0 0 '.')) =
        some (decide (result.length = 1 ∧ charAt result 0 = '/' ∧ charAt location 0 = '.')) := by
      refine both?_eq fun _ => ?_
      rw [is?_eq (Nat.le_refl 0) hlength]
      exact both?_eq fun _ => is?_eq (Nat.le_refl 0) hfirst
    rw [if_pos (decide_eq_true hslash), if_pos hslash, hcorner]
    simp only [Option.bind_some, decide_eq_true_eq, Option.pure_def]
    split_ifs <;> rfl
  rw [if_neg (by simpa using hslash), if_neg hslash, hback 1 _ (Nat.le_refl 1) hlength,
    Option.bind_some]
  by_cases hdot : charAt result (result.length - 1) = '.'
  swap
  · rw [if_neg (by simpa using hdot), if_neg hdot]
    rfl
  rw [if_pos (decide_eq_true hdot), if_pos hdot]
  by_cases hallow : allowDirs = false
  · rw [if_pos hallow, if_pos hallow]
    rfl
  have hhere : both? (some (decide (2 ≤ result.length))) (is? result result.length 2 '/') =
      some (decide (2 ≤ result.length ∧ charAt result (result.length - 2) = '/')) :=
    both?_eq fun hle => hback 2 '/' (by decide) hle
  rw [if_neg hallow, if_neg hallow, hhere, Option.bind_some]
  by_cases halone : 2 ≤ result.length ∧ charAt result (result.length - 2) = '/'
  · rw [if_pos (decide_eq_true halone), if_pos halone]
    exact erase?_eq (Nat.sub_le _ _)
  have hpair : both? (some (decide (3 ≤ result.length)))
      (both? (is? result result.length 2 '.') (is? result result.length 3 '/')) =
      some (decide (3 ≤ result.length ∧ charAt result (result.length - 2) = '.' ∧
        charAt result (result.length - 3) = '/')) := by
    refine both?_eq fun hle => ?_
    rw [hback 2 _ (by decide) (by omega)]
    exact both?_eq fun _ => hback 3 '/' (by decide) hle
  rw [if_neg (by simpa using halone), if_neg halone, hpair, Option.bind_some]
  by_cases hup : 3 ≤ result.length ∧ charAt result (result.length - 2) = '.' ∧
      charAt result (result.length - 3) = '/'
  swap
  · rw [if_neg (by simpa using hup), if_neg hup]
    rfl
  rw [if_pos (decide_eq_true hup), if_pos hup]
  by_cases hthree : result.length = 3
  · rw [if_pos hthree, if_pos hthree]
    rfl
  have hfour : 4 ≤ result.length := by omega
  have hle := backTo_le result (result.length - 4)
  rw [if_neg hthree, if_neg hthree, if_pos hfour, backTo?_eq (by omega), Option.bind_eq_bind,
    Option.bind_some, drops?_eq (by omega), Option.bind_some]
  generalize backTo result (result.length - 4) = offset at hle
  by_cases hdrops : charAt result offset ≠ '.' ∧ charAt result (offset + 1) ≠ '.'
  swap
  · rw [if_neg (by simpa using hdrops), if_neg hdrops]
    rfl
  rw [if_pos (decide_eq_true hdrops), if_pos hdrops, is?_eq (Nat.zero_le _) (by omega),
    Option.bind_some]
  simp only [decide_eq_true_eq, Nat.sub_zero]
  rfl

/-- No access is outside the text, and the loop ends. -/
theorem normalize?_eq (location : List Char) (inScopeOnly allowDirs : Bool) :
    normalize? location inScopeOnly allowDirs =
      some (normalize location inScopeOnly allowDirs) := by
  unfold normalize? normalize
  by_cases hlocation : location ≠ []
  · have hroom : room location 0 ≤ 2 * location.length := by
      simp [room]
    rw [if_pos hlocation, if_pos hlocation, loop?_eq (Nat.le_refl _) hroom, Option.bind_eq_bind,
      Option.bind_some]
    exact lastPart?_eq hlocation
  · rw [if_neg hlocation, if_neg hlocation]
    rfl

end

end Thunder.Core.File
