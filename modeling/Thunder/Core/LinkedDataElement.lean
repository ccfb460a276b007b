import Thunder.Library.Block
import Thunder.Library.Bytes
import Thunder.Library.Pieces

/-! `GetBuffer`, `SetBuffer` and `Copy` of a `LinkedDataElement`.  A chain is the list of the bytes
of its elements, each in memory of its own; an access outside of an element has no result. -/

namespace Thunder.Core.LinkedDataElement

open Bytes Pieces

abbrev Chain := List (List UInt8)

/-- The part that an element has is shorter than the whole, which is below `2 ^ 32`. -/
def getBuffer : Chain → Nat → Nat → Option (List UInt8)
  | [], _, _ => none
  | e :: next, offset, size =>
    if offset + size ≤ e.length then some ((e.drop offset).take size)
    else if offset ≤ e.length then do
      let bytesToRead := e.length - offset
      let rest ← getBuffer next 0 (size - bytesToRead)
      some (e.drop offset ++ rest)
    else none

def setBuffer : Chain → Nat → List UInt8 → Option Chain
  | [], _, _ => none
  | e :: next, offset, buffer =>
    if offset + buffer.length ≤ e.length then do
      let e ← Block.write e offset buffer
      some (e :: next)
    else if offset ≤ e.length then do
      let bytesToWrite := e.length - offset
      let e ← Block.write e offset (buffer.take bytesToWrite)
      let next ← setBuffer next 0 (buffer.drop bytesToWrite)
      some (e :: next)
    else none

/-- The condition of the loop. -/
def goesOn (source dest : Chain) (copiedSize : Nat) : Bool :=
  match source, dest with
  | _ :: _, [last] => copiedSize < last.length
  | _ :: _, _ :: _ :: _ => true
  | _, _ => false

/-- The loop of `Copy`, with the number and the changed chain.  Where the offset is beyond the first
element, the first `memmove` is outside of it, whatever the difference is. -/
def copyLoop : Nat → Chain → Nat → Chain → Nat → Nat → Option (Nat × Chain)
  | fuel + 1, s :: source, sourceOffset, d :: dest, destinationOffset, copiedSize =>
    let rest := s.length - sourceOffset
    let room := d.length - destinationOffset
    if rest > room then do
      let d ← Block.write d destinationOffset ((s.drop sourceOffset).take (room % 2 ^ 32))
      if goesOn (s :: source) dest (copiedSize + room) then
        let (n, dest) ←
          copyLoop fuel (s :: source) (sourceOffset + room) dest 0 (copiedSize + room)
        some (n, d :: dest)
      else some (copiedSize + room, d :: dest)
    else do
      let d ← Block.write d destinationOffset ((s.drop sourceOffset).take (rest % 2 ^ 32))
      if goesOn source (d :: dest) (copiedSize + rest) then
        copyLoop fuel source 0 (d :: dest) (destinationOffset + rest) (copiedSize + rest)
      else some (copiedSize + rest, d :: dest)
  | _, _, _, _, _, _ => none

/-- Every turn leaves an element of one of the chains behind. -/
def copy (dest : Chain) (offset : Nat) (source : Chain) : Option (Nat × Chain) :=
  copyLoop (source.length + dest.length) source 0 dest offset 0

/-! ### One buffer -/

/-- A chain with elements of the same sizes and, put together, these bytes. -/
def Holds (chain chain' : Chain) (bytes : List UInt8) : Prop :=
  chain'.map List.length = chain.map List.length ∧ chain'.flatten = bytes

def Gets (chain : Chain) (offset size : Nat) : Prop :=
  getBuffer chain offset size = some ((chain.flatten.drop offset).take size)

def Sets (chain : Chain) (offset : Nat) (buffer : List UInt8) : Prop :=
  ∃ chain', setBuffer chain offset buffer = some chain' ∧
    Holds chain chain' (overwrite chain.flatten offset buffer)

def Copies (dest : Chain) (offset : Nat) (source : Chain) : Prop :=
  let count := min source.flatten.length (dest.flatten.length - offset)
  ∃ dest', copy dest offset source = some (count, dest') ∧
    Holds dest dest' (overwrite dest.flatten offset (source.flatten.take count))

/-! ### The exact condition -/

def lastSize : Chain → Nat
  | [] => 0
  | [e] => e.length
  | _ :: e :: next => lastSize (e :: next)

/-- `Copy` does not stop where the last element of the destination starts or, in it, where an
element of the source ends, though there is more to copy: there, less has been copied than the last
element has bytes. -/
def RunsOn (source dest : Chain) (copiedSize lastSize : Nat) : Prop :=
  ∀ c, c = before dest ∨ Cut source c → before dest ≤ c → lastSize ≤ copiedSize + c →
    min (total source) (total dest) ≤ c

/-- What is left of a piece behind its size modulo `2 ^ 32` is there already. -/
def Moved (p : List UInt8 × List UInt8) : Prop :=
  p.1.drop (p.1.length % 2 ^ 32) = p.2.drop (p.1.length % 2 ^ 32)

/-- The part of the destination behind the offset, which has to be in the first element. -/
def CopyCondition (source : Chain) (offset : Nat) : Chain → Prop
  | [] => False
  | d :: dest => offset ≤ d.length ∧
      RunsOn source (d.drop offset :: dest) 0 (lastSize (d :: dest)) ∧
      ∀ p ∈ pieces source (d.drop offset :: dest), Moved p

variable {s d e : List UInt8} {source dest next : Chain} {offset copiedSize last : Nat}
  {buffer : List UInt8}

/-! ### `GetBuffer` and `SetBuffer` -/

theorem not_getBuffer (h : e.length < offset) (size : Nat) :
    getBuffer (e :: next) offset size = none := by
  rw [getBuffer, if_neg (by omega), if_neg (by omega)]

theorem gets_of_le {size : Nat} (hfirst : offset ≤ e.length)
    (hin : offset + size ≤ total (e :: next)) : Gets (e :: next) offset size := by
  induction next generalizing e offset size with
  | nil =>
    rw [total_cons, total_nil] at hin
    rw [Gets, getBuffer, if_pos (by omega), List.flatten_cons, List.flatten_nil, List.append_nil]
  | cons e' next ih =>
    unfold Gets
    rw [List.flatten_cons, getBuffer]
    split_ifs with hfit
    · rw [List.drop_append_of_le_length hfirst,
        List.take_append_of_le_length (by rw [List.length_drop]; omega)]
    · rw [total_cons] at hin
      have hrest := ih (Nat.zero_le e'.length) (show 0 + (size - (e.length - offset)) ≤ _ by omega)
      unfold Gets at hrest
      rw [List.drop_zero] at hrest
      have hlength : (e.drop offset).length = e.length - offset := List.length_drop
      have hall : (e.drop offset).take size = e.drop offset := List.take_of_length_le (by omega)
      simp only [hrest, Option.bind_eq_bind, Option.bind_some]
      rw [List.drop_append_of_le_length hfirst, List.take_append, hall, hlength]

theorem gets_iff {size : Nat} (hin : offset + size ≤ total (e :: next)) :
    Gets (e :: next) offset size ↔ offset ≤ e.length := by
  refine ⟨fun h => ?_, fun h => gets_of_le h hin⟩
  by_contra hlt
  unfold Gets at h
  rw [not_getBuffer (by omega)] at h
  cases h

theorem write_eq (h : offset + buffer.length ≤ e.length) :
    Block.write e offset buffer = some (overwrite e offset buffer) := if_pos h

theorem overwrite_append_of_le (h : offset + buffer.length ≤ e.length) (l : List UInt8) :
    overwrite (e ++ l) offset buffer = overwrite e offset buffer ++ l := by
  rw [overwrite, overwrite, List.take_append_of_le_length (by omega),
    List.drop_append_of_le_length h, List.append_assoc _ _ l]

/-- Bytes over two parts. -/
theorem overwrite_append_of_gt (hfirst : offset ≤ e.length) (h : e.length < offset + buffer.length)
    (l : List UInt8) :
    overwrite (e ++ l) offset buffer =
      overwrite e offset (buffer.take (e.length - offset)) ++
        overwrite l 0 (buffer.drop (e.length - offset)) := by
  have hlength : (buffer.take (e.length - offset)).length = e.length - offset :=
    List.length_take_of_le (by omega)
  have hend : offset + buffer.length = e.length + (buffer.length - (e.length - offset)) := by omega
  simp only [overwrite, hlength, Nat.add_sub_cancel' hfirst, List.drop_length, List.append_nil,
    List.take_zero, List.nil_append, Nat.zero_add, List.length_drop]
  rw [List.take_append_of_le_length hfirst, hend, List.drop_length_add_append, List.append_assoc,
    List.append_assoc, ← List.append_assoc (buffer.take _), List.take_append_drop]

theorem holds_cons {e' : List UInt8} {next' : Chain} {bytes bytes' : List UInt8}
    (hlength : e'.length = e.length) (he : e' = bytes) (hnext : Holds next next' bytes') :
    Holds (e :: next) (e' :: next') (bytes ++ bytes') := by
  refine ⟨?_, ?_⟩
  · rw [List.map_cons, List.map_cons, hlength, hnext.1]
  · rw [List.flatten_cons, he, hnext.2]

theorem holds_refl (chain : Chain) : Holds chain chain chain.flatten := ⟨rfl, rfl⟩

theorem sets_of_le (hfirst : offset ≤ e.length)
    (hin : offset + buffer.length ≤ total (e :: next)) : Sets (e :: next) offset buffer := by
  induction next generalizing e offset buffer with
  | nil =>
    rw [total_cons, total_nil, Nat.add_zero] at hin
    refine ⟨[overwrite e offset buffer], ?_, ?_⟩
    · rw [setBuffer, if_pos hin, write_eq hin]
      rfl
    · rw [List.flatten_cons, overwrite_append_of_le hin]
      exact holds_cons (length_overwrite hin) rfl (holds_refl [])
  | cons e' next ih =>
    by_cases hfit : offset + buffer.length ≤ e.length
    · refine ⟨overwrite e offset buffer :: e' :: next, ?_, ?_⟩
      · rw [setBuffer, if_pos hfit, write_eq hfit]
        rfl
      · rw [List.flatten_cons, overwrite_append_of_le hfit]
        exact holds_cons (length_overwrite hfit) rfl (holds_refl _)
    · rw [total_cons] at hin
      have hlength : (buffer.take (e.length - offset)).length = e.length - offset :=
        List.length_take_of_le (by omega)
      have hpart : offset + (buffer.take (e.length - offset)).length ≤ e.length := by omega
      obtain ⟨next', hset, hholds⟩ := ih (Nat.zero_le e'.length)
        (show 0 + (buffer.drop (e.length - offset)).length ≤ _ by rw [List.length_drop]; omega)
      refine ⟨overwrite e offset (buffer.take (e.length - offset)) :: next', ?_, ?_⟩
      · rw [setBuffer, if_neg hfit, if_pos hfirst]
        simp only [write_eq hpart, Option.bind_eq_bind, Option.bind_some, hset]
      · rw [List.flatten_cons, overwrite_append_of_gt hfirst (by omega)]
        exact holds_cons (length_overwrite hpart) rfl hholds

theorem sets_iff (hin : offset + buffer.length ≤ total (e :: next)) :
    Sets (e :: next) offset buffer ↔ offset ≤ e.length := by
  refine ⟨?_, fun h => sets_of_le h hin⟩
  rintro ⟨chain', hset, -⟩
  by_contra hlt
  rw [setBuffer, if_neg (by omega), if_neg hlt] at hset
  cases hset

/-! ### Where `Copy` stops -/

/-- The loop is at the last element only while less has been copied than it has bytes, or when
nothing is left of it. -/
def Live (d : List UInt8) (dest : Chain) (copiedSize last : Nat) : Prop :=
  dest = [] → copiedSize < last ∨ d = []

theorem goesOn_eq_false (hsource : source ≠ []) :
    goesOn source dest copiedSize = false ↔
      dest = [] ∨ ∃ d, dest = [d] ∧ lastSize dest ≤ copiedSize := by
  obtain ⟨s, source, rfl⟩ := List.exists_cons_of_ne_nil hsource
  rcases dest with _ | ⟨d, _ | ⟨d', dest⟩⟩
  · simp [goesOn]
  · simp [goesOn, lastSize]
  · simp [goesOn]

theorem live_of_goesOn (h : goesOn source (d :: dest) copiedSize = true) (d' : List UInt8) :
    Live d' dest copiedSize (lastSize (d :: dest)) := by
  rintro rfl
  cases source with
  | nil => cases h
  | cons s source =>
    left
    simpa [goesOn, lastSize] using h

/-- The last element of the destination is filled. -/
theorem runsOn_filled (hlt : d.length < s.length) (hlive : Live d [] copiedSize last) :
    RunsOn (s :: source) [d] copiedSize last := by
  intro c hc _ hlast
  simp only [total_cons, total_nil]
  have hcut : c = 0 ∨ s.length ≤ c := by
    rcases hc with rfl | hc
    · exact .inl rfl
    · rcases cut_cons.mp hc with rfl | ⟨c', -, rfl⟩
      · exact .inl rfl
      · exact .inr (Nat.le_add_right ..)
  rcases hcut with rfl | hge
  · rcases hlive rfl with hless | rfl
    · omega
    · simp
  · omega

/-- An element of the destination is filled and the next one starts. -/
theorem runsOn_fill (hlt : d.length < s.length) (hdest : dest ≠ []) :
    RunsOn (s :: source) (d :: dest) copiedSize last ↔
      RunsOn (s.drop d.length :: source) dest (copiedSize + d.length) last := by
  unfold RunsOn
  simp only [cut_cons, before_cons hdest, total_cons, List.length_drop]
  constructor
  · intro h c hc hbefore hlast
    have hc' : d.length + c = d.length + before dest ∨ d.length + c = 0 ∨
        ∃ c', Cut source c' ∧ d.length + c = s.length + c' := by
      rcases hc with rfl | rfl | ⟨c', hcut, rfl⟩
      · exact .inl rfl
      · exact .inl (by omega)
      · exact .inr (.inr ⟨c', hcut, by omega⟩)
    have hle := h (d.length + c) hc' (by omega) (by omega)
    omega
  · intro h c hc hbefore hlast
    have hc' : c - d.length = before dest ∨ c - d.length = 0 ∨
        ∃ c', Cut source c' ∧ c - d.length = s.length - d.length + c' := by
      rcases hc with rfl | rfl | ⟨c', hcut, rfl⟩
      · exact .inl (by omega)
      · exact .inl (by omega)
      · exact .inr (.inr ⟨c', hcut, by omega⟩)
    have hle := h (c - d.length) hc' (by omega) (by omega)
    omega

/-- The loop stops in front of the last element. -/
theorem runsOn_fill_stop (hlt : d.length < s.length) {e : List UInt8}
    (hstop : last ≤ copiedSize + d.length) :
    RunsOn (s :: source) (d :: [e]) copiedSize last ↔ e = [] := by
  unfold RunsOn
  have hbefore : before (d :: [e]) = d.length := by
    rw [before_cons (List.cons_ne_nil e []), before_singleton, Nat.add_zero]
  simp only [cut_cons, hbefore, total_cons, total_nil]
  rw [← List.length_eq_zero_iff]
  constructor
  · intro h
    have hle := h d.length (.inl rfl) (le_refl _) hstop
    omega
  · intro h c _ hc _
    omega

/-- The last element of the source is copied. -/
theorem runsOn_emptied (hle : s.length ≤ d.length) (hlive : Live d dest copiedSize last) :
    RunsOn [s] (d :: dest) copiedSize last := by
  intro c hc hbefore hlast
  simp only [total_cons, total_nil]
  rcases eq_or_ne dest [] with rfl | hdest
  · have hcut : c = 0 ∨ s.length ≤ c := by
      rcases hc with rfl | hc
      · exact .inl rfl
      · rcases cut_cons.mp hc with rfl | ⟨c', -, rfl⟩
        · exact .inl rfl
        · exact .inr (Nat.le_add_right ..)
    rcases hcut with rfl | hge
    · rcases hlive rfl with hless | rfl
      · omega
      · simp
    · omega
  · rw [before_cons hdest] at hbefore
    omega

/-- An element of the source is copied and the next one starts. -/
theorem runsOn_empty (hle : s.length ≤ d.length)
    (hgo : dest = [] → copiedSize + s.length < last) :
    RunsOn (s :: source) (d :: dest) copiedSize last ↔
      RunsOn source (d.drop s.length :: dest) (copiedSize + s.length) last := by
  unfold RunsOn
  rcases eq_or_ne dest [] with rfl | hdest
  · have hless := hgo rfl
    simp only [cut_cons, before_singleton, total_cons, total_nil, List.length_drop]
    constructor
    · rintro h c (rfl | hcut) hbefore hlast
      · omega
      · have hmin := h (s.length + c) (.inr (.inr ⟨c, hcut, rfl⟩)) (by omega) (by omega)
        omega
    · rintro h c (rfl | rfl | ⟨c', hcut, rfl⟩) hbefore hlast
      · omega
      · omega
      · have hmin := h c' (.inr hcut) (by omega) (by omega)
        omega
  · simp only [cut_cons, before_cons hdest, total_cons, List.length_drop]
    constructor
    · rintro h c (rfl | hcut) hbefore hlast
      · have hmin := h (d.length + before dest) (.inl rfl) (le_refl _) (by omega)
        omega
      · have hmin := h (s.length + c) (.inr (.inr ⟨c, hcut, rfl⟩)) (by omega) (by omega)
        omega
    · rintro h c (rfl | rfl | ⟨c', hcut, rfl⟩) hbefore hlast
      · have hmin := h (d.length - s.length + before dest) (.inl rfl) (le_refl _) (by omega)
        omega
      · have hmin := h (d.length - s.length + before dest) (.inl rfl) (le_refl _) (by omega)
        omega
      · have hmin := h c' (.inr hcut) (by omega) (by omega)
        omega

/-- The loop stops in the last element. -/
theorem runsOn_empty_stop (hle : s.length ≤ d.length) (hlive : Live d [] copiedSize last)
    (hstop : last ≤ copiedSize + s.length) :
    RunsOn (s :: source) [d] copiedSize last ↔ min (total (s :: source)) d.length ≤ s.length := by
  unfold RunsOn
  simp only [cut_cons, before_singleton, total_cons, total_nil, Nat.add_zero]
  constructor
  · intro h
    exact h s.length (.inr (.inr ⟨0, ⟨0, rfl⟩, rfl⟩)) (Nat.zero_le _) hstop
  · intro h c hc _ hlast
    have hcut : c = 0 ∨ s.length ≤ c := by
      rcases hc with rfl | rfl | ⟨c', -, rfl⟩
      · exact .inl rfl
      · exact .inl rfl
      · exact .inr (Nat.le_add_right ..)
    rcases hcut with rfl | hge
    · rcases hlive rfl with hless | rfl
      · omega
      · simp
    · omega

/-! ### What `Copy` writes -/

/-- A piece of the destination behind a move of a number of bytes that is cut to 32 bits. -/
def mix (p : List UInt8 × List UInt8) : List UInt8 :=
  p.1.take (p.1.length % 2 ^ 32) ++ p.2.drop (p.1.length % 2 ^ 32)

theorem length_mix {p : List UInt8 × List UInt8} (h : p.1.length = p.2.length) :
    (mix p).length = p.1.length := by
  have hmod := Nat.mod_le p.1.length (2 ^ 32)
  rw [mix, List.length_append, List.length_take_of_le hmod, List.length_drop]
  omega

theorem mix_eq_iff (p : List UInt8 × List UInt8) : mix p = p.1 ↔ Moved p := by
  rw [mix, Moved]
  conv_lhs => rhs; rw [← List.take_append_drop (p.1.length % 2 ^ 32) p.1]
  rw [List.append_cancel_left_eq]
  exact eq_comm

theorem length_flatMap_mix (source dest : Chain) :
    ((pieces source dest).flatMap mix).length = min (total dest) (total source) := by
  have hlength : ((pieces source dest).flatMap Prod.fst).length =
      min (total dest) (total source) :=
    (congrArg List.length (flatMap_fst_pieces source dest)).trans List.length_take
  rw [← hlength, List.length_flatMap, List.length_flatMap]
  refine congrArg List.sum (List.map_congr_left fun p hp => ?_)
  exact length_mix (length_eq_of_mem_pieces hp)

/-- One `memmove` of the loop. -/
theorem write_piece {x : List UInt8} (h : offset + x.length ≤ d.length) :
    Block.write d offset (x.take (x.length % 2 ^ 32)) =
      some (d.take offset ++ mix (x, (d.drop offset).take x.length) ++
        d.drop (offset + x.length)) := by
  have hmod := Nat.mod_le x.length (2 ^ 32)
  have hlength := List.length_take_of_le hmod
  rw [write_eq (by omega), overwrite, hlength, mix]
  have hrest : ((d.drop offset).take x.length).drop (x.length % 2 ^ 32) ++
      d.drop (offset + x.length) = d.drop (offset + x.length % 2 ^ 32) := by
    rw [← List.drop_drop, ← List.drop_append_of_le_length (by
      rw [List.length_take_of_le (by rw [List.length_drop]; omega)]
      exact hmod), List.take_append_drop, List.drop_drop]
  simp only [List.append_assoc]
  rw [hrest]

/-- The outcome of the loop from a turn on: it copies all that it can, or stops before. -/
def Outcome (source : Chain) (front d : List UInt8) (dest : Chain) (copiedSize last n : Nat)
    (dest' : Chain) : Prop :=
  let count := min (total source) (total (d :: dest))
  (RunsOn source (d :: dest) copiedSize last ∧ n = count ∧ dest'.flatten =
    front ++ (pieces source (d :: dest)).flatMap mix ++ (d :: dest).flatten.drop count) ∨
  (¬RunsOn source (d :: dest) copiedSize last ∧ n < count)

variable {front : List UInt8} {n : Nat} {dest' : Chain}

theorem outcome_filled (hlt : d.length < s.length) (hlive : Live d [] copiedSize last) :
    Outcome (s :: source) front d [] copiedSize last d.length
      [front ++ mix (s.take d.length, d)] := by
  have hcount : min (total (s :: source)) (total [d]) = d.length := by
    simp only [total_cons, total_nil]
    omega
  unfold Outcome
  left
  refine ⟨runsOn_filled hlt hlive, hcount.symm, ?_⟩
  rw [hcount, pieces_of_lt hlt, pieces_nil_right]
  simp

theorem outcome_fill_stop {e : List UInt8} (hlt : d.length < s.length)
    (hstop : last ≤ copiedSize + d.length) :
    Outcome (s :: source) front d [e] copiedSize last d.length
      [front ++ mix (s.take d.length, d), e] := by
  by_cases he : e = []
  · left
    subst he
    have hcount : min (total (s :: source)) (total [d, []]) = d.length := by
      simp only [total_cons, total_nil, List.length_nil]
      omega
    have hrest : (pieces (s.drop d.length :: source) [[]]).flatMap mix = [] := by
      rw [← List.length_eq_zero_iff, length_flatMap_mix]
      simp
    refine ⟨(runsOn_fill_stop hlt hstop).mpr rfl, hcount.symm, ?_⟩
    rw [hcount, pieces_of_lt hlt, List.flatMap_cons, hrest]
    simp
  · right
    refine ⟨fun h => he ((runsOn_fill_stop hlt hstop).mp h), ?_⟩
    have hpos := List.length_pos_of_ne_nil he
    simp only [total_cons, total_nil]
    omega

theorem outcome_fill {e : List UInt8} (hlt : d.length < s.length)
    (h : Outcome (s.drop d.length :: source) [] e dest (copiedSize + d.length) last n dest') :
    Outcome (s :: source) front d (e :: dest) copiedSize last (d.length + n)
      ((front ++ mix (s.take d.length, d)) :: dest') := by
  have hcount : min (total (s :: source)) (total (d :: e :: dest)) =
      d.length + min (total (s.drop d.length :: source)) (total (e :: dest)) := by
    simp only [total_cons, List.length_drop]
    omega
  have hdrop : ∀ k, (d :: e :: dest).flatten.drop (d.length + k) = (e :: dest).flatten.drop k :=
    fun k => by rw [List.flatten_cons, List.drop_length_add_append]
  unfold Outcome
  rw [runsOn_fill hlt (List.cons_ne_nil e dest), hcount]
  rcases h with ⟨hrun, hn, hbytes⟩ | ⟨hrun, hn⟩
  · left
    refine ⟨hrun, by rw [hn], ?_⟩
    rw [List.flatten_cons, hbytes, pieces_of_lt hlt, List.flatMap_cons, hdrop]
    simp only [List.nil_append, List.append_assoc]
  · exact .inr ⟨hrun, by omega⟩

theorem outcome_emptied (hle : s.length ≤ d.length) (hlive : Live d dest copiedSize last) :
    Outcome [s] front d dest copiedSize last s.length
      ((front ++ mix (s, d.take s.length) ++ d.drop s.length) :: dest) := by
  have hcount : min (total [s]) (total (d :: dest)) = s.length := by
    simp only [total_cons, total_nil]
    omega
  unfold Outcome
  left
  refine ⟨runsOn_emptied hle hlive, hcount.symm, ?_⟩
  rw [hcount, pieces_of_le hle, pieces_nil_left, List.flatten_cons, List.flatten_cons,
    List.drop_append_of_le_length hle]
  simp

theorem outcome_empty_stop (hle : s.length ≤ d.length) (hlive : Live d [] copiedSize last)
    (hstop : last ≤ copiedSize + s.length) :
    Outcome (s :: source) front d [] copiedSize last s.length
      [front ++ mix (s, d.take s.length) ++ d.drop s.length] := by
  have htotal : total [d] = d.length := by simp
  have hmin : s.length ≤ min (total (s :: source)) (total [d]) := by
    rw [total_cons, htotal]
    omega
  unfold Outcome
  rw [runsOn_empty_stop hle hlive hstop]
  by_cases hall : min (total (s :: source)) d.length ≤ s.length
  · left
    have hcount : min (total (s :: source)) (total [d]) = s.length := by
      rw [htotal] at hmin ⊢
      omega
    have hrest : (pieces source [d.drop s.length]).flatMap mix = [] := by
      rw [← List.length_eq_zero_iff, length_flatMap_mix]
      simp only [total_cons, total_nil, List.length_drop] at hall ⊢
      omega
    refine ⟨hall, hcount.symm, ?_⟩
    rw [hcount, pieces_of_le hle, List.flatMap_cons, hrest]
    simp
  · right
    refine ⟨hall, ?_⟩
    rw [htotal]
    omega

theorem outcome_empty (hle : s.length ≤ d.length)
    (hgo : dest = [] → copiedSize + s.length < last)
    (h : Outcome source (front ++ mix (s, d.take s.length)) (d.drop s.length) dest
      (copiedSize + s.length) last n dest') :
    Outcome (s :: source) front d dest copiedSize last (s.length + n) dest' := by
  have hcount : min (total (s :: source)) (total (d :: dest)) =
      s.length + min (total source) (total (d.drop s.length :: dest)) := by
    simp only [total_cons, List.length_drop]
    omega
  have hdrop : ∀ k, (d :: dest).flatten.drop (s.length + k) =
      (d.drop s.length :: dest).flatten.drop k := fun k => by
    rw [List.flatten_cons, List.flatten_cons, ← List.drop_drop,
      List.drop_append_of_le_length hle]
  unfold Outcome
  rw [runsOn_empty hle hgo, hcount]
  rcases h with ⟨hrun, hn, hbytes⟩ | ⟨hrun, hn⟩
  · left
    refine ⟨hrun, by rw [hn], ?_⟩
    rw [hbytes, pieces_of_le hle, List.flatMap_cons, hdrop]
    simp only [List.append_assoc]
  · exact .inr ⟨hrun, by omega⟩

/-! ### The loop -/

variable {fuel sourceOffset destinationOffset : Nat}

/-- A turn that fills an element of the destination. -/
theorem copyLoop_fill (hlt : d.length - destinationOffset < s.length - sourceOffset)
    (hin : destinationOffset ≤ d.length) :
    copyLoop (fuel + 1) (s :: source) sourceOffset (d :: dest) destinationOffset copiedSize =
      let room := d.length - destinationOffset
      let d := d.take destinationOffset ++
        mix ((s.drop sourceOffset).take room, d.drop destinationOffset)
      if goesOn (s :: source) dest (copiedSize + room) then
        (copyLoop fuel (s :: source) (sourceOffset + room) dest 0 (copiedSize + room)).map
          fun (n, dest) => (n, d :: dest)
      else some (copiedSize + room, d :: dest) := by
  have hlength : ((s.drop sourceOffset).take (d.length - destinationOffset)).length =
      d.length - destinationOffset :=
    List.length_take_of_le (by rw [List.length_drop]; exact Nat.le_of_lt hlt)
  have hmod := Nat.mod_le (d.length - destinationOffset) (2 ^ 32)
  have hall : (d.drop destinationOffset).take (d.length - destinationOffset) =
    d.drop destinationOffset := List.take_of_length_le (by rw [List.length_drop])
  have hwrite := write_piece (show destinationOffset +
    ((s.drop sourceOffset).take (d.length - destinationOffset)).length ≤ d.length by omega)
  rw [hlength, List.take_take, Nat.min_eq_left hmod, Nat.add_sub_cancel' hin, List.drop_length,
    List.append_nil, hall] at hwrite
  rw [copyLoop]
  simp only [gt_iff_lt, hlt, if_pos, hwrite, Option.bind_eq_bind, Option.bind_some]
  split_ifs
  · rw [Option.map_eq_bind]
    rfl
  · rfl

/-- A turn that comes to the end of an element of the source. -/
theorem copyLoop_empty (hle : s.length - sourceOffset ≤ d.length - destinationOffset)
    (hin : destinationOffset ≤ d.length) :
    copyLoop (fuel + 1) (s :: source) sourceOffset (d :: dest) destinationOffset copiedSize =
      let rest := s.length - sourceOffset
      let d := d.take destinationOffset ++
        mix (s.drop sourceOffset, (d.drop destinationOffset).take rest) ++
        d.drop (destinationOffset + rest)
      if goesOn source (d :: dest) (copiedSize + rest) then
        copyLoop fuel source 0 (d :: dest) (destinationOffset + rest) (copiedSize + rest)
      else some (copiedSize + rest, d :: dest) := by
  have hlength : (s.drop sourceOffset).length = s.length - sourceOffset := List.length_drop
  have hwrite := write_piece
    (show destinationOffset + (s.drop sourceOffset).length ≤ d.length by omega)
  rw [hlength] at hwrite
  rw [copyLoop]
  simp only [gt_iff_lt, Nat.not_lt.mpr hle, if_false, hwrite, Option.bind_eq_bind, Option.bind_some]

theorem copyLoop_spec (hfuel : source.length + dest.length < fuel)
    (hsource : sourceOffset ≤ s.length) (hdest : destinationOffset ≤ d.length)
    (hlive : Live (d.drop destinationOffset) dest copiedSize (lastSize (d :: dest))) :
    ∃ n dest',
      copyLoop fuel (s :: source) sourceOffset (d :: dest) destinationOffset copiedSize =
        some (copiedSize + n, dest') ∧
      dest'.map List.length = (d :: dest).map List.length ∧
      Outcome (s.drop sourceOffset :: source) (d.take destinationOffset)
        (d.drop destinationOffset) dest copiedSize (lastSize (d :: dest)) n dest' := by
  induction fuel generalizing s source sourceOffset d dest destinationOffset copiedSize with
  | zero => omega
  | succ fuel ih =>
    have hs : (s.drop sourceOffset).length = s.length - sourceOffset := List.length_drop
    have hd : (d.drop destinationOffset).length = d.length - destinationOffset := List.length_drop
    by_cases hlt : d.length - destinationOffset < s.length - sourceOffset
    · have hlt' : (d.drop destinationOffset).length < (s.drop sourceOffset).length := by omega
      have hlength : (d.take destinationOffset ++ mix ((s.drop sourceOffset).take
          (d.length - destinationOffset), d.drop destinationOffset)).length = d.length := by
        have htake : ((s.drop sourceOffset).take (d.length - destinationOffset)).length =
          d.length - destinationOffset := List.length_take_of_le (by omega)
        rw [List.length_append, length_mix (htake.trans hd.symm), htake,
          List.length_take_of_le hdest]
        omega
      rw [copyLoop_fill hlt hdest]
      simp only
      obtain ⟨d', hd'⟩ : ∃ d', d' = d.take destinationOffset ++ mix ((s.drop sourceOffset).take
        (d.length - destinationOffset), d.drop destinationOffset) := ⟨_, rfl⟩
      rw [← hd'] at hlength ⊢
      cases hgo : goesOn (s :: source) dest (copiedSize + (d.length - destinationOffset)) with
      | false =>
        refine ⟨d.length - destinationOffset, d' :: dest, if_neg Bool.false_ne_true, ?_, ?_⟩
        · rw [List.map_cons, List.map_cons, hlength]
        · rw [hd', ← hd]
          rcases (goesOn_eq_false (List.cons_ne_nil s source)).mp hgo with rfl | ⟨e, rfl, hstop⟩
          · exact outcome_filled hlt' hlive
          · exact outcome_fill_stop hlt' (by rw [hd]; exact hstop)
      | true =>
        obtain ⟨e, dest, rfl⟩ : ∃ e dest', dest = e :: dest' := by
          rcases dest with _ | ⟨e, dest⟩
          · cases hgo
          · exact ⟨e, dest, rfl⟩
        obtain ⟨n, dest', hloop, hsizes, hout⟩ := ih
          (show source.length + dest.length < fuel by simp only [List.length_cons] at hfuel; omega)
          (show sourceOffset + (d.length - destinationOffset) ≤ s.length by omega)
          (Nat.zero_le e.length) (live_of_goesOn hgo _)
        refine ⟨d.length - destinationOffset + n, d' :: dest', ?_, ?_, ?_⟩
        · rw [if_pos rfl, hloop, Option.map_some, Nat.add_assoc]
        · rw [List.map_cons, hlength, hsizes, List.map_cons (a := d)]
        · rw [hd']
          rw [← hd] at hout ⊢
          rw [← List.drop_drop, List.take_zero, List.drop_zero] at hout
          exact outcome_fill hlt' hout
    · have hle : s.length - sourceOffset ≤ d.length - destinationOffset := by omega
      have hle' : (s.drop sourceOffset).length ≤ (d.drop destinationOffset).length := by omega
      have hmix : (mix (s.drop sourceOffset,
          (d.drop destinationOffset).take (s.length - sourceOffset))).length =
          s.length - sourceOffset := by
        have htake : ((d.drop destinationOffset).take (s.length - sourceOffset)).length =
          s.length - sourceOffset := List.length_take_of_le (by omega)
        rw [length_mix (hs.trans htake.symm), hs]
      have hfront : (d.take destinationOffset ++ mix (s.drop sourceOffset,
          (d.drop destinationOffset).take (s.length - sourceOffset))).length =
          destinationOffset + (s.length - sourceOffset) := by
        rw [List.length_append, hmix, List.length_take_of_le hdest]
      rw [copyLoop_empty hle hdest]
      simp only
      obtain ⟨d', hd'⟩ : ∃ d', d' = d.take destinationOffset ++ mix (s.drop sourceOffset,
        (d.drop destinationOffset).take (s.length - sourceOffset)) ++
        d.drop (destinationOffset + (s.length - sourceOffset)) := ⟨_, rfl⟩
      have hlength : d'.length = d.length := by
        rw [hd', List.length_append, hfront, List.length_drop]
        omega
      have hlast : lastSize (d' :: dest) = lastSize (d :: dest) := by
        cases dest with
        | nil => exact hlength
        | cons e dest => rfl
      rw [← hd']
      cases hgo : goesOn source (d' :: dest) (copiedSize + (s.length - sourceOffset)) with
      | false =>
        refine ⟨s.length - sourceOffset, _, if_neg Bool.false_ne_true, ?_, ?_⟩
        · rw [List.map_cons, List.map_cons, hlength]
        · rw [hd', ← List.drop_drop, ← hs]
          by_cases hempty : source = []
          · subst hempty
            exact outcome_emptied hle' hlive
          · rcases (goesOn_eq_false hempty).mp hgo with h | ⟨e, h, hstop⟩
            · cases h
            · cases h
              refine outcome_empty_stop hle' hlive ?_
              rw [hs, ← hlast]
              exact hstop
      | true =>
        obtain ⟨s₂, source, rfl⟩ : ∃ e source', source = e :: source' := by
          rcases source with _ | ⟨e, source⟩
          · cases hgo
          · exact ⟨e, source, rfl⟩
        have hlive' := live_of_goesOn hgo (d'.drop (destinationOffset + (s.length - sourceOffset)))
        obtain ⟨n, dest', hloop, hsizes, hout⟩ := ih
          (show source.length + dest.length < fuel by simp only [List.length_cons] at hfuel; omega)
          (Nat.zero_le s₂.length) (by omega) hlive'
        refine ⟨s.length - sourceOffset + n, dest', ?_, ?_, ?_⟩
        · rw [if_pos rfl, hloop, Nat.add_assoc]
        · rw [hsizes, List.map_cons, List.map_cons, hlength]
        · have htake : d'.take (destinationOffset + (s.length - sourceOffset)) =
              d.take destinationOffset ++ mix (s.drop sourceOffset,
                (d.drop destinationOffset).take (s.length - sourceOffset)) := by
            rw [hd', List.take_left' hfront]
          have hdrop : d'.drop (destinationOffset + (s.length - sourceOffset)) =
              (d.drop destinationOffset).drop (s.length - sourceOffset) := by
            rw [hd', List.drop_left' hfront, List.drop_drop]
          rw [hlast, htake, hdrop, List.drop_zero, ← hs] at hout
          rw [← hs]
          refine outcome_empty hle' ?_ hout
          rintro rfl
          rw [hs, ← hlast]
          simpa [goesOn, lastSize] using hgo

/-! ### `Copy` -/

theorem copies_iff (hin : offset ≤ total (d :: dest)) :
    Copies (d :: dest) offset (s :: source) ↔ CopyCondition (s :: source) offset (d :: dest) := by
  unfold Copies CopyCondition copy
  by_cases hfirst : offset ≤ d.length
  swap
  · refine iff_of_false ?_ fun h => hfirst h.1
    rintro ⟨dest', hcopy, -⟩
    have hnone : ∀ x, Block.write d offset x = none := fun x => Block.write_eq_none (by omega)
    rw [List.length_cons, Nat.add_right_comm, copyLoop] at hcopy
    simp only [hnone, Option.bind_eq_bind, Option.bind_none, ite_self] at hcopy
    cases hcopy
  have hlive : Live (d.drop offset) dest 0 (lastSize (d :: dest)) := by
    rintro rfl
    rcases Nat.eq_zero_or_pos d.length with hd | hd
    · exact .inr (List.drop_eq_nil_of_le (by omega))
    · exact .inl hd
  obtain ⟨n, dest', hcopy, hsizes, hout⟩ := copyLoop_spec
    (show source.length + dest.length < (s :: source).length + (d :: dest).length by
      simp only [List.length_cons]; omega) (Nat.zero_le s.length) hfirst hlive
  rw [Nat.zero_add] at hcopy
  rw [List.drop_zero] at hout
  have hflat : (d.drop offset :: dest).flatten = (d :: dest).flatten.drop offset := by
    rw [List.flatten_cons, List.flatten_cons, List.drop_append_of_le_length hfirst]
  have hfront : (d :: dest).flatten.take offset = d.take offset := by
    rw [List.flatten_cons, List.take_append_of_le_length hfirst]
  have htotal : total (d.drop offset :: dest) = (d :: dest).flatten.length - offset := by
    rw [total, hflat, List.length_drop]
  have hcount : min (total (s :: source)) (total (d.drop offset :: dest)) =
      min (s :: source).flatten.length ((d :: dest).flatten.length - offset) := by
    rw [htotal, total]
  simp only [← hcount, hcopy, Option.some.injEq, Prod.mk.injEq]
  rw [and_iff_right hfirst]
  rcases hout with ⟨hrun, hn, hbytes⟩ | ⟨hrun, hn⟩
  · have hpieces : (pieces (s :: source) (d.drop offset :: dest)).flatMap mix =
        (s :: source).flatten.take (min (total (s :: source)) (total (d.drop offset :: dest))) ↔
        ∀ p ∈ pieces (s :: source) (d.drop offset :: dest), Moved p := by
      rw [total, Nat.min_comm, ← List.take_eq_take_min, ← flatMap_fst_pieces, flatMap_eq_iff]
      · exact forall₂_congr fun p _ => mix_eq_iff p
      · exact fun p hp => length_mix (length_eq_of_mem_pieces hp)
    have htake : ((s :: source).flatten.take (min (total (s :: source))
        (total (d.drop offset :: dest)))).length =
        min (total (s :: source)) (total (d.drop offset :: dest)) :=
      List.length_take_of_le (Nat.min_le_left ..)
    rw [and_iff_right hrun, ← hpieces]
    constructor
    · rintro ⟨_, ⟨-, rfl⟩, -, hholds⟩
      rw [hbytes, overwrite, htake, hflat, hfront, List.drop_drop] at hholds
      exact List.append_cancel_left (List.append_cancel_right hholds)
    · intro h
      refine ⟨dest', ⟨hn, rfl⟩, hsizes, ?_⟩
      rw [hbytes, h, overwrite, htake, hflat, hfront, List.drop_drop]
  · refine iff_of_false ?_ fun h => hrun h.1
    rintro ⟨_, ⟨hn', -⟩, -⟩
    omega

/-- For a range inside of the chain: an access to a chain is one to the bytes of its elements, put
together, exactly when it starts in the first element, and for `Copy` under its own condition. -/
theorem oneBuffer_iff (hin : offset + buffer.length ≤ total (d :: dest)) :
    (Gets (d :: dest) offset buffer.length ↔ offset ≤ d.length) ∧
    (Sets (d :: dest) offset buffer ↔ offset ≤ d.length) ∧
    (Copies (d :: dest) offset (s :: source) ↔ CopyCondition (s :: source) offset (d :: dest)) :=
  ⟨gets_iff hin, sets_iff hin, copies_iff (le_trans (Nat.le_add_right ..) hin)⟩

theorem oneBuffer_sample :
    (Gets [[1, 2], [3]] 1 ([4, 5] : List UInt8).length ↔ 1 ≤ ([1, 2] : List UInt8).length) ∧
    (Sets [[1, 2], [3]] 1 [4, 5] ↔ 1 ≤ ([1, 2] : List UInt8).length) ∧
    (Copies [[1, 2], [3]] 1 [[6], [7]] ↔ CopyCondition [[6], [7]] 1 [[1, 2], [3]]) :=
  oneBuffer_iff (show 1 + 2 ≤ 3 by decide)

/-- The loop stops in front of the last element, which is no larger than what has been copied. -/
theorem not_copies_sample : ¬Copies [[0], [0]] 0 [[1, 2]] := by
  rintro ⟨dest', hcopy, -⟩
  rw [show copy [[0], [0]] 0 [[1, 2]] = some (1, [[1], [0]]) by decide] at hcopy
  cases hcopy

-- an offset in the second element
example : getBuffer [[1, 2], [3, 4]] 3 1 = none := by decide

end Thunder.Core.LinkedDataElement
