import Thunder.Library.Loop
import Mathlib.Tactic.SplitIfs

/-! `ParserType`: the parser that cuts a stream into words and lines for a handler, and passes bytes of
it through where the handler asks for that. -/

namespace Thunder.Core

/-- The parser, with the bits of `_state`.  `wordEnds` is the bit SPLITCHAR and `splitChar` the
character. -/
structure ParserType (τ : Type*) where
  skipWhitespace : Bool
  wordCapture : Bool
  quoted : Bool
  escaped : Bool
  flushLine : Bool
  externalPass : Bool
  upperCase : Bool
  lowerCase : Bool
  wordEnds : Bool
  parseStop : Bool
  wasQuoted : Bool
  singleQuoted : Bool
  byteCounter : UInt32
  buffer : List UInt8
  splitChar : UInt8
  terminator : τ

namespace ParserType

/-- What a handler can ask of its parser while it is called. -/
inductive Command
  | reset
  | collectWord (splitChar : Option UInt8) (upper lower : Bool)
  | collectLine (upper lower : Bool)
  | flushLine
  | passThrough (passThroughBytes : UInt32)
  deriving DecidableEq

/-- A TEXTTERMINATOR: what `IsTerminated` answers, and its state behind that. -/
structure Terminator (τ : Type*) where
  isTerminated : τ → UInt8 → UInt8 × τ

/-- A HANDLER with states `η`: what its members do to its state, and what they ask of the parser.  Not
every handler has `Complete`. -/
structure Handler (η : Type*) where
  parse : η → List UInt8 → Bool → η × List Command
  parseStream : η → List UInt8 → η × List Command × Bool
  endOfLine : η → η × List Command
  endOfPassThrough : η → η × List Command
  complete : Option (η → List UInt8 → UInt8 → Bool)

/-- What the handler is called with. -/
inductive Callback
  | text (buffer : List UInt8) (quoted : Bool)
  | stream (bytes : List UInt8)
  | endOfLine
  | endOfPassThrough
  deriving DecidableEq

/-- `TerminatorCarriageReturnLineFeed`, with its `_triggered`. -/
def carriageReturnLineFeed : Terminator UInt8 where
  isTerminated triggered character :=
    if triggered &&& 0x03 = 0x00 then
      let triggered := (if character = 0x0A then 0x01 else 0x00) |||
        (if character = 0x0D then 0x02 else 0x00)
      (if triggered &&& 0x03 ≠ 0 then 0x40 else 0x00, triggered)
    else
      let triggered := triggered |||
        ((if character = 0x0A then 0x04 else 0x00) ||| (if character = 0x0D then 0x08 else 0x00))
      if triggered = 0x09 ∨ triggered = 0x06 then (0x81, 0)
      else if triggered = 0x10 ∨ triggered = 0x20 then (0x00, 0)
      else (0x40, triggered &&& 0x03)

variable {τ η : Type*} (t : Terminator τ) (h : Handler η)

def new (terminator : τ) : ParserType τ :=
  ⟨true, true, false, false, false, false, false, false, false, false, false, false, 0, [], 0,
    terminator⟩

/-! ### The methods for the handler -/

def reset (p : ParserType τ) : ParserType τ :=
  { new p.terminator with buffer := p.buffer }

def apply (p : ParserType τ) : Command → ParserType τ
  | .reset => p.reset
  | .collectWord split upper lower =>
    { p with
      wordCapture := true, upperCase := upper, lowerCase := lower
      wordEnds := split.isSome, splitChar := split.getD p.splitChar }
  | .collectLine upper lower =>
    { p with wordCapture := false, upperCase := upper, lowerCase := lower, wordEnds := false }
  | .flushLine => { p with flushLine := true }
  | .passThrough bytes =>
    { p with externalPass := true, skipWhitespace := true, byteCounter := bytes }

/-! ### One byte -/

/-- `toupper` and `tolower` of the character, as the case state asks. -/
def convert (p : ParserType τ) (b : UInt8) : UInt8 :=
  if p.upperCase then if 0x61 ≤ b ∧ b ≤ 0x7A then b - 0x20 else b
  else if p.lowerCase then if 0x41 ≤ b ∧ b ≤ 0x5A then b + 0x20 else b
  else b

/-- A space or a tab. -/
def isBlank (b : UInt8) : Bool := b = 0x20 ∨ b = 0x09

/-- The parser and its handler. -/
structure Pair (τ η : Type*) where
  parser : ParserType τ
  handler : η

namespace Pair

variable (s : Pair τ η)

/-- The handler has been called: its state, and what it asked for. -/
def called (r : η × List Command) : Pair τ η := ⟨r.2.foldl apply s.parser, r.1⟩

/-- `__Complete` -/
def complete (character : UInt8) : Bool :=
  match h.complete with
  | some complete => complete s.handler s.parser.buffer character
  | none => s.parser.wordEnds && character = s.parser.splitChar

def parse (quoted : Bool) : Pair τ η × List Callback :=
  (s.called (h.parse s.handler s.parser.buffer quoted), [.text s.parser.buffer quoted])

def endOfLine : Pair τ η × List Callback := (s.called (h.endOfLine s.handler), [.endOfLine])

def endOfPassThrough : Pair τ η × List Callback :=
  (s.called (h.endOfPassThrough s.handler), [.endOfPassThrough])

def append (character : UInt8) : Pair τ η :=
  { s with parser := { s.parser with buffer := s.parser.buffer ++ [character] } }

def count : Pair τ η :=
  { s with parser := { s.parser with byteCounter := s.parser.byteCounter + 1 } }

/-- A quotation mark. -/
def quote (character : UInt8) : Pair τ η × List Callback :=
  if s.parser.quoted then
    if (s.parser.singleQuoted ∧ character = 0x27) ∨ (¬s.parser.singleQuoted ∧ character = 0x22) then
      ({ s with parser := { s.parser with quoted := false, wasQuoted := true } }, [])
    else (s.append character, [])
  else
    let (s, out) :=
      if s.complete h character then
        let (s, out) := s.parse h false
        ({ s with parser := { s.parser with buffer := [] } }, out)
      else (s, [])
    if s.parser.buffer = [] then
      ({ s with parser := { s.parser with
          quoted := true, singleQuoted := s.parser.singleQuoted || character = 0x27 } }, out)
    else (s.append character, out)

/-- The end of a line. -/
def endLine : Pair τ η × List Callback :=
  let s := { s with parser := { s.parser with byteCounter := 0 } }
  let (s, text) := s.parse h s.parser.wasQuoted
  let s := { s with parser := { s.parser with wasQuoted := false, singleQuoted := false } }
  let (s, line) := s.endOfLine h
  ({ s with parser := { s.parser with skipWhitespace := true, buffer := [] } }, text ++ line)

/-- A word that there is goes to the handler. -/
def giveWord : Pair τ η × List Callback :=
  if s.parser.buffer ≠ [] ∨ s.parser.wasQuoted then
    let (s, out) := s.parse h s.parser.wasQuoted
    ({ s with parser := { s.parser with buffer := [], wasQuoted := false, singleQuoted := false } },
      out)
  else (s, [])

/-- The next word begins with the character, or behind the blanks that follow it. -/
def startWord (character : UInt8) : Pair τ η :=
  if s.parser.splitChar ≠ character ∧ ¬isBlank character ∧ character ≠ 0x0D then
    { s with parser := { s.parser with buffer := [character] } }
  else { s with parser := { s.parser with skipWhitespace := true } }

/-- A character that ends a word. -/
def endWord (character : UInt8) : Pair τ η × List Callback :=
  if s.parser.wordCapture then
    let (s, out) := (if s.parser.splitChar = character then s.append character else s).giveWord h
    ((s.startWord character).count, out)
  else ((s.append character).count, [])

/-- A byte in the loop that collects words and lines. -/
def takeWord (b : UInt8) : Pair τ η × List Callback :=
  let character := s.parser.convert b
  if s.parser.escaped then
    (append { s with parser := { s.parser with escaped := false } } character, [])
  else if character = 0x5C then
    (append { s with parser := { s.parser with escaped := true } } character, [])
  else if character = 0x22 ∨ character = 0x27 then s.quote h character
  else if s.parser.quoted then (s.append character, [])
  else
    let (terminated, terminator) := t.isTerminated s.parser.terminator character
    let s := { s with parser := { s.parser with terminator := terminator } }
    if terminated &&& 0x80 = 0x80 then s.endLine h
    else if terminated &&& 0x40 ≠ 0x40 then
      if isBlank b ∨ b = 0x0D ∨ s.complete h character then s.endWord h character
      else ((s.append character).count, [])
    else (s, [])

/-- A byte in the loop that skips a line. -/
def takeFlush (b : UInt8) : Pair τ η × List Callback :=
  let (terminated, terminator) := t.isTerminated s.parser.terminator b
  let s := { s with parser := { s.parser with terminator := terminator } }
  if terminated &&& 0x80 = 0x80 then
    endOfLine h { s with parser := { s.parser with flushLine := false, skipWhitespace := true } }
  else (s, [])

/-- A block that is passed through: what is left of the stream behind it. -/
def takeBlock (stream : List UInt8) : Pair τ η × List UInt8 × List Callback :=
  let block := stream.take s.parser.byteCounter.toNat
  let (handler, commands, proceed) := h.parseStream s.handler block
  let s := s.called (handler, commands)
  if proceed then
    let left := s.parser.byteCounter - UInt32.ofNat block.length
    let s := { s with parser := { s.parser with byteCounter := left } }
    if left = 0 then
      let (s, out) := endOfPassThrough h { s with parser := { s.parser with externalPass := false } }
      (s, stream.drop block.length, .stream block :: out)
    else (s, stream.drop block.length, [.stream block])
  else
    let (s, out) := s.endOfPassThrough h
    let stopped := { new s.parser.terminator with
      skipWhitespace := false, wordCapture := false, parseStop := true
      buffer := s.parser.buffer, splitChar := s.parser.splitChar }
    ({ s with parser := stopped }, stream, .stream block :: out)

end Pair

/-! ### The loops of `Deserialize` -/

/-- The loop that the program is in. -/
inductive Place
  | pass
  | flush
  | skip
  | word
  deriving DecidableEq

/-- A call of `Deserialize` under way, with what is left of its stream. -/
structure Feed (τ η : Type*) where
  place : Place
  pair : Pair τ η
  stream : List UInt8

/-- A step of the innermost loop, or to the loop that is next.  Without bytes all loops end. -/
def next (f : Feed τ η) : Option (Feed τ η × List Callback) :=
  match f.stream with
  | [] => none
  | b :: rest =>
    match f.place with
    | .pass =>
      if f.pair.parser.externalPass then
        let (pair, stream, out) := f.pair.takeBlock h f.stream
        some (⟨.pass, pair, stream⟩, out)
      else if f.pair.parser.parseStop then none
      else some ({ f with place := .flush }, [])
    | .flush =>
      if f.pair.parser.flushLine then
        let (pair, out) := f.pair.takeFlush t h b
        some (⟨.flush, pair, rest⟩, out)
      else some ({ f with place := .skip }, [])
    | .skip =>
      if f.pair.parser.skipWhitespace then
        if isBlank b then some ({ f with pair := f.pair.count, stream := rest }, [])
        else
          some ({ f with pair :=
            { f.pair with parser := { f.pair.parser with skipWhitespace := false } }.count }, [])
      else some ({ f with place := .word }, [])
    | .word =>
      if f.pair.parser.skipWhitespace then some ({ f with place := .pass }, [])
      else
        let (pair, out) := f.pair.takeWord t h b
        some (⟨.word, pair, rest⟩, out)

/-- `Deserialize`; the stream that is left is what it has not consumed. -/
def deserialize (fuel : Nat) (s : Pair τ η) (stream : List UInt8) :
    Option (Feed τ η × List Callback) :=
  Loop.run (next t h) fuel ⟨.pass, s, stream⟩

/-- Calls for the chunks of a stream; `none` also where a call does not consume its chunk. -/
def deserializeAll (fuel : Nat) : Pair τ η → List (List UInt8) → Option (Pair τ η × List Callback)
  | s, [] => some (s, [])
  | s, chunk :: chunks => do
    let (f, out) ← deserialize t h fuel s chunk
    if f.stream = [] then
      let (s', more) ← deserializeAll fuel f.pair chunks
      return (s', out ++ more)
    else none

/-! ### What is wanted -/

/-- A callback, with the bytes that are passed through one by one. -/
def Callback.pieces : Callback → List Callback
  | .stream bytes => bytes.map fun b => .stream [b]
  | callback => [callback]

/-- The same callbacks, but for the blocks that bytes are passed through in. -/
def Same (out out' : List Callback) : Prop :=
  out.flatMap Callback.pieces = out'.flatMap Callback.pieces

/-- The calls for the chunks end, consume every byte and make the callbacks of one call. -/
def Independent (s : Pair τ η) (chunks : List (List UInt8)) : Prop :=
  ∃ fuel s' out f out', deserializeAll t h fuel s chunks = some (s', out) ∧
    deserialize t h fuel s chunks.flatten = some (f, out') ∧ f.stream = [] ∧ Same out out'

/-! ### When it is so -/

/-- The handler accepts the bytes that are passed through, and does not see how they are cut. -/
structure Handler.Blockwise : Prop where
  quiet : ∀ s block, (h.parseStream s block).2 = ([], true)
  append : ∀ s block block', (h.parseStream s (block ++ block')).1 =
    (h.parseStream (h.parseStream s block).1 block').1

/-- The pass-through that is asked for, behind one more command. -/
def request (r : Option UInt32) : Command → Option UInt32
  | .passThrough bytes => some bytes
  | .reset => none
  | _ => r

def requested (commands : List Command) : Option UInt32 := commands.foldl request none

/-- At the end of a pass-through the handler asks for one of no bytes only so often. -/
inductive Handler.Settles : η → Prop
  | stop {s : η} : requested (h.endOfPassThrough s).2 ≠ some 0 → Settles s
  | again {s : η} : Settles (h.parseStream (h.endOfPassThrough s).1 []).1 → Settles s

/-- A call can end here: no pass-through and no line to be skipped waits for the end of the other
loops. -/
def Feed.Aligned (f : Feed τ η) : Prop :=
  match f.place with
  | .pass => True
  | .flush => f.pair.parser.externalPass = false
  | .skip => f.pair.parser.externalPass = false ∧ f.pair.parser.flushLine = false
  | .word => f.pair.parser.skipWhitespace = true ∨
      f.pair.parser.externalPass = false ∧ f.pair.parser.flushLine = false

instance (f : Feed τ η) : Decidable f.Aligned := by
  rw [Feed.Aligned]
  cases f.place <;> infer_instance

/-- Every chunk with bytes behind it ends where a call can end. -/
def Edges : Pair τ η → List (List UInt8) → Prop
  | _, [] => True
  | s, chunk :: chunks => ∀ fuel f out, deserialize t h fuel s chunk = some (f, out) →
      (chunks.flatten ≠ [] → f.Aligned) ∧ Edges f.pair chunks

/-! ### Nothing but a refused block stops the parser -/

section

variable {t h} {s s' : Pair τ η} {f f' g : Feed τ η} {out out' : List Callback} {b : UInt8}
  {stream : List UInt8}

theorem apply_parseStop {p : ParserType τ} (command : Command) (hp : p.parseStop = false) :
    (p.apply command).parseStop = false := by
  cases command
  case reset => rfl
  all_goals exact hp

namespace Pair

theorem called_parseStop (r : η × List Command) (hs : s.parser.parseStop = false) :
    (s.called r).parser.parseStop = false := by
  obtain ⟨handler, commands⟩ := r
  show (commands.foldl apply s.parser).parseStop = false
  generalize s.parser = p at hs ⊢
  induction commands generalizing p with
  | nil => exact hs
  | cons command commands ih => exact ih _ (apply_parseStop command hs)

theorem parse_parseStop (quoted : Bool) (hs : s.parser.parseStop = false) :
    (s.parse h quoted).1.parser.parseStop = false := called_parseStop _ hs

theorem endOfLine_parseStop (hs : s.parser.parseStop = false) :
    (s.endOfLine h).1.parser.parseStop = false := called_parseStop _ hs

theorem endOfPassThrough_parseStop (hs : s.parser.parseStop = false) :
    (s.endOfPassThrough h).1.parser.parseStop = false := called_parseStop _ hs

theorem quote_parseStop (hs : s.parser.parseStop = false) :
    (s.quote h b).1.parser.parseStop = false := by
  have hparse : (s.parse h false).1.parser.parseStop = false := parse_parseStop false hs
  rw [quote]
  split_ifs <;> simp only [append] <;> first | exact hs | skip
  all_goals split_ifs <;> first | exact hs | exact hparse

theorem endLine_parseStop (hs : s.parser.parseStop = false) :
    (s.endLine h).1.parser.parseStop = false := by
  rw [endLine]
  apply endOfLine_parseStop (s := { parser := _, handler := _ })
  exact parse_parseStop (s := { s with parser := { s.parser with byteCounter := 0 } }) _ hs

theorem giveWord_parseStop (hs : s.parser.parseStop = false) :
    (s.giveWord h).1.parser.parseStop = false := by
  rw [giveWord]
  split_ifs
  · exact parse_parseStop (s := s) _ hs
  · exact hs

theorem startWord_parseStop (hs : s.parser.parseStop = false) :
    (s.startWord b).parser.parseStop = false := by
  rw [startWord]
  split_ifs <;> exact hs

theorem endWord_parseStop (hs : s.parser.parseStop = false) :
    (s.endWord h b).1.parser.parseStop = false := by
  rw [endWord]
  split_ifs
  · exact startWord_parseStop (giveWord_parseStop hs)
  · exact startWord_parseStop (giveWord_parseStop hs)
  · exact hs

theorem takeWord_parseStop (hs : s.parser.parseStop = false) :
    (s.takeWord t h b).1.parser.parseStop = false := by
  rw [takeWord]
  split_ifs
  · exact hs
  · exact hs
  · exact quote_parseStop hs
  · exact hs
  · simp only
    split_ifs
    · exact endLine_parseStop hs
    · exact endWord_parseStop hs
    · exact hs
    · exact hs

theorem takeFlush_parseStop (hs : s.parser.parseStop = false) :
    (s.takeFlush t h b).1.parser.parseStop = false := by
  rw [takeFlush]
  simp only
  split_ifs
  · exact endOfLine_parseStop (s := { parser := _, handler := s.handler }) hs
  · exact hs

/-! ### Blocks -/

/-- The pair behind a block that the handler has accepted. -/
def passed (h : Handler η) (s : Pair τ η) (block : List UInt8) : Pair τ η :=
  ⟨{ s.parser with byteCounter := s.parser.byteCounter - UInt32.ofNat block.length },
    (h.parseStream s.handler block).1⟩

/-- The end of the pass-through, when no bytes are left of it. -/
def settle (h : Handler η) (s : Pair τ η) : Pair τ η × List Callback :=
  if s.parser.byteCounter = 0 then
    endOfPassThrough h { s with parser := { s.parser with externalPass := false } }
  else (s, [])

theorem takeBlock_eq (hb : h.Blockwise) (s : Pair τ η) (stream : List UInt8) :
    s.takeBlock h stream =
      (((s.passed h (stream.take s.parser.byteCounter.toNat)).settle h).1,
        stream.drop s.parser.byteCounter.toNat,
        .stream (stream.take s.parser.byteCounter.toNat) ::
          ((s.passed h (stream.take s.parser.byteCounter.toNat)).settle h).2) := by
  have hquiet := hb.quiet s.handler (stream.take s.parser.byteCounter.toNat)
  have hdrop : stream.drop (stream.take s.parser.byteCounter.toNat).length =
      stream.drop s.parser.byteCounter.toNat := by
    rw [List.length_take]
    rcases Nat.le_total s.parser.byteCounter.toNat stream.length with hle | hle
    · rw [Nat.min_eq_left hle]
    · rw [Nat.min_eq_right hle, List.drop_length, List.drop_of_length_le hle]
  by_cases hzero : (s.passed h (stream.take s.parser.byteCounter.toNat)).parser.byteCounter = 0
  · rw [settle, if_pos hzero, takeBlock]
    simp only [hquiet, if_true, hdrop, called, List.foldl_nil]
    rw [if_pos (show s.parser.byteCounter - _ = 0 from hzero)]
    rfl
  · rw [settle, if_neg hzero, takeBlock]
    simp only [hquiet, if_true, hdrop, called, List.foldl_nil]
    rw [if_neg (show ¬s.parser.byteCounter - _ = 0 from hzero)]
    rfl

theorem ofNat_length_toNat {n : UInt32} {block : List UInt8} (hle : block.length ≤ n.toNat) :
    (UInt32.ofNat block.length).toNat = block.length := by
  rw [UInt32.toNat_ofNat']
  exact Nat.mod_eq_of_lt (Nat.lt_of_le_of_lt hle n.toNat_lt)

theorem passed_byteCounter {block : List UInt8} (hle : block.length ≤ s.parser.byteCounter.toNat) :
    (s.passed h block).parser.byteCounter.toNat = s.parser.byteCounter.toNat - block.length := by
  have hlength := ofNat_length_toNat hle
  rw [passed, UInt32.toNat_sub_of_le]
  · rw [hlength]
  · rwa [UInt32.le_iff_toNat_le, hlength]

theorem passed_append (hb : h.Blockwise) (block block' : List UInt8)
    (hle : block.length + block'.length ≤ s.parser.byteCounter.toNat) :
    s.passed h (block ++ block') = (s.passed h block).passed h block' := by
  have hcounter : ((s.passed h (block ++ block')).parser.byteCounter) =
      ((s.passed h block).passed h block').parser.byteCounter := by
    apply UInt32.toNat_inj.mp
    rw [passed_byteCounter (by rw [List.length_append]; exact hle), passed_byteCounter,
      passed_byteCounter, List.length_append, Nat.sub_sub]
    · omega
    · rw [passed_byteCounter (by omega)]
      omega
  rw [passed, passed, passed, hb.append]
  rw [passed, passed, passed] at hcounter
  simp only at hcounter ⊢
  rw [hcounter]

/-- A block that the stream cannot fill, and more bytes behind it. -/
theorem takeBlock_append (hb : h.Blockwise) (more : List UInt8)
    (hlt : stream.length < s.parser.byteCounter.toNat) :
    ∃ s₁ block out, s.takeBlock h stream = (s₁, [], [.stream stream]) ∧
      s₁.parser.externalPass = s.parser.externalPass ∧
      s₁.takeBlock h more = ((s.takeBlock h (stream ++ more)).1,
        (s.takeBlock h (stream ++ more)).2.1, .stream block :: out) ∧
      (s.takeBlock h (stream ++ more)).2.2 = .stream (stream ++ block) :: out := by
  have htake : stream.take s.parser.byteCounter.toNat = stream := List.take_of_length_le
    (Nat.le_of_lt hlt)
  have hdrop : stream.drop s.parser.byteCounter.toNat = [] := List.drop_of_length_le
    (Nat.le_of_lt hlt)
  have hleft := passed_byteCounter (h := h) (Nat.le_of_lt hlt)
  have hnonzero : (s.passed h stream).parser.byteCounter ≠ 0 := by
    intro hzero
    rw [hzero, UInt32.toNat_zero] at hleft
    omega
  have hall : (stream ++ more).take s.parser.byteCounter.toNat =
      stream ++ more.take (s.passed h stream).parser.byteCounter.toNat := by
    rw [List.take_append, htake, hleft]
  have hrest : (stream ++ more).drop s.parser.byteCounter.toNat =
      more.drop (s.passed h stream).parser.byteCounter.toNat := by
    rw [List.drop_append, hdrop, List.nil_append, hleft]
  have hpassed := passed_append (s := s) hb stream
    (more.take (s.passed h stream).parser.byteCounter.toNat) (by
      rw [List.length_take, hleft]
      omega)
  have hfirst : s.takeBlock h stream = (s.passed h stream, [], [.stream stream]) := by
    rw [takeBlock_eq hb, htake, hdrop, settle, if_neg hnonzero]
  refine ⟨s.passed h stream, more.take (s.passed h stream).parser.byteCounter.toNat,
    (((s.passed h stream).passed h (more.take (s.passed h stream).parser.byteCounter.toNat)).settle h).2,
    hfirst, rfl, ?_, ?_⟩
  · rw [takeBlock_eq hb (s.passed h stream) more, takeBlock_eq hb s (stream ++ more), hall, hrest,
      hpassed]
  · rw [takeBlock_eq hb s (stream ++ more), hall, hpassed]

theorem settle_parseStop (hs : s.parser.parseStop = false) :
    (s.settle h).1.parser.parseStop = false := by
  rw [settle]
  split_ifs
  · exact endOfPassThrough_parseStop (s := { parser := _, handler := s.handler }) hs
  · exact hs

theorem takeBlock_parseStop (hb : h.Blockwise) (stream : List UInt8)
    (hs : s.parser.parseStop = false) :
    (s.takeBlock h stream).1.parser.parseStop = false := by
  rw [takeBlock_eq hb]
  exact settle_parseStop hs

theorem apply_requested {p : ParserType τ} {r : Option UInt32} (commands : List Command)
    (hpass : p.externalPass = r.isSome) (hbytes : ∀ n, r = some n → p.byteCounter = n) :
    (commands.foldl apply p).externalPass = (commands.foldl request r).isSome ∧
      ∀ n, commands.foldl request r = some n → (commands.foldl apply p).byteCounter = n := by
  induction commands generalizing p r with
  | nil => exact ⟨hpass, hbytes⟩
  | cons command commands ih =>
    apply ih
    · cases command
      case reset => rfl
      case passThrough => rfl
      all_goals exact hpass
    · intro n hn
      cases command
      case reset => cases (show none = some n from hn)
      case passThrough => exact Option.some.inj hn
      all_goals exact hbytes n hn

/-- A pass-through of no bytes that is over: what was asked for at its end. -/
theorem takeBlock_empty (hb : h.Blockwise) (stream : List UInt8)
    (hzero : s.parser.byteCounter = 0) :
    ∃ s₁ out, s.takeBlock h stream = (s₁, stream, out) ∧
      s₁.handler = (h.endOfPassThrough (h.parseStream s.handler []).1).1 ∧
      s₁.parser.externalPass = (requested (h.endOfPassThrough
        (h.parseStream s.handler []).1).2).isSome ∧
      ∀ n, requested (h.endOfPassThrough (h.parseStream s.handler []).1).2 = some n →
        s₁.parser.byteCounter = n := by
  have hempty : stream.take s.parser.byteCounter.toNat = [] := by
    rw [hzero, UInt32.toNat_zero, List.take_zero]
  have hleft : (s.passed h []).parser.byteCounter = 0 := by
    rw [passed, hzero]
    rfl
  obtain ⟨hpass, hbytes⟩ := apply_requested
    (p := { (s.passed h []).parser with externalPass := false }) (r := none)
    (h.endOfPassThrough (h.parseStream s.handler []).1).2 rfl nofun
  rw [takeBlock_eq hb, hempty, hzero, UInt32.toNat_zero, List.drop_zero, settle, if_pos hleft]
  exact ⟨_, _, rfl, rfl, hpass, hbytes⟩

end Pair

/-! ### The end of a call -/

theorem next_nil (place : Place) (s : Pair τ η) : next t h ⟨place, s, []⟩ = none := rfl

theorem next_block (hpass : s.parser.externalPass = true) :
    next t h ⟨.pass, s, b :: stream⟩ =
      some (⟨.pass, (s.takeBlock h (b :: stream)).1, (s.takeBlock h (b :: stream)).2.1⟩,
        (s.takeBlock h (b :: stream)).2.2) := by
  simp [next, hpass]

theorem next_pass (hpass : s.parser.externalPass = false) (hgo : s.parser.parseStop = false) :
    next t h ⟨.pass, s, b :: stream⟩ = some (⟨.flush, s, b :: stream⟩, []) := by
  simp [next, hpass, hgo]

theorem next_flush (hflush : s.parser.flushLine = true) :
    next t h ⟨.flush, s, b :: stream⟩ =
      some (⟨.flush, (s.takeFlush t h b).1, stream⟩, (s.takeFlush t h b).2) := by
  simp [next, hflush]

theorem next_flushed (hflush : s.parser.flushLine = false) :
    next t h ⟨.flush, s, b :: stream⟩ = some (⟨.skip, s, b :: stream⟩, []) := by
  simp [next, hflush]

theorem next_blank (hskip : s.parser.skipWhitespace = true) (hblank : isBlank b = true) :
    next t h ⟨.skip, s, b :: stream⟩ = some (⟨.skip, s.count, stream⟩, []) := by
  simp [next, hskip, hblank]

theorem next_skipped (hskip : s.parser.skipWhitespace = true) (hblank : isBlank b = false) :
    next t h ⟨.skip, s, b :: stream⟩ =
      some (⟨.skip, { s with parser := { s.parser with skipWhitespace := false } }.count,
        b :: stream⟩, []) := by
  simp [next, hskip, hblank]

theorem next_text (hskip : s.parser.skipWhitespace = false) :
    next t h ⟨.skip, s, b :: stream⟩ = some (⟨.word, s, b :: stream⟩, []) := by
  simp [next, hskip]

theorem next_word (hskip : s.parser.skipWhitespace = false) :
    next t h ⟨.word, s, b :: stream⟩ =
      some (⟨.word, (s.takeWord t h b).1, stream⟩, (s.takeWord t h b).2) := by
  simp [next, hskip]

theorem next_around (hskip : s.parser.skipWhitespace = true) :
    next t h ⟨.word, s, b :: stream⟩ = some (⟨.pass, s, b :: stream⟩, []) := by
  simp [next, hskip]

/-- The call ends, with all bytes consumed. -/
def Ends (t : Terminator τ) (h : Handler η) (f : Feed τ η) : Prop :=
  ∃ out f', Loop.Runs (next t h) f out f' ∧ f'.stream = [] ∧ f'.pair.parser.parseStop = false

theorem ends_of_next (hnext : next t h f = some (f', out)) (hends : Ends t h f') : Ends t h f := by
  obtain ⟨more, g, hruns, hg⟩ := hends
  exact ⟨_, g, .step hnext hruns, hg⟩

section

variable (hshort : ∀ place (s : Pair τ η) (shorter : List UInt8), shorter.length ≤ stream.length →
  s.parser.parseStop = false → Ends t h ⟨place, s, shorter⟩)

include hshort

theorem word_ends (hgo : s.parser.parseStop = false) (hskip : s.parser.skipWhitespace = false) :
    Ends t h ⟨.word, s, b :: stream⟩ :=
  ends_of_next (next_word hskip) (hshort _ _ _ (Nat.le_refl _) (Pair.takeWord_parseStop hgo))

theorem text_ends (hgo : s.parser.parseStop = false) (hskip : s.parser.skipWhitespace = false) :
    Ends t h ⟨.skip, s, b :: stream⟩ :=
  ends_of_next (next_text hskip) (word_ends hshort hgo hskip)

theorem skip_ends (hgo : s.parser.parseStop = false) : Ends t h ⟨.skip, s, b :: stream⟩ := by
  cases hskip : s.parser.skipWhitespace with
  | false => exact text_ends hshort hgo hskip
  | true =>
    cases hblank : isBlank b with
    | true => exact ends_of_next (next_blank hskip hblank) (hshort _ _ _ (Nat.le_refl _) hgo)
    | false => exact ends_of_next (next_skipped hskip hblank) (text_ends hshort hgo rfl)

theorem flush_ends (hgo : s.parser.parseStop = false) : Ends t h ⟨.flush, s, b :: stream⟩ := by
  cases hflush : s.parser.flushLine with
  | false => exact ends_of_next (next_flushed hflush) (skip_ends hshort hgo)
  | true =>
    exact ends_of_next (next_flush hflush) (hshort _ _ _ (Nat.le_refl _)
      (Pair.takeFlush_parseStop hgo))

theorem unpassed_ends (hgo : s.parser.parseStop = false) (hpass : s.parser.externalPass = false) :
    Ends t h ⟨.pass, s, b :: stream⟩ :=
  ends_of_next (next_pass hpass hgo) (flush_ends hshort hgo)

theorem block_ends (hb : h.Blockwise) (hgo : s.parser.parseStop = false)
    (hpass : s.parser.externalPass = true) (hsome : s.parser.byteCounter ≠ 0) :
    Ends t h ⟨.pass, s, b :: stream⟩ := by
  have hpos : s.parser.byteCounter.toNat ≠ 0 := fun hz => hsome (UInt32.toNat_inj.mp hz)
  refine ends_of_next (next_block hpass) (hshort _ _ _ ?_ ?_)
  · rw [Pair.takeBlock_eq hb, List.length_drop, List.length_cons]
    omega
  · exact Pair.takeBlock_parseStop hb _ hgo

/-- The loop that passes blocks through, by induction on the pass-throughs of no bytes that follow one
another. -/
theorem empty_ends (hb : h.Blockwise) (hgo : s.parser.parseStop = false)
    (hpass : s.parser.externalPass = true) (hzero : s.parser.byteCounter = 0)
    (hsettles : h.Settles (h.parseStream s.handler []).1) : Ends t h ⟨.pass, s, b :: stream⟩ := by
  generalize hhandler : (h.parseStream s.handler []).1 = handler at hsettles
  induction hsettles generalizing s with
  | stop hstop =>
    obtain ⟨s₁, out, htake, -, hpass₁, hbytes⟩ :=
      Pair.takeBlock_empty hb (b :: stream) hzero
    have hgo₁ := Pair.takeBlock_parseStop hb (b :: stream) hgo
    rw [hhandler] at hpass₁ hbytes
    rw [htake] at hgo₁
    apply ends_of_next (next_block hpass)
    rw [htake]
    cases hrequest : requested (h.endOfPassThrough _).2 with
    | none => exact unpassed_ends hshort hgo₁ (hpass₁.trans (by rw [hrequest]; rfl))
    | some n =>
      refine block_ends hshort hb hgo₁ (hpass₁.trans (by rw [hrequest]; rfl)) fun hzero₁ => hstop ?_
      rw [hrequest, ← hbytes n hrequest, hzero₁]
  | again _ ih =>
    obtain ⟨s₁, out, htake, hhandler₁, hpass₁, hbytes⟩ :=
      Pair.takeBlock_empty hb (b :: stream) hzero
    have hgo₁ := Pair.takeBlock_parseStop hb (b :: stream) hgo
    rw [hhandler] at hhandler₁ hpass₁ hbytes
    rw [htake] at hgo₁
    apply ends_of_next (next_block hpass)
    rw [htake]
    cases hrequest : requested (h.endOfPassThrough _).2 with
    | none => exact unpassed_ends hshort hgo₁ (hpass₁.trans (by rw [hrequest]; rfl))
    | some n =>
      have hagain : s₁.parser.externalPass = true := hpass₁.trans (by rw [hrequest]; rfl)
      by_cases hzero₁ : s₁.parser.byteCounter = 0
      · exact ih hgo₁ hagain hzero₁ (by rw [hhandler₁])
      · exact block_ends hshort hb hgo₁ hagain hzero₁

theorem pass_ends (hb : h.Blockwise) (hsettles : ∀ handler, h.Settles handler)
    (hgo : s.parser.parseStop = false) : Ends t h ⟨.pass, s, b :: stream⟩ := by
  cases hpass : s.parser.externalPass with
  | false => exact unpassed_ends hshort hgo hpass
  | true =>
    by_cases hzero : s.parser.byteCounter = 0
    · exact empty_ends hshort hb hgo hpass hzero (hsettles _)
    · exact block_ends hshort hb hgo hpass hzero

end

/-- Every call ends, by induction on the stream and on the loops of one byte. -/
theorem ends (hb : h.Blockwise) (hsettles : ∀ handler, h.Settles handler) (place : Place)
    (s : Pair τ η) (stream : List UInt8) (hgo : s.parser.parseStop = false) :
    Ends t h ⟨place, s, stream⟩ := by
  induction hn : stream.length using Nat.strongRecOn generalizing place s stream with
  | _ n ih =>
    cases stream with
    | nil => exact ⟨[], _, .stop (next_nil place s), rfl, hgo⟩
    | cons b stream =>
      have hshort (place) (s : Pair τ η) (shorter : List UInt8)
        (hle : shorter.length ≤ stream.length)
          (hgo : s.parser.parseStop = false) : Ends t h ⟨place, s, shorter⟩ := by
        rw [List.length_cons] at hn
        exact ih _ (by omega) place s shorter hgo rfl
      cases place with
      | pass => exact pass_ends hshort hb hsettles hgo
      | flush => exact flush_ends hshort hgo
      | skip => exact skip_ends hshort hgo
      | word =>
        cases hskip : s.parser.skipWhitespace with
        | false => exact word_ends hshort hgo hskip
        | true => exact ends_of_next (next_around hskip) (pass_ends hshort hb hsettles hgo)

/-! ### Two chunks in one call -/

theorem Same.refl (out : List Callback) : Same out out := rfl

theorem Same.append {out₁ out₁' out₂ out₂' : List Callback} (h₁ : Same out₁ out₁')
    (h₂ : Same out₂ out₂') : Same (out₁ ++ out₂) (out₁' ++ out₂') := by
  rw [Same, List.flatMap_append, List.flatMap_append, h₁, h₂]

theorem Same.block (block block' : List UInt8) (out : List Callback) :
    Same (.stream block :: .stream block' :: out) (.stream (block ++ block') :: out) := by
  simp [Same, Callback.pieces]

theorem runs_of_silent (hnext : next t h f = some (f', [])) (hruns : Loop.Runs (next t h) f out g) :
    Loop.Runs (next t h) f' out g := by
  obtain ⟨more, rfl, hrest⟩ := hruns.tail hnext
  exact hrest

/-- From an aligned end the call goes on like a new one. -/
theorem Feed.Aligned.enter (place : Place) {more : List UInt8} (hgo : s.parser.parseStop = false)
    (hal : more ≠ [] → Feed.Aligned ⟨place, s, more⟩)
    (hruns : Loop.Runs (next t h) ⟨.pass, s, more⟩ out g) :
    ∃ g', Loop.Runs (next t h) ⟨place, s, more⟩ out g' ∧ g'.pair = g.pair ∧ g'.stream = g.stream := by
  cases more with
  | nil =>
    cases hruns with
    | stop _ => exact ⟨_, .stop (next_nil place s), rfl, rfl⟩
    | step hnext _ => nomatch hnext
  | cons b more =>
    have hal' := hal (List.cons_ne_nil b more)
    cases place with
    | pass => exact ⟨g, hruns, rfl, rfl⟩
    | flush => exact ⟨g, runs_of_silent (next_pass hal' hgo) hruns, rfl, rfl⟩
    | skip =>
      exact ⟨g, runs_of_silent (next_flushed hal'.2) (runs_of_silent (next_pass hal'.1 hgo) hruns),
        rfl, rfl⟩
    | word =>
      cases hskip : s.parser.skipWhitespace with
      | true => exact ⟨g, .step (next_around hskip) hruns, rfl, rfl⟩
      | false =>
        obtain ⟨hpass, hflush⟩ := hal'.resolve_left (by rw [hskip]; decide)
        exact ⟨g, runs_of_silent (next_text hskip) (runs_of_silent (next_flushed hflush)
          (runs_of_silent (next_pass hpass hgo) hruns)), rfl, rfl⟩

/-- A step that does not empty the stream in the middle of a block is the same with more bytes. -/
theorem next_append (hb : h.Blockwise) (more : List UInt8) (hnext : next t h f = some (f', out))
    (hroom : f.place = .pass → f.pair.parser.externalPass = true →
      f.pair.parser.byteCounter.toNat ≤ f.stream.length) :
    next t h { f with stream := f.stream ++ more } = some ({ f' with stream := f'.stream ++ more },
      out) := by
  obtain ⟨place, s, stream⟩ := f
  cases stream with
  | nil => nomatch hnext
  | cons b stream =>
    cases place with
    | pass =>
      cases hpass : s.parser.externalPass with
      | true =>
        have hle := hroom rfl hpass
        rw [next_block hpass, Pair.takeBlock_eq hb] at hnext
        obtain ⟨rfl, rfl⟩ := Prod.mk.injEq .. ▸ Option.some.inj hnext
        rw [List.cons_append, next_block hpass, Pair.takeBlock_eq hb, ← List.cons_append,
          List.take_append_of_le_length hle, List.drop_append_of_le_length hle]
      | false =>
        cases hstop : s.parser.parseStop with
        | true => simp [next, hpass, hstop] at hnext
        | false =>
          rw [next_pass hpass hstop] at hnext
          obtain ⟨rfl, rfl⟩ := Prod.mk.injEq .. ▸ Option.some.inj hnext
          exact next_pass hpass hstop
    | flush =>
      cases hflush : s.parser.flushLine with
      | true =>
        rw [next_flush hflush] at hnext
        obtain ⟨rfl, rfl⟩ := Prod.mk.injEq .. ▸ Option.some.inj hnext
        exact next_flush hflush
      | false =>
        rw [next_flushed hflush] at hnext
        obtain ⟨rfl, rfl⟩ := Prod.mk.injEq .. ▸ Option.some.inj hnext
        exact next_flushed hflush
    | skip =>
      cases hskip : s.parser.skipWhitespace with
      | false =>
        rw [next_text hskip] at hnext
        obtain ⟨rfl, rfl⟩ := Prod.mk.injEq .. ▸ Option.some.inj hnext
        exact next_text hskip
      | true =>
        cases hblank : isBlank b with
        | true =>
          rw [next_blank hskip hblank] at hnext
          obtain ⟨rfl, rfl⟩ := Prod.mk.injEq .. ▸ Option.some.inj hnext
          exact next_blank hskip hblank
        | false =>
          rw [next_skipped hskip hblank] at hnext
          obtain ⟨rfl, rfl⟩ := Prod.mk.injEq .. ▸ Option.some.inj hnext
          exact next_skipped hskip hblank
    | word =>
      cases hskip : s.parser.skipWhitespace with
      | true =>
        rw [next_around hskip] at hnext
        obtain ⟨rfl, rfl⟩ := Prod.mk.injEq .. ▸ Option.some.inj hnext
        exact next_around hskip
      | false =>
        rw [next_word hskip] at hnext
        obtain ⟨rfl, rfl⟩ := Prod.mk.injEq .. ▸ Option.some.inj hnext
        exact next_word hskip

/-- A block that goes on in the next call. -/
theorem runs_append_block (hb : h.Blockwise) {more : List UInt8} {f₁ : Feed τ η}
    {o o' : List Callback}
    (hroom : ¬(f.place = .pass → f.pair.parser.externalPass = true →
      f.pair.parser.byteCounter.toNat ≤ f.stream.length))
    (hnext : next t h f = some (f₁, o)) (hrest : Loop.Runs (next t h) f₁ o' f')
    (hmore : Loop.Runs (next t h) ⟨.pass, f'.pair, more⟩ out' g) :
    ∃ all g', Loop.Runs (next t h) { f with stream := f.stream ++ more } all g' ∧
      Same (o ++ o' ++ out') all ∧ g'.pair = g.pair ∧ g'.stream = g.stream := by
  obtain ⟨place, s, stream⟩ := f
  simp only [Classical.not_imp, Nat.not_le] at hroom
  obtain ⟨rfl, hpass, hlt⟩ := hroom
  cases stream with
  | nil => nomatch hnext
  | cons b stream =>
    obtain ⟨s₁, block, o₂, hfirst, hpass₁, hsecond, hwhole⟩ := Pair.takeBlock_append hb more hlt
    have hnext' := hnext
    rw [next_block hpass, hfirst] at hnext'
    obtain ⟨rfl, rfl⟩ := Prod.mk.injEq .. ▸ Option.some.inj hnext'
    cases hrest with
    | step hnil _ => nomatch hnil
    | stop hstop =>
      cases more with
      | nil =>
        cases hmore with
        | step hnil _ => nomatch hnil
        | stop _ =>
          refine ⟨_, _, .step (by rw [List.append_nil]; exact hnext) (.stop hstop), Same.refl _,
            rfl, rfl⟩
      | cons b' more =>
        obtain ⟨rest, rfl, hlast⟩ := hmore.tail (next_block (hpass₁.trans hpass))
        rw [hsecond] at hlast ⊢
        refine ⟨_, g, .step (next_block hpass) hlast, ?_, rfl, rfl⟩
        show Same _ ((Pair.takeBlock h s (b :: stream ++ b' :: more)).2.2 ++ rest)
        rw [hwhole, List.append_nil]
        exact (Same.block (b :: stream) block o₂).append (Same.refl rest)

/-- A call that ends aligned, and the call for more bytes behind it, are one call for all of them; by
induction on the first call. -/
theorem runs_append (hb : h.Blockwise) {more : List UInt8} (hruns : Loop.Runs (next t h) f out f')
    (hstream : f'.stream = []) (hgo : f'.pair.parser.parseStop = false)
    (hal : more ≠ [] → f'.Aligned) (hmore : Loop.Runs (next t h) ⟨.pass, f'.pair, more⟩ out' g) :
    ∃ all g', Loop.Runs (next t h) { f with stream := f.stream ++ more } all g' ∧ Same
      (out ++ out') all ∧
      g'.pair = g.pair ∧ g'.stream = g.stream := by
  induction hruns with
  | @stop f hstop =>
    obtain ⟨place, s, stream⟩ := f
    obtain rfl : stream = [] := hstream
    obtain ⟨g', hruns', hpair, hrest⟩ := Feed.Aligned.enter place hgo hal hmore
    exact ⟨out', g', hruns', Same.refl _, hpair, hrest⟩
  | @step f f₁ f' o o' hnext hrest ih =>
    by_cases hroom : f.place = .pass → f.pair.parser.externalPass = true →
      f.pair.parser.byteCounter.toNat ≤ f.stream.length
    · obtain ⟨all, g', hruns', hsame, hpair, hstream'⟩ := ih hstream hgo hal hmore
      refine ⟨o ++ all, g', .step (next_append hb more hnext hroom) hruns', ?_, hpair, hstream'⟩
      rw [List.append_assoc]
      exact (Same.refl o).append hsame
    · exact runs_append_block hb hroom hnext hrest hmore

/-- The calls for the chunks, and one call for all of them. -/
theorem calls_of_edges (hb : h.Blockwise) (hsettles : ∀ handler, h.Settles handler)
    (s : Pair τ η) (chunks : List (List UInt8)) (hgo : s.parser.parseStop = false)
    (hedges : Edges t h s chunks) :
    ∃ fuel s' out f all, (∀ more, deserializeAll t h (fuel + more) s chunks = some (s', out)) ∧
      Loop.Runs (next t h) ⟨.pass, s, chunks.flatten⟩ all f ∧ f.stream = [] ∧ Same out all := by
  induction chunks generalizing s with
  | nil => exact ⟨0, s, [], _, [], fun _ => rfl, .stop (next_nil _ _), rfl, Same.refl _⟩
  | cons chunk chunks ih =>
    obtain ⟨out₁, f₁, hruns₁, hstream₁, hgo₁⟩ := ends (t := t) hb hsettles .pass s chunk hgo
    obtain ⟨fuel₁, hfuel₁⟩ := hruns₁.run
    obtain ⟨hal, hlater⟩ := hedges _ _ _ (hfuel₁ 0)
    obtain ⟨fuel₂, s', out₂, f₂, all₂, hcalls, hruns₂, hstream₂, hsame₂⟩ := ih f₁.pair hgo₁ hlater
    obtain ⟨all, g, hruns, hsame, -, hstream⟩ := runs_append hb hruns₁ hstream₁ hgo₁ hal hruns₂
    refine ⟨fuel₁ + fuel₂, s', out₁ ++ out₂, g, all, fun more => ?_, hruns, hstream.trans hstream₂,
      ((Same.refl out₁).append hsame₂).trans hsame⟩
    have hfirst : deserialize t h (fuel₁ + fuel₂ + more) s chunk = some (f₁, out₁) := by
      rw [Nat.add_assoc]
      exact hfuel₁ _
    have hothers : deserializeAll t h (fuel₁ + fuel₂ + more) f₁.pair chunks = some (s', out₂) := by
      rw [Nat.add_comm fuel₁, Nat.add_assoc]
      exact hcalls _
    rw [deserializeAll, hfirst]
    simp [hstream₁, hothers]

/-- A handler that accepts the bytes passed through, without a look at how they are cut, and does not
ask for pass-throughs of no bytes for ever, is called the same way for all chunks that end where a call
can end. -/
theorem independent_of_edges (t : Terminator τ) (h : Handler η) (hb : h.Blockwise)
    (hsettles : ∀ handler, h.Settles handler) (s : Pair τ η) (chunks : List (List UInt8))
    (hgo : s.parser.parseStop = false) (hedges : Edges t h s chunks) :
    Independent t h s chunks := by
  obtain ⟨fuel, s', out, f, all, hcalls, hruns, hstream, hsame⟩ :=
    calls_of_edges hb hsettles s chunks hgo hedges
  obtain ⟨fuel', hfuel'⟩ := hruns.run
  refine ⟨fuel + fuel', s', out, f, all, hcalls _, ?_, hstream, hsame⟩
  rw [Nat.add_comm]
  exact hfuel' _

/-- `Edges`, computed. -/
def checkEdges (t : Terminator τ) (h : Handler η) (fuel : Nat) :
    Pair τ η → List (List UInt8) → Bool
  | _, [] => true
  | s, chunk :: chunks =>
    match deserialize t h fuel s chunk with
    | none => false
    | some (f, _) => (chunks.flatten = [] || f.Aligned) && checkEdges t h fuel f.pair chunks

theorem edges_of_check (fuel : Nat) {chunks : List (List UInt8)}
    (hcheck : checkEdges t h fuel s chunks = true) : Edges t h s chunks := by
  induction chunks generalizing s with
  | nil => trivial
  | cons chunk chunks ih =>
    intro fuel' f out hrun
    rw [checkEdges] at hcheck
    cases hfirst : deserialize t h fuel s chunk with
    | none => simp [hfirst] at hcheck
    | some r =>
      obtain ⟨f', out'⟩ := r
      obtain ⟨-, rfl⟩ := Loop.run_unique hrun hfirst
      rw [hfirst] at hcheck
      obtain ⟨hal, hrest⟩ := Bool.and_eq_true _ _ ▸ hcheck
      exact ⟨fun hsome => by simpa [hsome] using hal, ih hrest⟩

theorem deserializeAll_unique {fuel fuel' : Nat} {chunks : List (List UInt8)}
    {r r' : Pair τ η × List Callback}
    (hrun : deserializeAll t h fuel s chunks = some r)
    (hrun' : deserializeAll t h fuel' s chunks = some r') :
    r = r' := by
  induction chunks generalizing s r r' with
  | nil => exact Option.some.inj (hrun.symm.trans hrun')
  | cons chunk chunks ih =>
    rw [deserializeAll] at hrun hrun'
    obtain ⟨⟨f, out⟩, hfirst, hrest⟩ := Option.bind_eq_some_iff.mp hrun
    obtain ⟨⟨f', out'⟩, hfirst', hrest'⟩ := Option.bind_eq_some_iff.mp hrun'
    obtain ⟨rfl, rfl⟩ := Loop.run_unique hfirst hfirst'
    simp only at hrest hrest'
    split_ifs at hrest hrest' with hstream
    obtain ⟨⟨s₁, more⟩, hmore, heq⟩ := Option.bind_eq_some_iff.mp hrest
    obtain ⟨⟨s₂, more'⟩, hmore', heq'⟩ := Option.bind_eq_some_iff.mp hrest'
    obtain ⟨rfl, rfl⟩ := Prod.mk.injEq .. ▸ ih hmore hmore'
    exact Option.some.inj (heq.symm.trans heq')

/-- A handler that has three bytes passed through behind the first line. -/
theorem independent_body : Independent carriageReturnLineFeed
    (⟨fun s _ _ => (s, []), fun s _ => (s, [], true),
      fun s => (true, if s then [] else [.passThrough 3]), fun s => (s, []), none⟩ : Handler Bool)
    ⟨new 0, false⟩ [[0x61, 0x20], [0x62, 0x0D], [0x0A, 0x58], [0x59, 0x5A, 0x63, 0x0D, 0x0A]] :=
  independent_of_edges _ _ ⟨fun _ _ => rfl, fun _ _ _ => rfl⟩
    (fun _ => .stop (by simp [requested])) _ _ rfl
    (edges_of_check 40 (by decide))

def flushing : Handler Unit :=
  ⟨fun s _ _ => (s, [.flushLine]), fun s _ => (s, [], true), fun s => (s, []), fun s => (s, []),
    some fun _ _ character => character = 0x3A⟩

/-- A handler that has the line skipped behind the first word, where `Complete` ends it at a colon: the
skipping waits for the end of the next word, but not behind the end of a chunk. -/
theorem not_independent_flush : ¬ Independent carriageReturnLineFeed flushing ⟨new 0, ()⟩
    [[0x61, 0x62, 0x3A], [0x63, 0x64, 0x0D, 0x0A]] := by
  rintro ⟨fuel, s', out, f, out', hcalls, hcall, -, hsame⟩
  have hchunks : (deserializeAll carriageReturnLineFeed flushing 40 ⟨new 0, ()⟩
      [[0x61, 0x62, 0x3A], [0x63, 0x64, 0x0D, 0x0A]]).map Prod.snd =
        some [.text [0x61, 0x62] false, .endOfLine] := by decide
  have hwhole : (deserialize carriageReturnLineFeed flushing 40 ⟨new 0, ()⟩
      [0x61, 0x62, 0x3A, 0x63, 0x64, 0x0D, 0x0A]).map Prod.snd =
        some [.text [0x61, 0x62] false, .text [0x3A, 0x63, 0x64] false, .endOfLine] := by decide
  obtain ⟨⟨_, _⟩, hrun, rfl⟩ := Option.map_eq_some_iff.mp hchunks
  obtain ⟨⟨_, _⟩, hrun', rfl⟩ := Option.map_eq_some_iff.mp hwhole
  obtain ⟨rfl, -⟩ := Loop.run_unique hcall hrun'
  obtain ⟨-, rfl⟩ := Prod.mk.injEq .. ▸ deserializeAll_unique hcalls hrun
  exact absurd hsame (by unfold Same; decide)

end

end ParserType

end Thunder.Core
