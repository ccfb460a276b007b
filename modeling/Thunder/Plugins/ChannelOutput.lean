import Thunder.Core.JSONStringWrite
import Thunder.Library.Run
import Mathlib.Data.List.Forall2

/-! What goes out of a channel once it is a web socket: elements where it speaks JSON or JSON-RPC,
and texts. -/

namespace Thunder.PluginHost.Channel

open Core Core.JSON Chunks Run

/-- A channel in JSON or JSON-RPC mode; `current` and `offset` are those of its serializer. -/
structure Elements (α : Type) where
  sendQueue : List α
  current : Option α
  offset : Nat

structure Texts where
  sendQueue : List Text
  offset : Nat

/-- A call of `Serialize` is one step: `SendData` of the link holds the lock around it that `Submit`
takes as well. -/
structure Sender (σ π : Type) where
  new : σ
  submit : σ → π → σ
  serialize : σ → Nat → Text × σ
  sendQueue : σ → List π
  offset : σ → Nat

namespace Elements

variable {α : Type} [IElement α] (c : Elements α)

/-- `SerializerImpl::Serialize`. -/
def load (maxSendSize : Nat) : Text × Elements α :=
  match c.current <|> c.sendQueue.head? with
  | none => ([], c)
  | some x =>
    let (bytes, x, offset) := IElement.serialize x maxSendSize c.offset
    if offset = 0 ∨ bytes.length ≠ maxSendSize then
      (bytes, { c with current := none, offset := offset })
    else (bytes, { c with current := some x, offset := offset })

def serialize (maxSendSize : Nat) : Text × Elements α :=
  let (bytes, c) := c.load maxSendSize
  if c.current.isSome then (bytes, c) else (bytes, { c with sendQueue := c.sendQueue.tail })

def sender (α : Type) [IElement α] : Sender (Elements α) α where
  new := ⟨[], none, 0⟩
  submit c x := { c with sendQueue := c.sendQueue ++ [x] }
  serialize := serialize
  sendQueue := sendQueue
  offset := offset

end Elements

namespace Texts

variable (c : Texts)

def serialize (maxSendSize : Nat) : Text × Texts :=
  match c.sendQueue with
  | [] => ([], c)
  | text :: sendQueue =>
    let neededBytes := u16 (text.length + 2 ^ 64 - c.offset)
    if neededBytes ≤ maxSendSize then
      ((text.drop c.offset).take neededBytes, ⟨sendQueue, 0⟩)
    else
      ((text.drop c.offset).take maxSendSize, ⟨text :: sendQueue, c.offset + maxSendSize⟩)

def sender : Sender Texts Text where
  new := ⟨[], 0⟩
  submit c text := { c with sendQueue := c.sendQueue ++ [text] }
  serialize := serialize
  sendQueue := sendQueue
  offset := offset

end Texts

inductive SendEvent (π : Type)
  | submit (item : π)
  | serialize (maxSendSize : Nat)

/-- A channel with what has been submitted to it and what its calls of `Serialize` have returned. -/
structure Sending (σ π : Type) where
  channel : σ
  submitted : List π
  sent : Text

namespace Sender

variable {σ π : Type} (S : Sender σ π)

def start : Sending σ π := ⟨S.new, [], []⟩

def step (s : Sending σ π) : SendEvent π → Sending σ π
  | .submit item =>
    { s with channel := S.submit s.channel item, submitted := s.submitted ++ [item] }
  | .serialize maxSendSize =>
    let (bytes, channel) := S.serialize s.channel maxSendSize
    { s with channel := channel, sent := s.sent ++ bytes }

/-! ### What is claimed of it -/

-- `writes item text`: the complete serialisation of an item
variable (writes : π → Text → Prop)

/-- What has been sent is the beginning of the items, all of them once the queue is empty, as it is
behind enough calls. -/
structure Complete (s : Sending σ π) : Prop where
  sent : ∃ texts, List.Forall₂ writes s.submitted texts ∧ s.sent <+: texts.flatten ∧
    (S.sendQueue s.channel = [] → s.sent = texts.flatten ∧ S.offset s.channel = 0)
  drains : ∃ calls, ∀ sizes : List Nat, calls ≤ sizes.length → (∀ size ∈ sizes, 0 < size) →
    S.sendQueue (after S.step s (sizes.map .serialize)).channel = []

def Ok (_ : Sending σ π) : SendEvent π → Prop
  | .submit item => ∃ text, writes item text
  | .serialize maxSendSize => 0 < maxSendSize

/-! ### Channels with bytes to send -/

/-- `rest c bytes` says that a channel has `bytes` to send. -/
structure Keeps (rest : σ → Text → Prop) : Prop where
  new : rest S.new [] ∧ S.sendQueue S.new = []
  submit : ∀ c bytes item text, rest c bytes → writes item text →
    rest (S.submit c item) (bytes ++ text)
  serialize : ∀ c bytes size, rest c bytes → 0 < size →
    ∃ more, bytes = (S.serialize c size).1 ++ more ∧ rest (S.serialize c size).2 more
  shrinks : ∀ c bytes size, rest c bytes → 0 < size →
    (S.sendQueue (S.serialize c size).2).length < (S.sendQueue c).length ∨
    S.sendQueue (S.serialize c size).2 = S.sendQueue c ∧
      (S.sendQueue c = [] ∨ (S.serialize c size).1 ≠ [])
  empty : ∀ c bytes, rest c bytes → S.sendQueue c = [] → bytes = [] ∧ S.offset c = 0

variable {S} {writes} {rest : σ → Text → Prop}

theorem Keeps.drains (h : S.Keeps writes rest) {s : Sending σ π} {bytes : Text} {sizes : List Nat}
    (hrest : rest s.channel bytes)
    (hcalls : bytes.length + (S.sendQueue s.channel).length ≤ sizes.length)
    (hsizes : ∀ size ∈ sizes, 0 < size) :
    S.sendQueue (after S.step s (sizes.map .serialize)).channel = [] := by
  induction sizes generalizing s bytes with
  | nil =>
    have hlength : (S.sendQueue s.channel).length = 0 := by
      rw [List.length_nil] at hcalls
      omega
    exact List.eq_nil_of_length_eq_zero hlength
  | cons size sizes ih =>
    have hsize : 0 < size := hsizes size List.mem_cons_self
    obtain ⟨more, rfl, hmore⟩ := h.serialize s.channel bytes size hrest hsize
    refine ih (s := S.step s (.serialize size)) hmore ?_ fun n hn =>
      hsizes n (List.mem_cons_of_mem _ hn)
    rw [List.length_append, List.length_cons] at hcalls
    show more.length + (S.sendQueue (S.serialize s.channel size).2).length ≤ sizes.length
    rcases h.shrinks s.channel _ size hrest hsize with hlt | ⟨heq, hnil | hsome⟩
    · omega
    · -- an empty queue stays empty
      obtain ⟨hbytes, -⟩ := h.empty _ _ hmore (heq.trans hnil)
      rw [heq, hnil, hbytes]
      exact Nat.zero_le _
    · have hpos := List.length_pos_iff.mpr hsome
      rw [heq]
      omega

/-- What holds along a run: the items of what has been sent and of what is to be sent. -/
def Inv (writes : π → Text → Prop) (rest : σ → Text → Prop) (s : Sending σ π) : Prop :=
  ∃ texts bytes, List.Forall₂ writes s.submitted texts ∧ rest s.channel bytes ∧
    texts.flatten = s.sent ++ bytes

theorem Keeps.complete (h : S.Keeps writes rest) {s : Sending σ π}
    (hinv : Inv writes rest s) : S.Complete writes s := by
  obtain ⟨texts, bytes, hwrites, hrest, htexts⟩ := hinv
  refine ⟨⟨texts, hwrites, ⟨bytes, htexts.symm⟩, fun hempty => ?_⟩, ⟨_, fun sizes =>
    h.drains hrest⟩⟩
  obtain ⟨rfl, hoffset⟩ := h.empty _ _ hrest hempty
  exact ⟨by rw [htexts, List.append_nil], hoffset⟩

theorem Keeps.step (h : S.Keeps writes rest) {s : Sending σ π} {event : SendEvent π}
    (hinv : Inv writes rest s) (hok : Ok writes s event) :
    Inv writes rest (S.step s event) := by
  obtain ⟨texts, bytes, hwrites, hrest, htexts⟩ := hinv
  cases event with
  | submit item =>
    obtain ⟨text, htext⟩ := hok
    refine ⟨texts ++ [text], bytes ++ text, ?_, h.submit _ _ _ _ hrest htext, ?_⟩
    · exact List.rel_append hwrites (.cons htext .nil)
    · simp [Sender.step, htexts]
  | serialize size =>
    obtain ⟨more, rfl, hmore⟩ := h.serialize s.channel bytes size hrest hok
    refine ⟨texts, more, hwrites, hmore, ?_⟩
    simp [Sender.step, htexts]

theorem Keeps.always (h : S.Keeps writes rest) {events : List (SendEvent π)}
    (hok : Meets S.step (Ok writes) S.start events) :
    Always S.step (S.Complete writes) S.start events :=
  (hok.always (fun _ _ hinv hok => h.step hinv hok) ⟨[], [], .nil, h.new.1, rfl⟩).mono
    fun _ => h.complete

end Sender

/-! ### Texts -/

namespace Texts

/-- The offset is inside of the first text. -/
def Rest (c : Texts) (bytes : Text) : Prop :=
  (∀ text ∈ c.sendQueue, text.length < 65536) ∧
    (c.offset = 0 ∨ ∃ text sendQueue, c.sendQueue = text :: sendQueue ∧ c.offset < text.length) ∧
    bytes = c.sendQueue.flatten.drop c.offset

/-- A text and how many of its bytes a call needs. -/
theorem neededBytes_eq {text : Text} {offset : Nat} (hsmall : text.length < 65536)
    (hoffset : offset ≤ text.length) :
    u16 (text.length + 2 ^ 64 - offset) = text.length - offset := by
  unfold u16
  omega

/-- What a call does with the first text. -/
theorem serialize_cons {text : Text} {sendQueue : List Text} {offset size : Nat}
    (hsmall : text.length < 65536) (hoffset : offset ≤ text.length) :
    serialize ⟨text :: sendQueue, offset⟩ size =
      if text.length - offset ≤ size then (text.drop offset, ⟨sendQueue, 0⟩)
      else ((text.drop offset).take size, ⟨text :: sendQueue, offset + size⟩) := by
  simp only [serialize, neededBytes_eq hsmall hoffset]
  split_ifs with hle
  · rw [List.take_of_length_le (List.length_drop ..).le]
  · rfl

/-- A text that seems to need nothing. -/
theorem step_dropped {s : Sending Texts Text} {text : Text} {sendQueue : List Text}
    {offset size : Nat} (hchannel : s.channel = ⟨text :: sendQueue, offset⟩)
    (hneeded : u16 (text.length + 2 ^ 64 - offset) = 0) :
    sender.step s (.serialize size) = { s with channel := ⟨sendQueue, 0⟩ } := by
  simp only [Sender.step, sender, serialize, hchannel, hneeded, Nat.zero_le, if_true,
    List.take_zero, List.append_nil]

theorem offset_le {c : Texts} {bytes text : Text} {sendQueue : List Text} (h : Rest c bytes)
    (hqueue : c.sendQueue = text :: sendQueue) : c.offset ≤ text.length := by
  rcases h.2.1 with hzero | ⟨text', sendQueue', hqueue', hlt⟩
  · rw [hzero]
    exact Nat.zero_le _
  · rw [hqueue] at hqueue'
    cases hqueue'
    exact hlt.le

theorem keeps : sender.Keeps (fun text text' => text.length < 65536 ∧ text' = text) Rest where
  new := ⟨⟨by simp [sender], .inl rfl, rfl⟩, rfl⟩
  submit c bytes item text h hwrites := by
    obtain ⟨hsmall, hoffset, rfl⟩ := h
    obtain ⟨hitem, rfl⟩ := hwrites
    refine ⟨fun text' hmem => ?_, ?_, ?_⟩
    · rcases List.mem_append.mp hmem with hmem | hmem
      · exact hsmall text' hmem
      · exact List.mem_singleton.mp hmem ▸ hitem
    · refine hoffset.imp_right fun ⟨text', sendQueue, hqueue, hlt⟩ => ?_
      exact ⟨text', sendQueue ++ [text], by simp [sender, hqueue], hlt⟩
    · have hle : c.offset ≤ c.sendQueue.flatten.length := by
        rcases hoffset with hzero | ⟨text', sendQueue, hqueue, hlt⟩
        · rw [hzero]
          exact Nat.zero_le _
        · rw [hqueue, List.flatten_cons, List.length_append]
          omega
      simp only [sender, List.flatten_append, List.flatten_singleton]
      rw [List.drop_append_of_le_length hle]
  serialize c bytes size h hsize := by
    obtain ⟨sendQueue, offset⟩ := c
    cases sendQueue with
    | nil => exact ⟨bytes, rfl, h⟩
    | cons text sendQueue =>
      have hle : offset ≤ text.length := offset_le h rfl
      obtain ⟨hsmall, hoffset, rfl⟩ := h
      have htext : text.length < 65536 := hsmall text List.mem_cons_self
      have hrest : ∀ text ∈ sendQueue, text.length < 65536 := fun text hmem =>
        hsmall text (List.mem_cons_of_mem _ hmem)
      have hbytes : (text :: sendQueue).flatten.drop offset =
          text.drop offset ++ sendQueue.flatten := by
        rw [List.flatten_cons, List.drop_append_of_le_length hle]
      simp only [sender, serialize_cons htext hle, hbytes]
      split_ifs with hfits
      · exact ⟨_, rfl, hrest, .inl rfl, rfl⟩
      · have hlt : offset + size < text.length := by omega
        refine ⟨(text.drop offset).drop size ++ sendQueue.flatten, ?_, hsmall,
          .inr ⟨text, sendQueue, rfl, hlt⟩, ?_⟩
        · rw [← List.append_assoc, List.take_append_drop]
        · rw [List.flatten_cons, List.drop_append_of_le_length hlt.le, List.drop_drop]
  shrinks c bytes size h hsize := by
    obtain ⟨sendQueue, offset⟩ := c
    cases sendQueue with
    | nil => exact .inr ⟨rfl, .inl rfl⟩
    | cons text sendQueue =>
      have hle : offset ≤ text.length := offset_le h rfl
      have htext : text.length < 65536 := h.1 text List.mem_cons_self
      simp only [sender, serialize_cons htext hle]
      split_ifs with hfits
      · exact .inl (Nat.lt_succ_self _)
      · refine .inr ⟨rfl, .inr fun hnil => ?_⟩
        have hlength := congrArg List.length hnil
        rw [List.length_take, List.length_drop, List.length_nil] at hlength
        omega
  empty c bytes h hqueue := by
    obtain ⟨-, hoffset, rfl⟩ := h
    have hzero : c.offset = 0 := hoffset.resolve_right fun ⟨_, _, hcons, _⟩ => by
      rw [show c.sendQueue = [] from hqueue] at hcons
      cases hcons
    refine ⟨?_, hzero⟩
    rw [show c.sendQueue = [] from hqueue]
    exact List.drop_nil

end Texts

/-! ### Elements -/

namespace Elements

variable {α : Type} [IElement α]

/-- An element that writes `text`: through buffers of any sizes, with the offset at 0 again once all
of it is written. -/
def Writes (x : α) (text : Text) : Prop :=
  ∃ rest, Finishes IElement.write (fun w : α × Nat => w.2 = 0) rest ∧ rest (x, 0) text

/-- The element that is being sent, if there is one, is the first of the queue. -/
def Rest (c : Elements α) (bytes : Text) : Prop :=
  (c.current = none ∧ c.offset = 0 ∧
    ∃ texts, List.Forall₂ Writes c.sendQueue texts ∧ bytes = texts.flatten) ∨
  ∃ x first sendQueue rest text texts, c.current = some x ∧ c.sendQueue = first :: sendQueue ∧
    Finishes IElement.write (fun w : α × Nat => w.2 = 0) rest ∧ rest (x, c.offset) text ∧
    List.Forall₂ Writes sendQueue texts ∧ bytes = text ++ texts.flatten

/-- A call that goes on with `x`, the first of the queue or what has become of it. -/
theorem serialize_spec {c : Elements α} {x first : α} {sendQueue : List α}
    {rest : α × Nat → Text → Prop} {text : Text} {texts : List Text} {size : Nat}
    (hx : (c.current <|> c.sendQueue.head?) = some x) (hqueue : c.sendQueue = first :: sendQueue)
    (hfinishes : Finishes IElement.write (fun w : α × Nat => w.2 = 0) rest)
    (hrest : rest (x, c.offset) text) (htexts : List.Forall₂ Writes sendQueue texts)
    (hsize : 0 < size) :
    ∃ more, text ++ texts.flatten = (c.serialize size).1 ++ more ∧
      Rest (c.serialize size).2 more ∧
      ((c.serialize size).2.sendQueue = sendQueue ∨
        (c.serialize size).2.sendQueue = c.sendQueue ∧ (c.serialize size).1 ≠ []) := by
  obtain ⟨hout, henough, hall, hmore⟩ := hfinishes _ _ _ hsize hrest
  simp only [IElement.write] at hout henough hall hmore
  by_cases hzero : (IElement.serialize x size c.offset).2.2 = 0
  · have htext : (IElement.serialize x size c.offset).1 = text := by
      rw [hout, List.take_of_length_le (hall hzero)]
    have hload : c.load size = (text, { c with current := none, offset := 0 }) := by
      rw [load, hx]
      simp only [hzero, true_or, if_true, htext]
    have hserialize : c.serialize size = (text, ⟨sendQueue, none, 0⟩) := by
      rw [serialize, hload]
      simp only [Option.isSome_none, Bool.false_eq_true, if_false, hqueue, List.tail_cons]
    rw [hserialize]
    exact ⟨texts.flatten, rfl, .inl ⟨rfl, rfl, texts, htexts, rfl⟩, .inl rfl⟩
  · have hlength : (text.take size).length = size := by
      have hge : ¬text.length < size := fun hlt => hzero (henough hlt)
      rw [List.length_take]
      omega
    have hload : c.load size = (text.take size, ⟨c.sendQueue,
        some (IElement.serialize x size c.offset).2.1,
        (IElement.serialize x size c.offset).2.2⟩) := by
      rw [load, hx]
      simp only [hzero, hout, hlength, ne_eq, not_true_eq_false, or_self, if_false]
    have hserialize : c.serialize size = c.load size := by
      rw [serialize, hload]
      rfl
    rw [hserialize, hload]
    refine ⟨text.drop size ++ texts.flatten, ?_, .inr ⟨_, first, sendQueue, rest, _, texts, rfl,
      hqueue, hfinishes, hmore hzero, htexts, rfl⟩, .inr ⟨rfl, ?_⟩⟩
    · rw [← List.append_assoc, List.take_append_drop]
    · rw [← List.length_pos_iff, hlength]
      exact hsize

theorem serialize_nil {c : Elements α} {size : Nat} (hqueue : c.sendQueue = [])
    (hcurrent : c.current = none) : c.serialize size = ([], c) := by
  obtain ⟨sendQueue, current, offset⟩ := c
  cases hqueue
  cases hcurrent
  rfl

/-- Where a channel is with its queue. -/
theorem Rest.cases {c : Elements α} {bytes : Text} (h : Rest c bytes) :
    (c.sendQueue = [] ∧ c.current = none ∧ c.offset = 0 ∧ bytes = []) ∨
    ∃ x first sendQueue rest text texts, (c.current <|> c.sendQueue.head?) = some x ∧
      c.sendQueue = first :: sendQueue ∧
      Finishes IElement.write (fun w : α × Nat => w.2 = 0) rest ∧ rest (x, c.offset) text ∧
      List.Forall₂ Writes sendQueue texts ∧ bytes = text ++ texts.flatten := by
  rcases h with ⟨hcurrent, hoffset, texts, htexts, rfl⟩ | ⟨x, first, sendQueue, rest, text, texts,
    hcurrent, h⟩
  · cases hqueue : c.sendQueue with
    | nil =>
      rw [hqueue] at htexts
      cases htexts
      exact .inl ⟨rfl, hcurrent, hoffset, rfl⟩
    | cons x sendQueue =>
      rw [hqueue] at htexts
      obtain ⟨text, more, ⟨rest, hfinishes, hrest⟩, hmore, rfl⟩ :=
        List.forall₂_cons_left_iff.mp htexts
      refine .inr ⟨x, x, sendQueue, rest, text, more, ?_, rfl, hfinishes, ?_, hmore, rfl⟩
      · rw [hcurrent]
        rfl
      · rw [hoffset]
        exact hrest
  · refine .inr ⟨x, first, sendQueue, rest, text, texts, ?_, h⟩
    rw [hcurrent]
    rfl

theorem keeps : (sender α).Keeps Writes Rest where
  new := ⟨.inl ⟨rfl, rfl, [], .nil, rfl⟩, rfl⟩
  submit c bytes item text h hwrites := by
    rcases h with ⟨hcurrent, hoffset, texts, htexts, rfl⟩ | ⟨x, first, sendQueue, rest, text',
      texts, hcurrent, hqueue, hfinishes, hrest, htexts, rfl⟩
    · refine .inl ⟨hcurrent, hoffset, texts ++ [text],
        List.rel_append htexts (.cons hwrites .nil), ?_⟩
      simp
    · refine .inr ⟨x, first, sendQueue ++ [item], rest, text', texts ++ [text], hcurrent, ?_,
        hfinishes, hrest, List.rel_append htexts (.cons hwrites .nil), ?_⟩
      · simp [sender, hqueue]
      · simp
  serialize c bytes size h hsize := by
    rcases h.cases with ⟨hqueue, hcurrent, -, -⟩ | ⟨x, first, sendQueue, rest, text, texts, hx,
      hqueue, hfinishes, hrest, htexts, rfl⟩
    · refine ⟨bytes, ?_⟩
      simp only [sender, serialize_nil hqueue hcurrent]
      exact ⟨rfl, h⟩
    · obtain ⟨more, hbytes, hmore, -⟩ := serialize_spec hx hqueue hfinishes hrest htexts hsize
      exact ⟨more, hbytes, hmore⟩
  shrinks c bytes size h hsize := by
    rcases h.cases with ⟨hqueue, hcurrent, -, -⟩ | ⟨x, first, sendQueue, rest, text, texts, hx,
      hqueue, hfinishes, hrest, htexts, rfl⟩
    · refine .inr ⟨?_, .inl hqueue⟩
      exact congrArg (fun x => x.2.sendQueue) (serialize_nil hqueue hcurrent)
    · obtain ⟨-, -, -, hnext | ⟨hsame, hout⟩⟩ :=
        serialize_spec hx hqueue hfinishes hrest htexts hsize
      · refine .inl ?_
        simp only [sender, hnext, hqueue]
        exact Nat.lt_succ_self _
      · exact .inr ⟨hsame, .inr hout⟩
  empty c bytes h hqueue := by
    rcases h.cases with ⟨-, -, hoffset, hbytes⟩ | ⟨x, first, sendQueue, rest, text, texts, -,
      hcons, -⟩
    · exact ⟨hbytes, hoffset⟩
    · rw [show c.sendQueue = [] from hqueue] at hcons
      cases hcons

/-- A quoted `JSON::String` writes its text between quotes, escaped. -/
theorem writes_string {s : Core.JSON.String} (chars : List Char)
    (h : s.Holds (Unicode.utf8 chars)) :
    Writes s ([0x22] ++ Core.JSON.String.escapeText chars ++ [0x22]) :=
  ⟨_, Core.JSON.String.serialize_finishes chars, .inl ⟨rfl, h, rfl⟩⟩

end Elements

/-- A channel sends all of its items in order, where the texts are shorter than 65536 bytes and the
elements write themselves through buffers of any sizes. -/
theorem always_complete {α : Type} [IElement α] (events : List (SendEvent α))
    (texts : List (SendEvent Text))
    (helements : Meets (Elements.sender α).step (Sender.Ok Elements.Writes)
      (Elements.sender α).start events)
    (htexts : Meets Texts.sender.step
      (Sender.Ok fun text text' => text.length < 65536 ∧ text' = text) Texts.sender.start texts) :
    Always (Elements.sender α).step ((Elements.sender α).Complete Elements.Writes)
      (Elements.sender α).start events ∧
    Always Texts.sender.step (Texts.sender.Complete fun text text' => text' = text)
      Texts.sender.start texts := by
  refine ⟨Elements.keeps.always helements, (Texts.keeps.always htexts).mono fun s h => ?_⟩
  obtain ⟨sent, hwrites, hsent⟩ := h.sent
  exact ⟨⟨sent, hwrites.imp fun _ _ h => h.2, hsent⟩, h.drains⟩

theorem always_complete_three : Always (Elements.sender Core.JSON.String).step
      ((Elements.sender Core.JSON.String).Complete Elements.Writes)
      (Elements.sender Core.JSON.String).start
      [.submit ((Core.JSON.String.new true).assign []), .serialize 1, .serialize 1] ∧
    Always Texts.sender.step (Texts.sender.Complete fun text text' => text' = text)
      Texts.sender.start [.submit [0x61, 0x62], .serialize 1, .serialize 1] := by
  have hstring : Elements.Writes ((Core.JSON.String.new true).assign []) [0x22, 0x22] :=
    Elements.writes_string [] ⟨rfl, rfl, rfl, by decide⟩
  exact always_complete _ _ ⟨⟨_, hstring⟩, Nat.one_pos, Nat.one_pos, trivial⟩
    ⟨⟨_, by decide, rfl⟩, Nat.one_pos, Nat.one_pos, trivial⟩

/-- A text of 65536 bytes is dropped. -/
theorem not_complete : ∃ events : List (SendEvent Text),
    Meets Texts.sender.step (fun _ event => event ≠ .serialize 0) Texts.sender.start events ∧
    ¬Always Texts.sender.step (Texts.sender.Complete fun text text' => text' = text)
      Texts.sender.start events := by
  refine ⟨[.submit (List.replicate 65536 0x61), .serialize 1], ?_⟩
  generalize htext : List.replicate 65536 (0x61 : UInt8) = text
  have hlength : text.length = 65536 := by rw [← htext, List.length_replicate]
  refine ⟨⟨nofun, nofun, trivial⟩, fun h => ?_⟩
  obtain ⟨texts, hwrites, -, hempty⟩ := h.last.sent
  have hneeded : u16 (text.length + 2 ^ 64 - 0) = 0 := by
    rw [hlength]
    rfl
  have hafter : after Texts.sender.step Texts.sender.start [.submit text, .serialize 1] =
      ⟨⟨[], 0⟩, [text], []⟩ := by
    rw [after_cons, after_cons, after_nil, Texts.step_dropped rfl hneeded]
    rfl
  rw [hafter] at hwrites hempty
  obtain ⟨text', rest, rfl, hrest, rfl⟩ := List.forall₂_cons_left_iff.mp hwrites
  have hsent := congrArg List.length (hempty rfl).1
  rw [List.flatten_cons, List.length_append, hlength, List.length_nil] at hsent
  omega

end Thunder.PluginHost.Channel
