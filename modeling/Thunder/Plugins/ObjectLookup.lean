import Thunder.Core.Words
import Thunder.Library.Run
import Mathlib.Data.List.Perm.Basic
import Mathlib.Data.List.Nodup
import Mathlib.Logic.Function.Basic
import Mathlib.Tactic.SplitIfs

/-! `PluginHost::JSONRPCSupportsAutoObjectLookup`: the objects that are stored for the channels,
each under an instance id. -/

namespace Thunder.PluginHost.ObjectLookup

open Core Function Run

/-- `~0`, which stands for no channel. -/
def noChannel : Nat := 2 ^ 32 - 1

structure Entry (α : Type) where
  id : Nat
  channel : Nat
  object : α
  deriving DecidableEq

/-- The order in which a map is walked, which an insertion may change in any way. -/
structure Arrangement (β : Type) where
  arrange : List β → List β
  perm : ∀ l, (arrange l).Perm l

/-- The interfaces that are installed, whether there is a callback, and the numbers that texts stand
for. -/
structure Lookup (ι : Type) where
  installed : List ι
  nodup : installed.Nodup
  all : ∀ i, i ∈ installed
  callback : Bool
  fromString : String → Nat

/-- What a call answers, what the callback is told (`true` for acquired), and the `AddRef` and
`Release` of objects. -/
structure Outcome (ι α : Type) where
  id : Nat := 0
  object : Option α := none
  found : Bool := false
  callbacks : List (Bool × ι × α) := []
  taken : List α := []
  released : List α := []

/-- `stored` is how often something was stored, and `log` is what the calls have brought. -/
structure World (ι α : Type) where
  storage : ι → List (Entry α)
  nextId : Nat
  stored : Nat
  log : List (Outcome ι α)

/-- Ids are numbers, or texts that stand for numbers. -/
inductive Operation (ι α : Type)
  | store (i : ι) (object : α) (channel : Nat) (arrangement : Arrangement (Entry α))
  | dispose (i : ι) (channel id : Nat)
  | disposeText (i : ι) (channel : Nat) (id : String)
  | check (i : ι) (id channel : Nat)
  | checkText (i : ι) (id : String) (channel : Nat)
  | closed (channel : Nat)
  | lookUp (i : ι) (id channel : Nat)
  | instanceId (i : ι) (object : Option α) (channel : Nat)

namespace Lookup

variable {ι α : Type} [DecidableEq ι] [DecidableEq α] (m : Lookup ι) (w : World ι α)

def notify (callbacks : List (Bool × ι × α)) : List (Bool × ι × α) :=
  if m.callback then callbacks else []

/-- The state behind a call. -/
def behind (outcome : Outcome ι α) (storage : ι → List (Entry α)) : Outcome ι α × World ι α :=
  (outcome, { w with storage := storage, log := w.log ++ [outcome] })

def store (i : ι) (object : α) (channel : Nat) (arrangement : Arrangement (Entry α)) :
    Outcome ι α × World ι α :=
  let storage := w.storage i
  let instanceId := w.nextId
  let w := { w with nextId := u32 (w.nextId + 1), stored := w.stored + 1 }
  behind w
    { id := instanceId, callbacks := m.notify [(true, i, object)], taken := [object] }
    (if storage.any (·.id = instanceId) then w.storage
      else update w.storage i (arrangement.arrange (⟨instanceId, channel, object⟩ :: storage)))

/-- The reference that was taken when the object was stored is handed to the caller. -/
def dispose (i : ι) (channel id : Nat) : Outcome ι α × World ι α :=
  match (w.storage i).find? (·.id = id) with
  | none => behind w {} w.storage
  | some it =>
    if it.channel = channel then
      behind w
        { object := some it.object
          callbacks := m.notify [(false, i, it.object)]
          taken := [it.object]
          released := [it.object] }
        (update w.storage i ((w.storage i).eraseP (·.id = id)))
    else behind w {} w.storage

/-- `Dispose` of a text, which calls itself with the text. -/
def disposeText (i : ι) (channel : Nat) (id : String) : Nat → Option (Outcome ι α × World ι α)
  | 0 => none
  | turns + 1 => disposeText i channel id turns

def check (i : ι) (id channel : Nat) : Outcome ι α × World ι α :=
  behind w
    { found := match (w.storage i).find? (·.id = id) with
        | none => false
        | some it => it.channel = channel }
    w.storage

def closed (channel : Nat) : Outcome ι α × World ι α :=
  let dropped := m.installed.flatMap fun i =>
    ((w.storage i).filter (·.channel = channel)).map (i, ·)
  behind w
    { callbacks := m.notify (dropped.map fun p => (false, p.1, p.2.object))
      released := dropped.map (·.2.object) }
    fun i => (w.storage i).filter (·.channel ≠ channel)

/-- `LookUpImpl` of an object. -/
def instanceId (i : ι) (object : Option α) (channel : Nat) : Outcome ι α × World ι α :=
  behind w
    { id := match object with
        | none => 0
        | some object =>
          match (w.storage i).find? (·.object = object) with
          | none => 0
          | some entry =>
            if channel = noChannel ∨ entry.channel = channel then entry.id else 0 }
    w.storage

/-- `LookUpImpl` of an instance id. -/
def lookUp (i : ι) (id channel : Nat) : Outcome ι α × World ι α :=
  if id ≠ 0 then
    match (w.storage i).find? (·.id = id) with
    | none => behind w {} w.storage
    | some it =>
      if it.channel = channel ∨ channel = noChannel then
        behind w { object := some it.object, taken := [it.object] } w.storage
      else behind w {} w.storage
  else behind w {} w.storage

/-- A call within a number of nested calls. -/
def perform (turns : Nat) : Operation ι α → Option (Outcome ι α × World ι α)
  | .store i object channel arrangement => some (m.store w i object channel arrangement)
  | .dispose i channel id => some (m.dispose w i channel id)
  | .disposeText i channel id => disposeText i channel id turns
  | .check i id channel => some (check w i id channel)
  | .checkText i id channel => some (check w i (m.fromString id) channel)
  | .closed channel => some (m.closed w channel)
  | .lookUp i id channel => some (lookUp w i id channel)
  | .instanceId i object channel => some (instanceId w i object channel)

/-- A call that does not return changes nothing. -/
def step (operation : Operation ι α) : World ι α :=
  ((m.perform w 1 operation).map Prod.snd).getD w

def start : World ι α := ⟨fun _ => [], 1, 0, []⟩

/-! ### What is claimed of it -/

/-- What is stored, each with its interface. -/
def live : List (ι × Entry α) := m.installed.flatMap fun i => (w.storage i).map (i, ·)

/-- A reference is held of what is stored, and is given back, to the object or to the caller, when
it is not stored any more. -/
def Balances (outcome : Outcome ι α) (stored ended : List α) : Prop :=
  ∀ object, outcome.released.count object + outcome.object.toList.count object +
    stored.count object = outcome.taken.count object + ended.count object

/-- All that is meant, and nothing else, ends, and the callback is told of each once. -/
def Ends (before after : List (ι × Entry α)) (outcome : Outcome ι α)
    (meant : ι × Entry α → Prop) : Prop :=
  ∃ ended, before.Perm (ended ++ after) ∧ (∀ p ∈ ended, meant p) ∧ (∀ p ∈ after, ¬ meant p) ∧
    outcome.callbacks = m.notify (ended.map fun p => (false, p.1, p.2.object)) ∧
    Balances outcome [] (ended.map (·.2.object))

/-- A call that only looks. -/
def Looks (before after : List (ι × Entry α)) (outcome : Outcome ι α) : Prop :=
  after = before ∧ outcome.callbacks = [] ∧ Balances outcome [] []

/-- What a call answers, and what is stored behind it. -/
def Specified (before after : List (ι × Entry α)) (outcome : Outcome ι α) :
    Operation ι α → Prop
  | .store i object channel _ =>
    outcome.id ≠ 0 ∧ (∀ p ∈ before, p.2.id ≠ outcome.id) ∧
      after.Perm ((i, ⟨outcome.id, channel, object⟩) :: before) ∧
      outcome.callbacks = m.notify [(true, i, object)] ∧ Balances outcome [object] []
  | .dispose i channel id =>
    (∀ object, outcome.object = some object ↔ (i, ⟨id, channel, object⟩) ∈ before) ∧
      m.Ends before after outcome fun p => p.1 = i ∧ p.2.id = id ∧ p.2.channel = channel
  | .disposeText i channel text =>
    (∀ object, outcome.object = some object ↔
        (i, ⟨m.fromString text, channel, object⟩) ∈ before) ∧
      m.Ends before after outcome fun p =>
        p.1 = i ∧ p.2.id = m.fromString text ∧ p.2.channel = channel
  | .check i id channel =>
    (outcome.found = true ↔ ∃ object, (i, ⟨id, channel, object⟩) ∈ before) ∧
      Looks before after outcome
  | .checkText i text channel =>
    (outcome.found = true ↔ ∃ object, (i, ⟨m.fromString text, channel, object⟩) ∈ before) ∧
      Looks before after outcome
  | .closed channel => m.Ends before after outcome fun p => p.2.channel = channel
  | .lookUp i id channel =>
    (∀ object, outcome.object = some object ↔ (i, ⟨id, channel, object⟩) ∈ before) ∧
      Looks before after outcome
  | .instanceId i object channel =>
    (outcome.id ≠ 0 → ∃ o ∈ object, (i, ⟨outcome.id, channel, o⟩) ∈ before) ∧
      ((∃ o ∈ object, ∃ id, (i, ⟨id, channel, o⟩) ∈ before) → outcome.id ≠ 0) ∧
      Looks before after outcome

/-- Of each object there is one acquired more than released for everything that is stored, and as
many references. -/
structure Matched : Prop where
  callbacks : m.callback = true → ∀ i object,
    (w.log.flatMap (·.callbacks)).count (true, i, object) =
      (w.log.flatMap (·.callbacks)).count (false, i, object) +
        ((m.live w).map fun p => (p.1, p.2.object)).count (i, object)
  references : ∀ object, (w.log.flatMap (·.taken)).count object =
    (w.log.flatMap (·.released)).count object +
      (w.log.flatMap (·.object.toList)).count object +
      ((m.live w).map (·.2.object)).count object

/-- A call returns, does what is specified and leaves all matched. -/
def Exact (operation : Operation ι α) : Prop :=
  ∃ turns outcome w', m.perform w turns operation = some (outcome, w') ∧
    m.Specified (m.live w) (m.live w') outcome operation ∧ m.Matched w'

/-- There are fewer objects than ids.  Nobody disposes by a text, and whoever looks up is a channel,
or asks for what was stored for none; the first to be found under the object of a channel is its
own. -/
def Proper : Operation ι α → Prop
  | .store _ _ _ _ => w.stored + 1 < 2 ^ 32
  | .disposeText _ _ _ => False
  | .lookUp i id channel =>
    channel = noChannel → ∀ e ∈ w.storage i, e.id = id → e.channel = noChannel
  | .instanceId i object channel => ∀ o ∈ object, ∀ e ∈ (w.storage i).find? (·.object = o),
    e.channel ≠ channel →
      channel ≠ noChannel ∧ ∀ e' ∈ w.storage i, e'.object = o → e'.channel ≠ channel
  | _ => True

/-! ### What is stored -/

variable {m w}

section

variable {β : Type} {l : List ι} {i : ι}

theorem flatMap_single (x : List β) (hnodup : l.Nodup) (hi : i ∈ l) :
    (l.flatMap fun j => if j = i then x else []) = x := by
  induction l with
  | nil => cases hi
  | cons j l ih =>
    rw [List.nodup_cons] at hnodup
    rw [List.flatMap_cons]
    by_cases hj : j = i
    · subst hj
      have hrest : (l.flatMap fun k => if k = j then x else []) = [] := by
        rw [List.flatMap_eq_nil_iff]
        intro k hk
        rw [if_neg]
        rintro rfl
        exact hnodup.1 hk
      rw [if_pos rfl, hrest, List.append_nil]
    · rw [if_neg hj, List.nil_append]
      exact ih hnodup.2 ((List.mem_cons.mp hi).resolve_left (Ne.symm hj))

end

omit [DecidableEq ι] [DecidableEq α] in
theorem mem_live {p : ι × Entry α} : p ∈ m.live w ↔ p.2 ∈ w.storage p.1 := by
  rw [live, List.mem_flatMap]
  constructor
  · rintro ⟨i, -, hp⟩
    obtain ⟨e, he, rfl⟩ := List.mem_map.mp hp
    exact he
  · exact fun hp => ⟨p.1, m.all p.1, List.mem_map.mpr ⟨p.2, hp, rfl⟩⟩

omit [DecidableEq α] in
/-- Another list for one interface. -/
theorem live_perm_of_update {w' : World ι α} {i : ι} {a a' : List (Entry α)}
    (hother : ∀ j, j ≠ i → w'.storage j = w.storage j)
    (hi : (a ++ w.storage i).Perm (a' ++ w'.storage i)) :
    (a.map (i, ·) ++ m.live w).Perm (a'.map (i, ·) ++ m.live w') := by
  have hsingle : ∀ (b : List (Entry α)) (v : World ι α), (b.map (i, ·) ++ m.live v).Perm
      (m.installed.flatMap fun j => (if j = i then b.map (i, ·) else []) ++
        (v.storage j).map (j, ·)) := by
    intro b v
    have h := List.flatMap_append_perm m.installed
      (fun j => if j = i then b.map (i, ·) else []) (fun j => (v.storage j).map (j, ·))
    rwa [flatMap_single _ m.nodup (m.all i)] at h
  refine (hsingle a w).trans (List.Perm.trans ?_ (hsingle a' w').symm)
  refine List.Perm.flatMap_left _ fun j _ => ?_
  by_cases hj : j = i
  · subst hj
    rw [if_pos rfl, if_pos rfl, ← List.map_append, ← List.map_append]
    exact hi.map _
  · rw [if_neg hj, if_neg hj, hother j hj]

variable (m) in
/-- What a call stores and what it ends. -/
structure Moves (before after : List (ι × Entry α)) (outcome : Outcome ι α)
    (added ended : List (ι × Entry α)) : Prop where
  perm : (added ++ before).Perm (ended ++ after)
  callbacks : outcome.callbacks = m.notify (added.map (fun p => (true, p.1, p.2.object)) ++
    ended.map fun p => (false, p.1, p.2.object))
  balances : Balances outcome (added.map (·.2.object)) (ended.map (·.2.object))

theorem count_callbacks (b b' : Bool) (l : List (ι × Entry α)) (i : ι) (object : α) :
    (l.map fun p => (b', p.1, p.2.object)).count (b, i, object) =
      if b' = b then (l.map fun p => (p.1, p.2.object)).count (i, object) else 0 := by
  induction l with
  | nil => simp
  | cons p l ih =>
    simp only [List.map_cons, List.count_cons, ih, beq_iff_eq, Prod.mk.injEq]
    split_ifs <;> simp_all

theorem Moves.matched {w' : World ι α} {outcome : Outcome ι α} {added ended : List (ι × Entry α)}
    (h : m.Moves (m.live w) (m.live w') outcome added ended) (hmatched : m.Matched w)
    (hlog : w'.log = w.log ++ [outcome]) : m.Matched w' := by
  constructor
  · intro hcallback i object
    have hbefore := hmatched.callbacks hcallback i object
    have hperm := (h.perm.map fun p => (p.1, p.2.object)).count_eq (i, object)
    rw [List.map_append, List.map_append, List.count_append, List.count_append] at hperm
    simp only [hlog, List.flatMap_append, List.flatMap_cons, List.flatMap_nil, List.append_nil,
      List.count_append, h.callbacks, notify, hcallback, if_true, count_callbacks,
      Bool.false_eq_true, Bool.true_eq_false, if_false]
    omega
  · intro object
    have hbefore := hmatched.references object
    have hperm := (h.perm.map fun p => p.2.object).count_eq object
    have hbalance := h.balances object
    rw [List.map_append, List.map_append, List.count_append, List.count_append] at hperm
    simp only [hlog, List.flatMap_append, List.flatMap_cons, List.flatMap_nil, List.append_nil,
      List.count_append]
    omega

omit [DecidableEq ι] in
theorem balances_of_eq {outcome : Outcome ι α} {stored ended : List α}
    (h : outcome.released ++ outcome.object.toList ++ stored = outcome.taken ++ ended) :
    Balances outcome stored ended := by
  intro object
  rw [← List.count_append, ← List.count_append, h, List.count_append]

variable (m) in
/-- The ids that are stored are different ones, which were given before. -/
structure Holds (w : World ι α) : Prop where
  ids : ∀ i, ((w.storage i).map Entry.id).Nodup
  range : ∀ i, ∀ e ∈ w.storage i, 0 < e.id ∧ e.id ≤ w.stored
  bound : w.stored < 2 ^ 32
  next : w.nextId = u32 (w.stored + 1)
  matched : m.Matched w

omit [DecidableEq ι] [DecidableEq α] in
theorem live_start : m.live (start : World ι α) = [] :=
  List.flatMap_eq_nil_iff.mpr fun _ _ => rfl

theorem holds_start : m.Holds (start : World ι α) where
  ids _ := List.nodup_nil
  range _ _ h := by cases h
  bound := Nat.two_pow_pos 32
  next := rfl
  matched := by
    constructor
    · intro _ i object
      rw [live_start]
      rfl
    · intro object
      rw [live_start]
      rfl

theorem Holds.find_iff (h : m.Holds w) {i : ι} {id : Nat} {e : Entry α} :
    (w.storage i).find? (·.id = id) = some e ↔ e ∈ w.storage i ∧ e.id = id := by
  constructor
  · intro hfind
    exact ⟨List.mem_of_find?_eq_some hfind, of_decide_eq_true (List.find?_some hfind :)⟩
  · rintro ⟨hmem, hid⟩
    cases hfind : (w.storage i).find? (·.id = id) with
    | none => exact absurd hid (by simpa using List.find?_eq_none.mp hfind e hmem)
    | some e' =>
      have hid' : e'.id = id := of_decide_eq_true (List.find?_some hfind :)
      have hsame := List.inj_on_of_nodup_map (h.ids i) (List.mem_of_find?_eq_some hfind) hmem
        (hid'.trans hid.symm)
      rw [hsame]

/-- A call that leaves the storage keeps all. -/
theorem Holds.behind {outcome : Outcome ι α} {added ended : List (ι × Entry α)}
    {storage : ι → List (Entry α)} (h : m.Holds w)
    (hmoves : m.Moves (m.live w) (m.live (behind w outcome storage).2) outcome added ended)
    (hids : ∀ i, ((storage i).map Entry.id).Nodup) (hsubset : ∀ i, storage i ⊆ w.storage i) :
    m.Holds (Lookup.behind w outcome storage).2 where
  ids := hids
  range i e he := h.range i e (hsubset i he)
  bound := h.bound
  next := h.next
  matched := hmoves.matched h.matched rfl

/-! ### Calls -/

theorem store_spec (h : m.Holds w) (i : ι) (object : α) (channel : Nat)
    (arrangement : Arrangement (Entry α)) (hfew : w.stored + 1 < 2 ^ 32) :
    m.Specified (m.live w) (m.live (m.store w i object channel arrangement).2)
        (m.store w i object channel arrangement).1 (.store i object channel arrangement) ∧
      m.Holds (m.store w i object channel arrangement).2 := by
  have hid : w.nextId = w.stored + 1 := h.next.trans (u32_of_lt hfew)
  have hfresh : ∀ j, ∀ e ∈ w.storage j, e.id ≠ w.nextId := by
    intro j e he
    have := (h.range j e he).2
    omega
  have hany : (w.storage i).any (·.id = w.nextId) = false := by
    rw [List.any_eq_false]
    intro e he
    simpa using hfresh i e he
  have hstorage : (m.store w i object channel arrangement).2.storage =
      update w.storage i (arrangement.arrange (⟨w.nextId, channel, object⟩ :: w.storage i)) := by
    simp only [store, Lookup.behind, hany, Bool.false_eq_true, if_false]
  have hperm := arrangement.perm (⟨w.nextId, channel, object⟩ :: w.storage i)
  have hlive : ([(⟨w.nextId, channel, object⟩ : Entry α)].map (i, ·) ++ m.live w).Perm
      (([] : List (Entry α)).map (i, ·) ++
        m.live (m.store w i object channel arrangement).2) := by
    refine live_perm_of_update (fun j hj => ?_) ?_
    · rw [hstorage, update_of_ne hj]
    · rw [hstorage, update_self]
      exact hperm.symm
  have hbalances : Balances (m.store w i object channel arrangement).1 [object] [] :=
    balances_of_eq rfl
  refine ⟨⟨?_, fun p hp => hfresh p.1 p.2 (mem_live.mp hp), hlive.symm, rfl, hbalances⟩, ?_⟩
  · rw [store, Lookup.behind]
    dsimp only
    omega
  · have hmoves : m.Moves (m.live w) (m.live (m.store w i object channel arrangement).2)
        (m.store w i object channel arrangement).1 [(i, ⟨w.nextId, channel, object⟩)] [] :=
      ⟨hlive, rfl, hbalances⟩
    have hmem : ∀ j, ∀ e ∈ (m.store w i object channel arrangement).2.storage j,
        e ∈ w.storage j ∨ e.id = w.nextId := by
      intro j e he
      rw [hstorage] at he
      by_cases hj : j = i
      · subst hj
        rw [update_self] at he
        rcases List.mem_cons.mp (hperm.subset he) with rfl | he
        · exact .inr rfl
        · exact .inl he
      · rw [update_of_ne hj] at he
        exact .inl he
    refine ⟨fun j => ?_, fun j e he => ?_, hfew, ?_, hmoves.matched h.matched rfl⟩
    · rw [hstorage]
      by_cases hj : j = i
      · subst hj
        rw [update_self, (hperm.map Entry.id).nodup_iff, List.map_cons, List.nodup_cons]
        refine ⟨fun hmem => ?_, h.ids j⟩
        obtain ⟨e, he, heq⟩ := List.mem_map.mp hmem
        exact hfresh j e he heq
      · rw [update_of_ne hj]
        exact h.ids j
    · rw [store, Lookup.behind]
      dsimp only
      rcases hmem j e he with he | he
      · have := h.range j e he
        omega
      · omega
    · rw [store, Lookup.behind]
      dsimp only
      rw [hid]

omit [DecidableEq ι] in
/-- A call that does not change what is stored. -/
theorem look_moves {outcome : Outcome ι α} (hcallbacks : outcome.callbacks = [])
    (hbalances : Balances outcome [] []) :
    m.Moves (m.live w) (m.live (Lookup.behind w outcome w.storage).2) outcome [] [] := by
  refine ⟨.refl _, ?_, hbalances⟩
  rw [hcallbacks, notify]
  split_ifs <;> rfl

theorem look_spec (h : m.Holds w) (outcome : Outcome ι α) (hcallbacks : outcome.callbacks = [])
    (hbalances : Balances outcome [] []) :
    Looks (m.live w) (m.live (Lookup.behind w outcome w.storage).2) outcome ∧
      m.Holds (Lookup.behind w outcome w.storage).2 :=
  ⟨⟨rfl, hcallbacks, hbalances⟩,
    h.behind (look_moves hcallbacks hbalances) h.ids fun _ => List.Subset.refl _⟩

omit [DecidableEq ι] in
theorem Moves.ends {before after ended : List (ι × Entry α)} {outcome : Outcome ι α}
    {meant : ι × Entry α → Prop} (h : m.Moves before after outcome [] ended)
    (hended : ∀ p ∈ ended, meant p) (hafter : ∀ p ∈ after, ¬ meant p) :
    m.Ends before after outcome meant :=
  ⟨ended, h.perm, hended, hafter, h.callbacks, h.balances⟩

theorem dispose_spec (h : m.Holds w) (i : ι) (channel id : Nat) :
    m.Specified (m.live w) (m.live (m.dispose w i channel id).2) (m.dispose w i channel id).1
        (.dispose i channel id) ∧ m.Holds (m.dispose w i channel id).2 := by
  -- a call that disposes nothing
  have hnothing : (∀ e ∈ w.storage i, e.id = id → e.channel ≠ channel) →
      m.Specified (m.live w) (m.live (Lookup.behind w {} w.storage).2)
          (Lookup.behind w ({} : Outcome ι α) w.storage).1 (.dispose i channel id) ∧
        m.Holds (Lookup.behind w ({} : Outcome ι α) w.storage).2 := by
    intro hnone
    have hmoves : m.Moves (m.live w) (m.live (Lookup.behind w {} w.storage).2) {} [] [] :=
      look_moves rfl (balances_of_eq rfl)
    have hmeant : ∀ p ∈ m.live (Lookup.behind w ({} : Outcome ι α) w.storage).2,
        ¬ (p.1 = i ∧ p.2.id = id ∧ p.2.channel = channel) := by
      rintro ⟨j, e⟩ he ⟨rfl, hid, hchannel⟩
      exact hnone e (mem_live.mp he) hid hchannel
    refine ⟨⟨fun object => ⟨nofun, fun hmem => ?_⟩, hmoves.ends (by simp) hmeant⟩,
      h.behind hmoves h.ids fun _ => List.Subset.refl _⟩
    exact absurd rfl (hnone _ (mem_live.mp hmem) rfl)
  rw [dispose]
  cases hfind : (w.storage i).find? (·.id = id) with
  | none =>
    refine hnothing fun e he hid => absurd hid ?_
    simpa using List.find?_eq_none.mp hfind e he
  | some it =>
    obtain ⟨hmem, hid⟩ := h.find_iff.mp hfind
    dsimp only
    split_ifs with hchannel
    · obtain ⟨e, before, rest, -, he, hsplit, herase⟩ :=
        List.exists_of_eraseP (p := fun e : Entry α => decide (e.id = id)) hmem (decide_eq_true hid)
      have hnodup := h.ids i
      have hit : e = it := List.inj_on_of_nodup_map hnodup (by simp [hsplit]) hmem
        ((of_decide_eq_true he).trans hid.symm)
      subst hit
      rw [hsplit, List.map_append, List.map_cons, List.nodup_middle, List.nodup_cons,
        ← List.map_append, ← herase, hid] at hnodup
      have hperm : ([] ++ w.storage i).Perm
          ([e] ++ update w.storage i ((w.storage i).eraseP (·.id = id)) i) := by
        rw [update_self, herase, hsplit]
        exact List.perm_middle
      have hsubset : ∀ j,
          update w.storage i ((w.storage i).eraseP (·.id = id)) j ⊆ w.storage j := by
        intro j
        by_cases hj : j = i
        · subst hj
          rw [update_self]
          exact List.eraseP_subset
        · rw [update_of_ne hj]
          exact List.Subset.refl _
      have hids : ∀ j, ((update w.storage i ((w.storage i).eraseP (·.id = id)) j).map
          Entry.id).Nodup := by
        intro j
        by_cases hj : j = i
        · subst hj
          rw [update_self]
          exact hnodup.2
        · rw [update_of_ne hj]
          exact h.ids j
      generalize hw : Lookup.behind w ({
          object := some e.object
          callbacks := m.notify [(false, i, e.object)]
          taken := [e.object]
          released := [e.object] } : Outcome ι α)
        (update w.storage i ((w.storage i).eraseP (·.id = id))) = r
      have hmoves : m.Moves (m.live w) (m.live r.2) r.1 [] [(i, e)] := by
        subst hw
        refine ⟨?_, rfl, balances_of_eq rfl⟩
        change (([] : List (Entry α)).map (i, ·) ++ m.live w).Perm ([e].map (i, ·) ++ _)
        exact live_perm_of_update (fun j hj => update_of_ne hj _ _) hperm
      have hmeant : ∀ p ∈ m.live r.2, ¬ (p.1 = i ∧ p.2.id = id ∧ p.2.channel = channel) := by
        subst hw
        rintro ⟨j, e'⟩ he' ⟨rfl, hid', -⟩
        have hleft : e' ∈ update w.storage j ((w.storage j).eraseP (·.id = id)) j :=
          mem_live.mp he'
        rw [update_self] at hleft
        exact hnodup.1 (List.mem_map.mpr ⟨e', hleft, hid'⟩)
      have hholds : m.Holds r.2 := by
        subst hw
        exact h.behind hmoves hids hsubset
      refine ⟨⟨fun object => ?_, hmoves.ends (by simp [hid, hchannel]) hmeant⟩, hholds⟩
      subst hw
      rw [mem_live]
      constructor
      · intro hobject
        obtain rfl := Option.some.inj hobject
        obtain ⟨id', channel', object⟩ := e
        dsimp only at hid hchannel
        subst hid hchannel
        exact hmem
      · intro hobject
        have hsame := List.inj_on_of_nodup_map (h.ids i) hmem hobject hid
        rw [Lookup.behind, hsame]
    · refine hnothing fun e he hid' => ?_
      rw [List.inj_on_of_nodup_map (h.ids i) he hmem (hid'.trans hid.symm)]
      exact hchannel

theorem closed_spec (h : m.Holds w) (channel : Nat) :
    m.Specified (m.live w) (m.live (m.closed w channel).2) (m.closed w channel).1
        (.closed channel) ∧ m.Holds (m.closed w channel).2 := by
  have hperm : (m.live w).Perm ((m.installed.flatMap fun i =>
      ((w.storage i).filter (·.channel = channel)).map (i, ·)) ++
        m.live (m.closed w channel).2) := by
    refine List.Perm.trans ?_ (List.flatMap_append_perm m.installed _ _).symm
    refine List.Perm.flatMap_left _ fun i _ => ?_
    rw [← List.map_append]
    refine (List.Perm.symm ?_).map _
    have hfilter := List.filter_append_perm (fun e => decide (e.channel = channel)) (w.storage i)
    simpa [closed, Lookup.behind] using hfilter
  have hmoves : m.Moves (m.live w) (m.live (m.closed w channel).2) (m.closed w channel).1 []
      (m.installed.flatMap fun i =>
        ((w.storage i).filter (·.channel = channel)).map (i, ·)) :=
    ⟨hperm, rfl, balances_of_eq (by simp [closed, Lookup.behind])⟩
  refine ⟨hmoves.ends (fun p hp => ?_) (fun p hp => ?_), h.behind hmoves (fun i => ?_) fun i => ?_⟩
  · obtain ⟨i, -, hp⟩ := List.mem_flatMap.mp hp
    obtain ⟨e, he, rfl⟩ := List.mem_map.mp hp
    exact of_decide_eq_true (List.mem_filter.mp he).2
  · have hleft : p.2 ∈ (w.storage p.1).filter (·.channel ≠ channel) := mem_live.mp hp
    exact of_decide_eq_true (List.mem_filter.mp hleft).2
  · exact (h.ids i).sublist (List.filter_sublist.map _)
  · exact List.filter_subset_self _

theorem check_iff (h : m.Holds w) (i : ι) (id channel : Nat) :
    (check w i id channel).1.found = true ↔
      ∃ object, (i, (⟨id, channel, object⟩ : Entry α)) ∈ m.live w := by
  rw [check, Lookup.behind]
  dsimp only
  cases hfind : (w.storage i).find? (·.id = id) with
  | none =>
    refine iff_of_false (by simp) ?_
    rintro ⟨object, hmem⟩
    simpa using List.find?_eq_none.mp hfind _ (mem_live.mp hmem)
  | some it =>
    obtain ⟨hmem, hid⟩ := h.find_iff.mp hfind
    rw [decide_eq_true_eq]
    constructor
    · rintro hchannel
      exact ⟨it.object, mem_live.mpr (by rw [← hid, ← hchannel]; exact hmem)⟩
    · rintro ⟨object, hother⟩
      have hsame := List.inj_on_of_nodup_map (h.ids i) hmem (mem_live.mp hother) hid
      rw [hsame]

theorem lookUp_spec (h : m.Holds w) (i : ι) (id channel : Nat) :
    (m.Specified (m.live w) (m.live (lookUp w i id channel).2) (lookUp w i id channel).1
        (.lookUp i id channel) ↔ Proper w (.lookUp i id channel)) ∧
      m.Holds (lookUp w i id channel).2 := by
  have hnone : (∀ e ∈ w.storage i, e.id = id → channel ≠ noChannel ∧ e.channel ≠ channel) →
      (m.Specified (m.live w) (m.live (Lookup.behind w {} w.storage).2)
          (Lookup.behind w ({} : Outcome ι α) w.storage).1 (.lookUp i id channel) ↔
        Proper w (.lookUp i id channel)) ∧
      m.Holds (Lookup.behind w ({} : Outcome ι α) w.storage).2 := by
    intro hall
    obtain ⟨hlooks, hholds⟩ := look_spec h ({} : Outcome ι α) rfl (balances_of_eq rfl)
    refine ⟨iff_of_true ⟨fun object => ⟨nofun, fun hmem => ?_⟩, hlooks⟩ ?_, hholds⟩
    · exact absurd rfl (hall _ (mem_live.mp hmem) rfl).2
    · exact fun hchannel e he hid => absurd hchannel (hall e he hid).1
  rw [lookUp]
  split_ifs with hzero
  · cases hfind : (w.storage i).find? (·.id = id) with
    | none =>
      refine hnone fun e he hid => absurd hid ?_
      simpa using List.find?_eq_none.mp hfind e he
    | some it =>
      obtain ⟨hmem, hid⟩ := h.find_iff.mp hfind
      have hsame : ∀ e ∈ w.storage i, e.id = id → e = it := fun e he hid' =>
        List.inj_on_of_nodup_map (h.ids i) he hmem (hid'.trans hid.symm)
      dsimp only
      split_ifs with hfound
      · obtain ⟨hlooks, hholds⟩ := look_spec h
          ({ object := some it.object, taken := [it.object] } : Outcome ι α) rfl
          (balances_of_eq rfl)
        refine ⟨⟨fun hspec hchannel e he hid' => ?_, fun hproper => ⟨fun object => ?_, hlooks⟩⟩,
          hholds⟩
        · have hown := mem_live.mp ((hspec.1 it.object).mp rfl)
          rw [hsame e he hid', ← hsame _ hown rfl, hchannel]
        · have hchannel : it.channel = channel :=
            hfound.elim (fun hown => hown) fun hchannel =>
              (hproper hchannel it hmem hid).trans hchannel.symm
          rw [mem_live]
          constructor
          · rintro hobject
            rw [← Option.some.inj hobject, ← hid, ← hchannel]
            exact hmem
          · intro hother
            rw [← hsame _ hother rfl]
            rfl
      · rw [not_or] at hfound
        refine hnone fun e he hid' => ?_
        rw [hsame e he hid']
        exact ⟨hfound.2, hfound.1⟩
  · refine hnone fun e he hid => ?_
    have := (h.range i e he).1
    omega

theorem instanceId_spec (h : m.Holds w) (i : ι) (object : Option α) (channel : Nat) :
    (m.Specified (m.live w) (m.live (instanceId w i object channel).2)
        (instanceId w i object channel).1 (.instanceId i object channel) ↔
      Proper w (.instanceId i object channel)) ∧
      m.Holds (instanceId w i object channel).2 := by
  obtain ⟨hlooks, hholds⟩ := look_spec h (instanceId w i object channel).1 rfl (balances_of_eq rfl)
  refine ⟨?_, hholds⟩
  have hspecified : m.Specified (m.live w) (m.live (instanceId w i object channel).2)
      (instanceId w i object channel).1 (.instanceId i object channel) ↔
      ((instanceId w i object channel).1.id ≠ 0 → ∃ o ∈ object,
        (i, ⟨(instanceId w i object channel).1.id, channel, o⟩) ∈ m.live w) ∧
      ((∃ o ∈ object, ∃ id, (i, ⟨id, channel, o⟩) ∈ m.live w) →
        (instanceId w i object channel).1.id ≠ 0) :=
    ⟨fun h => ⟨h.1, h.2.1⟩, fun h => ⟨h.1, h.2, hlooks⟩⟩
  rw [hspecified]
  cases object with
  | none => exact iff_of_true ⟨fun h => absurd rfl h, by simp⟩ (by simp [Proper])
  | some o =>
    simp only [instanceId, Lookup.behind, Proper, Option.mem_def, Option.some.injEq,
      exists_eq_left', forall_eq']
    cases hfind : (w.storage i).find? (·.object = o) with
    | none =>
      refine iff_of_true ⟨fun h => absurd rfl h, ?_⟩ (by simp)
      rintro ⟨id, hmem⟩
      exact absurd (List.find?_eq_none.mp hfind _ (mem_live.mp hmem)) (by simp)
    | some e =>
      have hmem := List.mem_of_find?_eq_some hfind
      have hobject : e.object = o := of_decide_eq_true (List.find?_some hfind :)
      simp only [Option.some.injEq, forall_eq']
      split_ifs with hfound
      · have hpos := (h.range i e hmem).1
        constructor
        · rintro ⟨hown, -⟩ hchannel
          have hother := mem_live.mp (hown (Nat.pos_iff_ne_zero.mp hpos))
          have hsame := List.inj_on_of_nodup_map (h.ids i) hmem hother rfl
          exact absurd (congrArg Entry.channel hsame) hchannel
        · intro hproper
          have hchannel : e.channel = channel := by
            by_contra hne
            exact hfound.elim (hproper hne).1 hne
          refine ⟨fun _ => mem_live.mpr ?_, fun _ => Nat.pos_iff_ne_zero.mp hpos⟩
          rw [← hobject, ← hchannel]
          exact hmem
      · rw [not_or] at hfound
        constructor
        · rintro ⟨-, hthere⟩ -
          refine ⟨hfound.1, fun e' he' hobject' hchannel => hthere ⟨e'.id, mem_live.mpr ?_⟩ rfl⟩
          rw [← hobject', ← hchannel]
          exact he'
        · intro hproper
          refine ⟨fun h => absurd rfl h, ?_⟩
          rintro ⟨id, hother⟩
          exact absurd rfl ((hproper hfound.2).2 _ (mem_live.mp hother) rfl)

/-! ### Runs -/

/-- A call that returns the same within any number of nested calls. -/
theorem exact_iff_of_perform {operation : Operation ι α} {r : Outcome ι α × World ι α}
    (hperform : ∀ turns, m.perform w turns operation = some r) (hholds : m.Holds r.2) :
    m.step w operation = r.2 ∧
      (m.Exact w operation ↔ m.Specified (m.live w) (m.live r.2) r.1 operation) := by
  refine ⟨?_, ?_, fun hspec => ⟨0, r.1, r.2, hperform 0, hspec, hholds.matched⟩⟩
  · rw [step, hperform]
    rfl
  · rintro ⟨turns, outcome, w', hreturns, hspec, -⟩
    rw [hperform] at hreturns
    obtain rfl := Option.some.inj hreturns
    exact hspec

omit [DecidableEq ι] [DecidableEq α] in
theorem disposeText_eq_none (i : ι) (channel : Nat) (id : String) (turns : Nat) :
    (disposeText i channel id turns : Option (Outcome ι α × World ι α)) = none := by
  induction turns with
  | zero => rfl
  | succ turns ih => exact ih

theorem exact_store_iff (h : m.Holds w) (i : ι) (object : α) (channel : Nat)
    (arrangement : Arrangement (Entry α)) :
    m.Exact w (.store i object channel arrangement) ↔ w.stored + 1 < 2 ^ 32 := by
  constructor
  · rintro ⟨turns, outcome, w', hreturns, hspec, -⟩
    obtain rfl : (m.store w i object channel arrangement).1 = outcome :=
      congrArg Prod.fst (Option.some.inj hreturns)
    by_contra hmany
    -- the number of the ids has come to its end
    have hid : w.nextId = 0 := by
      rw [h.next, show w.stored + 1 = 2 ^ 32 by have := h.bound; omega]
      rfl
    exact hspec.1 hid
  · intro hfew
    obtain ⟨hspec, hholds⟩ := store_spec h i object channel arrangement hfew
    exact ⟨0, _, _, rfl, hspec, hholds.matched⟩

theorem exact_step (h : m.Holds w) (operation : Operation ι α) :
    (m.Exact w operation ↔ Proper w operation) ∧
      (m.Exact w operation → m.Holds (m.step w operation)) := by
  cases operation with
  | store i object channel arrangement =>
    have hiff := exact_store_iff h i object channel arrangement
    exact ⟨hiff, fun hexact => (store_spec h i object channel arrangement (hiff.mp hexact)).2⟩
  | dispose i channel id =>
    obtain ⟨hspec, hholds⟩ := dispose_spec h i channel id
    have hperform : ∀ turns, m.perform w turns (.dispose i channel id) = some _ := fun _ => rfl
    obtain ⟨hstep, hexact⟩ := exact_iff_of_perform hperform hholds
    exact ⟨iff_of_true (hexact.mpr hspec) trivial, fun _ => hstep ▸ hholds⟩
  | disposeText i channel id =>
    refine ⟨iff_of_false ?_ not_false, ?_⟩
    all_goals
      rintro ⟨turns, outcome, w', hreturns, -⟩
      rw [perform, disposeText_eq_none] at hreturns
      cases hreturns
  | check i id channel =>
    obtain ⟨hlooks, hholds⟩ := look_spec h (check w i id channel).1 rfl (balances_of_eq rfl)
    have hperform : ∀ turns, m.perform w turns (.check i id channel) = some _ := fun _ => rfl
    obtain ⟨hstep, hexact⟩ := exact_iff_of_perform hperform hholds
    exact ⟨iff_of_true (hexact.mpr ⟨check_iff h i id channel, hlooks⟩) trivial,
      fun _ => hstep ▸ hholds⟩
  | checkText i id channel =>
    obtain ⟨hlooks, hholds⟩ := look_spec h (check w i (m.fromString id) channel).1 rfl
      (balances_of_eq rfl)
    have hperform : ∀ turns, m.perform w turns (.checkText i id channel) = some _ := fun _ => rfl
    obtain ⟨hstep, hexact⟩ := exact_iff_of_perform hperform hholds
    exact ⟨iff_of_true (hexact.mpr ⟨check_iff h i (m.fromString id) channel, hlooks⟩) trivial,
      fun _ => hstep ▸ hholds⟩
  | closed channel =>
    obtain ⟨hspec, hholds⟩ := closed_spec h channel
    have hperform : ∀ turns, m.perform w turns (.closed channel) = some _ := fun _ => rfl
    obtain ⟨hstep, hexact⟩ := exact_iff_of_perform hperform hholds
    exact ⟨iff_of_true (hexact.mpr hspec) trivial, fun _ => hstep ▸ hholds⟩
  | lookUp i id channel =>
    obtain ⟨hspec, hholds⟩ := lookUp_spec h i id channel
    have hperform : ∀ turns, m.perform w turns (.lookUp i id channel) = some _ := fun _ => rfl
    obtain ⟨hstep, hexact⟩ := exact_iff_of_perform hperform hholds
    exact ⟨hexact.trans hspec, fun _ => hstep ▸ hholds⟩
  | instanceId i object channel =>
    obtain ⟨hspec, hholds⟩ := instanceId_spec h i object channel
    have hperform : ∀ turns, m.perform w turns (.instanceId i object channel) = some _ :=
      fun _ => rfl
    obtain ⟨hstep, hexact⟩ := exact_iff_of_perform hperform hholds
    exact ⟨hexact.trans hspec, fun _ => hstep ▸ hholds⟩

/-- Of a run every call is exact, and leaves all matched, exactly when every call is proper. -/
theorem exact_iff_proper (m : Lookup ι) (operations : List (Operation ι α)) :
    Meets m.step m.Exact (start : World ι α) operations ↔
      Meets m.step Proper (start : World ι α) operations :=
  meets_iff_of_kept (I := m.Holds) (fun _ operation h => (exact_step h operation).2)
    (fun _ operation h => (exact_step h operation).1) holds_start

/-- The one interface of an example. -/
def unitLookup : Lookup Unit where
  installed := [()]
  nodup := List.nodup_singleton _
  all _ := List.mem_cons_self
  callback := false
  fromString _ := 0

def keepOrder : Arrangement (Entry Unit) := ⟨fun l => l, fun _ => .refl _⟩

/-- Both channels have stored the object, and the one asks for its id: the first entry is not its
own, and the search is over.  A text is disposed without an end. -/
theorem not_exact_stored_twice :
    ¬ Meets unitLookup.step unitLookup.Exact start
      [.store () () 1 keepOrder, .store () () 2 keepOrder, .instanceId () (some ()) 1] ∧
    ¬ Meets unitLookup.step unitLookup.Exact (start : World Unit Unit) [.disposeText () 1 "1"] := by
  constructor
  · rintro ⟨-, -, ⟨turns, outcome, w', hreturns, hspec, -⟩, -⟩
    have hid : 0 = outcome.id :=
      congrArg (fun r : Outcome Unit Unit × World Unit Unit => r.1.id) (Option.some.inj hreturns)
    refine hspec.2.1 ⟨(), rfl, 1, ?_⟩ hid.symm
    exact mem_live.mpr (List.mem_cons_of_mem _ List.mem_cons_self)
  · rintro ⟨⟨turns, outcome, w', hreturns, -⟩, -⟩
    rw [perform, disposeText_eq_none] at hreturns
    cases hreturns

end Lookup

end Thunder.PluginHost.ObjectLookup
