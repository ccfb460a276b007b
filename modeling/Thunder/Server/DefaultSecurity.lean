import Thunder.Core.DesignatorAccessors

/-! `DefaultSecurity`: what is allowed while nobody has a token, and which service it gets to. -/

namespace Thunder.PluginHost

open Core.JSONRPC Core.JSONRPC.Message Text

/-- The configuration and the callsigns of the services.  The Controller has a callsign like any
other service, one that fits in a path and in a designator. -/
structure Server where
  webPrefix : List Char
  jsonrpcPrefix : List Char
  controllerName : List Char
  services : List (List Char)
  named : controllerName ≠ []
  plain : ∀ c ∈ controllerName, c ≠ '/' ∧ c ≠ ':'
  controller : controllerName ∈ services

inductive Request.Verb
  | get
  | post
  | other
  deriving DecidableEq

/-- A body is a JSON-RPC message with a designator, or something else. -/
inductive Request.Body
  | message (designator : List Char)
  | other

structure Request where
  verb : Request.Verb
  path : List Char
  body : Option Request.Body

inductive Request.Mode
  | restful
  | jsonrpc
  | proprietary
  deriving DecidableEq

namespace Server

def existsMethod : List Char := "exists".toList

/-! ### `DefaultSecurity`, with security enabled -/

def controllerPath (server : Server) : List Char := server.webPrefix ++ '/' :: server.controllerName

def allowedPath (server : Server) (path : List Char) : Bool :=
  path.take server.controllerPath.length = server.controllerPath

/-- `CheckMessage`, of a message that has no implicit callsign yet. -/
def checkMessage (server : Server) (designator : List Char) : Bool :=
  Message.callsign designator = server.controllerName ∧ Message.method designator = existsMethod

def allowed (server : Server) (request : Request) : Bool :=
  (request.verb = .get ∧ server.allowedPath request.path = true) ||
    match request.body with
    | some (.message designator) =>
      request.verb = .post ∧ request.path = server.jsonrpcPrefix ∧
        server.checkMessage designator = true
    | _ => false

/-! ### Where a request gets to -/

def fromIdentifier (server : Server) (callsign : List Char) : Option (List Char) :=
  if callsign ∈ server.services then some callsign else none

/-- The service below a header. -/
def below (server : Server) (header identifier : List Char) : Option (List Char) :=
  if identifier.length ≤ header.length + 1 then some server.controllerName
  else server.fromIdentifier ((identifier.drop (header.length + 1)).takeWhile (· ≠ '/'))

def fromLocator (server : Server) (identifier : List Char) :
    Option (List Char) × Request.Mode :=
  if identifier.take server.webPrefix.length = server.webPrefix then
    (server.below server.webPrefix identifier, .restful)
  else if identifier.take server.jsonrpcPrefix.length = server.jsonrpcPrefix then
    (server.below server.jsonrpcPrefix identifier, .jsonrpc)
  else (none, .proprietary)

/-- Who handles a message: the Controller with a method of its own, another service, or the service
behind a bridge. -/
inductive Target
  | own (method : List Char)
  | service (callsign : List Char)
  | composit (bridge callsign : List Char)
  deriving DecidableEq

/-- The method that `InvokeHandler` looks for. -/
def realMethod (designator : List Char) : List Char :=
  let parts := Designator.split designator
  (if parts.prefixText ≠ [] then parts.prefixText ++ [':', ':'] else []) ++ parts.method

/-- `Controller::Invoke`. -/
def invoke (server : Server) (designator : List Char) : Target :=
  match rfind (· = '/') designator (rfind (· = '@') designator none) with
  | none =>
    let callsign := Message.callsign designator
    if callsign = [] ∨ callsign = server.controllerName then .own (realMethod designator)
    else .service callsign
  | some compositeDelimiter =>
    let versionDelimiter := rfind (· = '.') designator (some compositeDelimiter)
    let callsign := Message.callsign (designator.drop (compositeDelimiter + 1))
    .composit (designator.take (versionDelimiter.getD compositeDelimiter))
      (if callsign = [] then server.controllerName else callsign)

/-! ### What is claimed of it -/

inductive Attempt
  | http (request : Request)
  | upgrade (path : List Char)

/-- What is allowed gets to the Controller or to nobody, and a message to its `exists`. -/
def Confined (server : Server) : Attempt → Prop
  | .http request => server.allowed request = true →
    (∀ service, (server.fromLocator request.path).1 = some service →
      service = server.controllerName) ∧
    ∀ designator, request.body = some (.message designator) →
      (server.fromLocator request.path).2 = .jsonrpc → server.invoke designator = .own existsMethod
  | .upgrade path => server.allowedPath path = true →
    ∀ service, (server.fromLocator path).1 = some service → service = server.controllerName

/-- No other service is called like the name that a path below the web prefix begins with. -/
def Unclaimed (server : Server) (name : List Char) : Prop :=
  name.takeWhile (· ≠ '/') ∈ server.services → name.takeWhile (· ≠ '/') = server.controllerName

/-- Where a path goes on behind the path of the Controller, that is no longer callsign of another
service.  A message for the Controller has no `#` behind its last dot, and the JSON-RPC prefix is
not below the web prefix with the callsign of another service. -/
def Apart (server : Server) : Attempt → Prop
  | .http request =>
    (request.verb = .get → ∀ rest, request.path = server.controllerPath ++ rest →
      server.Unclaimed (server.controllerName ++ rest)) ∧
    ∀ designator, request.verb = .post → request.path = server.jsonrpcPrefix →
      request.body = some (.message designator) → server.checkMessage designator = true →
      (∀ c name, server.jsonrpcPrefix = server.webPrefix ++ c :: name → name ≠ [] →
        server.Unclaimed name) ∧
      (¬ server.webPrefix <+: server.jsonrpcPrefix →
        '#' ∉ designator.drop (Designator.next
          (rfind (· = '.') designator (rfind (· = '@') designator none))))
  | .upgrade path => ∀ rest, path = server.controllerPath ++ rest →
    server.Unclaimed (server.controllerName ++ rest)

/-! ### A message that is accepted -/

section

variable {server : Server} {designator : List Char}

/-- A search that finds nothing in the part before a position goes on behind it. -/
theorem dot_eq {before method tail : List Char}
    (h : Layout designator (before ++ '.' :: method) tail) (hmethod : '.' ∉ method) :
    rfind (· = '.') designator (rfind (· = '@') designator none) = some before.length := by
  rw [h.rfind_eq (by decide)]
  exact lastIdx_append_cons (decide_eq_true rfl) fun c hc =>
    decide_eq_false fun heq => hmethod (heq ▸ hc)

/-- What is before the dot of the method has no slash and no colon where the callsign is the
Controller. -/
theorem plain_before {before : List Char} (rest : List Char) {stop : Nat}
    (htext : designator = before ++ rest)
    (hstop : callsignEnd designator before.length = some stop)
    (htake : designator.take stop = server.controllerName) : ∀ c ∈ before, c ≠ '/' ∧ c ≠ ':' := by
  intro c hc
  obtain ⟨j, hj, rfl⟩ := List.mem_iff_getElem.mp hc
  have hget : designator[j]? = some before[j] := by
    rw [htext, List.getElem?_append_left hj, List.getElem?_eq_getElem hj]
  have hname : j < stop → before[j] ∈ server.controllerName := by
    intro hlt
    rw [← htake]
    exact List.mem_of_getElem? (by rw [List.getElem?_take_of_lt hlt, hget])
  obtain rfl | ⟨hdot, hdigits⟩ := callsignEnd_cases hstop
  · exact server.plain _ (hname hj)
  · obtain hlt | rfl | hgt := Nat.lt_trichotomy j stop
    · exact server.plain _ (hname hlt)
    · have heq : before[j] = '.' := Option.some.inj (hget.symm.trans hdot)
      rw [heq]
      decide
    · obtain ⟨d, hd, hdigit⟩ := hdigits j hgt hj
      obtain rfl := Option.some.inj (hget.symm.trans hd)
      exact ⟨Designator.digit_ne hdigit (by decide), Designator.digit_ne hdigit (by decide)⟩

/-- The designators of the Controller: the last dot of the head is before the method. -/
theorem exists_before (h : Message.callsign designator = server.controllerName) :
    ∃ before method tail, Layout designator (before ++ '.' :: method) tail ∧ '.' ∉ method ∧
      ∀ c ∈ before, c ≠ '/' ∧ c ≠ ':' := by
  obtain ⟨head, tail, hlayout⟩ := exists_layout designator
  rw [callsign, hlayout.rfind_eq (by decide)] at h
  cases hdot : lastIdx (· = '.') head with
  | none =>
    rw [hdot] at h
    exact absurd h.symm server.named
  | some pos =>
    obtain ⟨before, a, method, rfl, rfl, ha, hmethod⟩ := lastIdx_eq_some.mp hdot
    obtain rfl : a = '.' := by simpa using ha
    rw [hdot, Option.bind_some] at h
    refine ⟨before, method, tail, hlayout, fun hmem => by simpa using hmethod _ hmem, ?_⟩
    cases hstop : callsignEnd designator before.length with
    | none =>
      rw [hstop] at h
      exact absurd h.symm server.named
    | some stop =>
      rw [hstop] at h
      exact plain_before ('.' :: method ++ tail) (by rw [hlayout.text]; simp) hstop h

theorem mem_substr {text : List Char} {c : Char} {start : Nat} {count : Option Nat}
    (h : text[start]? = some c) (hcount : count ≠ some 0) : c ∈ substr text start count := by
  have hdrop : text.drop start = c :: text.drop (start + 1) := by
    obtain ⟨hlt, rfl⟩ := List.getElem?_eq_some_iff.mp h
    exact List.drop_eq_getElem_cons hlt
  cases count with
  | none =>
    rw [substr, hdrop]
    exact List.mem_cons_self
  | some n =>
    cases n with
    | zero => exact absurd rfl hcount
    | succ n =>
      rw [substr, hdrop, List.take_succ_cons]
      exact List.mem_cons_self

variable {before method tail : List Char}

theorem drop_start (h : Layout designator (before ++ '.' :: method) tail) :
    designator.drop (before.length + 1) = method ++ tail := by
  rw [h.text, ← List.drop_drop, List.append_assoc, List.drop_left]
  rfl

/-- The method up to the index, where no instance id is before it. -/
theorem method_plain (h : Layout designator (before ++ '.' :: method) tail) (hmethod : '.' ∉ method)
    (hhash : '#' ∉ method ++ tail) : Message.method designator = method := by
  have hnone : ∀ c ∈ method ++ tail, decide (c = '#') = false :=
    fun c hc => decide_eq_false fun heq => hhash (heq ▸ hc)
  have hfind : find (· = '#') designator (before.length + 1) = none := by
    rw [find, drop_start h, List.findIdx?_eq_none_iff.mpr hnone]
    rfl
  have hlayout : Layout designator ((before ++ ['.']) ++ method) tail := by simpa using h
  have hsubstr := hlayout.substr_eq
  rw [List.length_append, List.length_singleton] at hsubstr
  simp only [Message.method, dot_eq h hmethod, Designator.next, hfind]
  exact hsubstr

/-- A text from a colon on up to the index has that colon. -/
theorem colon_mem (h : Layout designator (before ++ '.' :: method) tail) {colon : Nat}
    (hcolon : designator[colon]? = some ':') :
    ':' ∈ substr designator colon
      ((rfind (· = '@') designator none).bind (Designator.between colon)) := by
  apply mem_substr hcolon
  intro hzero
  rw [h.stop] at hzero
  obtain rfl | ⟨index, rfl⟩ := h.behind
  · cases hzero
  · rw [if_neg (List.cons_ne_nil _ _), Option.bind_some, Designator.between,
      Option.ite_none_right_eq_some] at hzero
    have heq : colon = (before ++ '.' :: method).length := by
      have hsub := Option.some.inj hzero.2
      omega
    rw [h.text, heq, List.getElem?_append_right (Nat.le_refl _), Nat.sub_self] at hcolon
    cases hcolon

/-- What `Method` reads of a method with an instance id: all behind the id is gone up to a colon. -/
theorem method_id (h : Layout designator (before ++ '.' :: method) tail) (hmethod : '.' ∉ method)
    {front back : List Char} (htext : method ++ tail = front ++ '#' :: back) (hfront : '#' ∉ front)
    (hcolon : ':' ∉ Message.method designator) :
    Message.method designator = front ∧ ':' ∉ back := by
  have hnone : ∀ c ∈ front, decide (c = '#') = false :=
    fun c hc => decide_eq_false fun heq => hfront (heq ▸ hc)
  have hfind : find (· = '#') designator (before.length + 1) =
      some (before.length + 1 + front.length) := by
    rw [find, drop_start h, htext, find_append hnone (decide_eq_true rfl)]
    rfl
  have htake : (designator.drop (before.length + 1)).take
      (before.length + 1 + front.length - (before.length + 1)) = front := by
    rw [drop_start h, htext, Nat.add_sub_cancel_left, List.take_left]
  have hdrop : designator.drop (before.length + 1 + front.length + 1) = back := by
    rw [Nat.add_assoc _ front.length, ← List.drop_drop, drop_start h, htext, ← List.drop_drop,
      List.drop_left]
    rfl
  simp only [Message.method, dot_eq h hmethod, Designator.next, hfind, htake] at hcolon ⊢
  cases hback : find (· = ':') designator (before.length + 1 + front.length + 1) with
  | none =>
    refine ⟨List.append_nil _, fun hmem => ?_⟩
    rw [find, hdrop, Option.map_eq_none_iff, List.findIdx?_eq_none_iff] at hback
    simpa using hback _ hmem
  | some colon =>
    rw [hback] at hcolon
    refine absurd (List.mem_append_right _ (colon_mem h ?_)) hcolon
    rw [find, Option.map_eq_some_iff] at hback
    obtain ⟨i, hi, rfl⟩ := hback
    rw [← List.getElem?_drop]
    obtain ⟨hlt, hget, -⟩ := List.findIdx?_eq_some_iff_getElem.mp hi
    rw [List.getElem?_eq_getElem hlt]
    exact congrArg some (by simpa using hget)

/-- The texts that are read as `exists` though they go on behind it. -/
theorem method_hash (h : Layout designator (before ++ '.' :: method) tail) (hmethod : '.' ∉ method)
    (hhash : '#' ∈ method ++ tail) (hexists : Message.method designator = existsMethod) :
    ∃ rest, method = existsMethod ++ '#' :: rest ∧ ':' ∉ rest := by
  obtain ⟨front, back, htext, hfront⟩ := List.eq_append_cons_of_mem hhash
  have hcolon : ':' ∉ Message.method designator := by
    rw [hexists]
    decide
  obtain ⟨hmethod', hback⟩ := method_id h hmethod htext hfront hcolon
  obtain rfl : existsMethod = front := hexists.symm.trans hmethod'
  have htail : tail ≠ '#' :: back := by
    obtain rfl | ⟨index, rfl⟩ := h.behind <;> simp
  obtain ⟨rest, hrest, hsplit⟩ | ⟨rest, hrest, hsplit⟩ := List.append_eq_append_iff.mp htext
  · cases rest with
    | nil => exact absurd hsplit htail
    | cons c rest =>
      have hmem : c ∈ existsMethod := by simp [hrest]
      obtain rfl | ⟨index, rfl⟩ := h.behind
      · cases hsplit
      · obtain ⟨rfl, -⟩ := List.cons.inj hsplit
        exact absurd hmem (by decide)
  · cases rest with
    | nil => exact absurd hsplit.symm htail
    | cons c rest =>
      obtain ⟨rfl, rfl⟩ := List.cons.inj hsplit
      exact ⟨rest, hrest, fun hmem => hback (List.mem_append_left _ hmem)⟩

/-- The handler looks for what is between the last dot and the index, where no colon is in it. -/
theorem realMethod_eq (h : Layout designator (before ++ '.' :: method) tail)
    (hmethod : '.' ∉ method) (hcolon : ∀ c ∈ before ++ '.' :: method, c ≠ ':') :
    realMethod designator = method := by
  have hpair : rfindPair (· = ':') designator (rfind (· = '@') designator none) = none :=
    h.rfindPair_eq_none (by decide) fun c hc => decide_eq_false (hcolon c hc)
  have hlayout : Layout designator ((before ++ ['.']) ++ method) tail := by simpa using h
  have hsubstr := hlayout.substr_eq
  rw [List.length_append, List.length_singleton] at hsubstr
  simp only [realMethod, Designator.split, hpair, dot_eq h hmethod, Designator.next,
    Designator.splitPrefix]
  exact hsubstr

theorem invoke_own (h : Layout designator (before ++ '.' :: method) tail)
    (hcallsign : Message.callsign designator = server.controllerName)
    (hslash : ∀ c ∈ before ++ '.' :: method, c ≠ '/') :
    server.invoke designator = .own (realMethod designator) := by
  have hnone : rfind (· = '/') designator (rfind (· = '@') designator none) = none := by
    rw [h.rfind_eq (by decide)]
    exact lastIdx_eq_none.mpr fun c hc => decide_eq_false (hslash c hc)
  simp only [invoke, hnone]
  rw [if_pos (.inr hcallsign)]

theorem invoke_composit (h : Layout designator (before ++ '.' :: method) tail)
    (hslash : '/' ∈ before ++ '.' :: method) (name : List Char) :
    server.invoke designator ≠ .own name := by
  obtain ⟨i, hi⟩ : ∃ i, rfind (· = '/') designator (rfind (· = '@') designator none) = some i := by
    rw [h.rfind_eq (by decide)]
    apply Option.ne_none_iff_exists'.mp
    intro hnone
    simpa using lastIdx_eq_none.mp hnone _ hslash
  simp only [invoke, hi]
  exact nofun

/-- An accepted message gets to `exists` where no `#` is behind the last dot. -/
theorem invoke_iff (h : server.checkMessage designator = true) :
    server.invoke designator = .own existsMethod ↔ '#' ∉ designator.drop
      (Designator.next (rfind (· = '.') designator (rfind (· = '@') designator none))) := by
  obtain ⟨hcallsign, hexists⟩ := of_decide_eq_true h
  obtain ⟨before, method, tail, hlayout, hmethod, hbefore⟩ := exists_before hcallsign
  have hhead : ∀ d, (∀ c ∈ method, c ≠ d) → (d = '/' ∨ d = ':') →
      ∀ c ∈ before ++ '.' :: method, c ≠ d := by
    intro d hd hdelimiter
    rw [List.forall_mem_append, List.forall_mem_cons]
    refine ⟨fun c hc => ?_, ?_, hd⟩
    · obtain rfl | rfl := hdelimiter
      · exact (hbefore c hc).1
      · exact (hbefore c hc).2
    · obtain rfl | rfl := hdelimiter <;> decide
  rw [dot_eq hlayout hmethod, Designator.next, drop_start hlayout]
  constructor
  · intro hown hhash
    obtain ⟨rest, rfl, hrest⟩ := method_hash hlayout hmethod hhash hexists
    have hcolon : ∀ c ∈ existsMethod ++ '#' :: rest, c ≠ ':' := by
      rw [List.forall_mem_append, List.forall_mem_cons]
      exact ⟨fun c hc => ne_of_mem_of_not_mem hc (by decide), by decide,
        fun c hc heq => hrest (heq ▸ hc)⟩
    by_cases hslash : '/' ∈ before ++ '.' :: (existsMethod ++ '#' :: rest)
    · exact invoke_composit hlayout hslash _ hown
    · rw [invoke_own hlayout hcallsign fun c hc heq => hslash (heq ▸ hc),
        realMethod_eq hlayout hmethod (hhead ':' hcolon (.inr rfl)), Target.own.injEq] at hown
      simp at hown
  · intro hhash
    have hplain := method_plain hlayout hmethod hhash
    obtain rfl : method = existsMethod := hplain.symm.trans hexists
    have hname : ∀ d, d ∉ existsMethod → ∀ c ∈ existsMethod, c ≠ d :=
      fun d hd c hc => ne_of_mem_of_not_mem hc hd
    rw [invoke_own hlayout hcallsign (hhead '/' (hname '/' (by decide)) (.inl rfl)),
      realMethod_eq hlayout hmethod (hhead ':' (hname ':' (by decide)) (.inr rfl))]

/-! ### Both tests of a path -/

theorem allowedPath_iff {path : List Char} :
    server.allowedPath path = true ↔ ∃ rest, path = server.controllerPath ++ rest := by
  rw [allowedPath, decide_eq_true_iff, eq_comm, ← List.prefix_iff_eq_take]
  exact ⟨fun ⟨rest, hrest⟩ => ⟨rest, hrest.symm⟩, fun ⟨rest, hrest⟩ => ⟨rest, hrest.symm⟩⟩

/-- Whoever is found is the Controller. -/
theorem fromIdentifier_iff {callsign : List Char} :
    (∀ service, server.fromIdentifier callsign = some service → service = server.controllerName) ↔
      (callsign ∈ server.services → callsign = server.controllerName) := by
  rw [fromIdentifier]
  split_ifs with hmem
  · simp [hmem]
  · simp [hmem]

theorem fromLocator_web {rest : List Char} :
    server.fromLocator (server.webPrefix ++ rest) =
      (server.below server.webPrefix (server.webPrefix ++ rest), .restful) := by
  rw [fromLocator, List.take_left, if_pos rfl]

theorem below_cons {header name : List Char} {c : Char} (hname : name ≠ []) :
    server.below header (header ++ c :: name) =
      server.fromIdentifier (name.takeWhile (· ≠ '/')) := by
  have hlong : ¬ (header ++ c :: name).length ≤ header.length + 1 := by
    have hpos := List.length_pos_iff.mpr hname
    simp only [List.length_append, List.length_cons]
    omega
  rw [below, if_neg hlong, ← List.drop_drop, List.drop_left]
  rfl

theorem controllerPath_append (server : Server) (rest : List Char) :
    server.controllerPath ++ rest = server.webPrefix ++ '/' :: (server.controllerName ++ rest) := by
  simp [controllerPath]

theorem fromLocator_controllerPath (server : Server) (rest : List Char) :
    server.fromLocator (server.controllerPath ++ rest) =
      (server.fromIdentifier ((server.controllerName ++ rest).takeWhile (· ≠ '/')), .restful) := by
  rw [controllerPath_append, fromLocator_web,
    below_cons (List.append_ne_nil_of_left_ne_nil server.named rest)]

/-- The service of a path that is allowed. -/
theorem path_iff {path : List Char} (h : server.allowedPath path = true) :
    (∀ service, (server.fromLocator path).1 = some service → service = server.controllerName) ↔
      ∀ rest, path = server.controllerPath ++ rest →
        server.Unclaimed (server.controllerName ++ rest) := by
  obtain ⟨rest, rfl⟩ := allowedPath_iff.mp h
  rw [fromLocator_controllerPath]
  constructor
  · intro hall rest' hrest'
    obtain rfl := List.append_cancel_left hrest'
    exact fromIdentifier_iff.mp hall
  · intro hall
    exact fromIdentifier_iff.mpr (hall rest rfl)

/-- The service of the path of the messages. -/
theorem jsonrpc_iff (server : Server) :
    (∀ service, (server.fromLocator server.jsonrpcPrefix).1 = some service →
      service = server.controllerName) ↔
      ∀ c name, server.jsonrpcPrefix = server.webPrefix ++ c :: name → name ≠ [] →
        server.Unclaimed name := by
  by_cases hpre : server.webPrefix <+: server.jsonrpcPrefix
  · obtain ⟨more, hmore⟩ := hpre
    rw [← hmore, fromLocator_web]
    obtain _ | ⟨c, name⟩ := more
    · simp [below]
    · by_cases hname : name = []
      · simp [below, hname]
      · rw [below_cons hname, fromIdentifier_iff]
        constructor
        · intro hall c' name' heq _
          obtain ⟨rfl, rfl⟩ := List.cons.inj (List.append_cancel_left heq)
          exact hall
        · intro hall
          exact hall c name rfl hname
  · have htake : server.jsonrpcPrefix.take server.webPrefix.length ≠ server.webPrefix :=
      fun heq => hpre (List.prefix_iff_eq_take.mpr heq.symm)
    have hbelow : server.below server.jsonrpcPrefix server.jsonrpcPrefix =
        some server.controllerName := by rw [below, if_pos (Nat.le_succ _)]
    rw [fromLocator, if_neg htake, List.take_length, if_pos rfl, hbelow]
    refine ⟨fun _ c name heq => absurd ⟨_, heq.symm⟩ hpre, fun _ service hservice => ?_⟩
    exact (Option.some.inj hservice).symm

theorem jsonrpc_mode (server : Server) :
    (server.fromLocator server.jsonrpcPrefix).2 = .jsonrpc ↔
      ¬ server.webPrefix <+: server.jsonrpcPrefix := by
  rw [fromLocator, List.take_length, if_pos rfl, List.prefix_iff_eq_take,
    eq_comm (a := server.webPrefix)]
  split_ifs with heq
  · simp [heq]
  · simp [heq]

theorem get_mode {path : List Char} (h : server.allowedPath path = true) :
    (server.fromLocator path).2 = .restful := by
  obtain ⟨rest, rfl⟩ := allowedPath_iff.mp h
  rw [fromLocator_controllerPath]

/-- What is allowed is a path of the Controller or a message for it. -/
theorem allowed_iff {request : Request} : server.allowed request = true ↔
    (request.verb = .get ∧ server.allowedPath request.path = true) ∨
      ∃ designator, request.body = some (.message designator) ∧ request.verb = .post ∧
        request.path = server.jsonrpcPrefix ∧ server.checkMessage designator = true := by
  obtain ⟨verb, path, body⟩ := request
  obtain _ | designator | _ := body <;> simp [allowed]

/-- Without a token one gets to the Controller alone, and by a message to its `exists`, exactly
where the path and the method do not go on behind what is tested of them. -/
theorem confined_iff (server : Server) (a : Attempt) : server.Confined a ↔ server.Apart a := by
  cases a with
  | upgrade path =>
    rw [Confined, Apart]
    constructor
    · intro hconfined rest hrest
      exact (path_iff (allowedPath_iff.mpr ⟨rest, hrest⟩)).mp
        (hconfined (allowedPath_iff.mpr ⟨rest, hrest⟩)) rest hrest
    · intro hapart hallowed
      exact (path_iff hallowed).mpr hapart
  | http request =>
    rw [Confined, Apart, allowed_iff]
    constructor
    · intro hconfined
      refine ⟨fun hverb rest hrest => ?_, fun designator hverb hpath hbody hcheck => ?_⟩
      · have hallowed := allowedPath_iff.mpr ⟨rest, hrest⟩
        exact (path_iff hallowed).mp (hconfined (.inl ⟨hverb, hallowed⟩)).1 rest hrest
      · obtain ⟨hservice, hmethod⟩ :=
          hconfined (.inr ⟨designator, hbody, hverb, hpath, hcheck⟩)
        rw [hpath] at hservice hmethod
        refine ⟨(jsonrpc_iff server).mp hservice, fun hpre => ?_⟩
        exact (invoke_iff hcheck).mp (hmethod designator hbody ((jsonrpc_mode server).mpr hpre))
    · rintro ⟨hget, hpost⟩ (⟨hverb, hallowed⟩ | ⟨designator, hbody, hverb, hpath, hcheck⟩)
      · refine ⟨(path_iff hallowed).mpr (hget hverb), fun _ _ hmode => ?_⟩
        rw [get_mode hallowed] at hmode
        cases hmode
      · obtain ⟨hservice, hmethod⟩ := hpost designator hverb hpath hbody hcheck
        rw [hpath]
        refine ⟨(jsonrpc_iff server).mpr hservice, fun designator' hbody' hmode => ?_⟩
        obtain rfl := Request.Body.message.inj (Option.some.inj (hbody'.symm.trans hbody))
        exact (invoke_iff hcheck).mpr (hmethod ((jsonrpc_mode server).mp hmode))

end

/-- The path of a service that is called like the Controller with more behind it. -/
theorem not_confined_longer :
    ¬ (⟨"/Service".toList, "/jsonrpc".toList, "Controller".toList,
        ["Controller".toList, "ControllerX".toList], by decide, forall_mem_of_all (by decide),
        by decide⟩ : Server).Confined (.upgrade "/Service/ControllerX".toList) := by
  intro h
  exact absurd (h (by decide) "ControllerX".toList (by decide)) (by decide)

/-- A method with an instance id is taken for `exists`. -/
theorem not_confined_hash :
    ¬ (⟨"/Service".toList, "/jsonrpc".toList, "Controller".toList, ["Controller".toList], by decide,
        forall_mem_of_all (by decide), by decide⟩ : Server).Confined
      (.http ⟨.post, "/jsonrpc".toList, some (.message "Controller.exists#1".toList)⟩) := by
  intro h
  exact absurd ((h (by decide)).2 _ rfl (by decide)) (by decide)

end Server

end Thunder.PluginHost
