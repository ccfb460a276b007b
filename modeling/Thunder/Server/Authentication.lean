import Thunder.Library.Run
import Thunder.Server.Condition
import Mathlib.Logic.Function.Basic

/-! `ServiceMap::Security` and `Officer`: the plugin that is asked for the rights that belong to a
token, while the subsystem SECURITY is active. -/

namespace Thunder.PluginHost

open Function Run

/-- `π` are the plugins that implement `IAuthenticate`, `σ` the rights that a channel may hold.
`references` counts what `QueryInterfaceByCallsign` has acquired and nothing has released. -/
structure ServiceMap (π σ ι : Type) where
  previousState : Nat
  authenticationHandler : Option π
  references : π → Nat
  channels : ι → Option σ

/-- What plugins do and what `Configuration().Security()` is. -/
structure Providers (π σ τ : Type) where
  officer : π → τ → Option σ
  base : σ

namespace ServiceMap

variable {π σ ι τ : Type} [DecidableEq π] [DecidableEq ι]

def isActive (value : Nat) : Bool := value.testBit Subsystem.security.bitNr

def new : ServiceMap π σ ι := ⟨0, none, fun _ => 0, fun _ => none⟩

variable (providers : Providers π σ τ) (services : ServiceMap π σ ι)

/-- `SecurityRevoke`, with `Revoke` of every open channel. -/
def securityRevoke : ServiceMap π σ ι :=
  { services with channels := fun id => (services.channels id).map fun _ => providers.base }

/-- `found` is what `QueryInterfaceByCallsign` returns for the callsign of the subsystem. -/
def security (enabled : Bool) (found : Option π) : ServiceMap π σ ι :=
  if services.authenticationHandler.isNone ^^ !enabled then
    match services.authenticationHandler with
    | none =>
      { services with
        authenticationHandler := found
        references := fun p =>
          if found = some p then services.references p + 1 else services.references p }
    | some _ => services.securityRevoke providers
  else services

/-- `SubSystems::Dispatch`, with the flags of the subsystems. -/
def dispatch (value : Nat) (found : Option π) : ServiceMap π σ ι :=
  let changedFlags := services.previousState ^^^ value
  let services := { services with previousState := value }
  if isActive changedFlags then services.security providers (isActive value) found else services

def officer (token : τ) : Option σ :=
  match services.authenticationHandler with
  | some handler => providers.officer handler token
  | none => some providers.base

/-- What a channel does with the token of a request that it gets: `Channel::Allowed`. -/
def allowed (id : ι) (token : τ) : ServiceMap π σ ι :=
  match services.channels id, services.officer providers token with
  | some _, some rights => { services with channels := update services.channels id (some rights) }
  | _, _ => services

def opened (id : ι) : ServiceMap π σ ι :=
  { services with channels := update services.channels id (some providers.base) }

def closed (id : ι) : ServiceMap π σ ι :=
  { services with channels := update services.channels id none }

end ServiceMap

/-! ### Runs -/

/-- `provider` is what provided SECURITY at its latest activation; the code does not keep it. -/
structure Secured (π σ ι : Type) where
  services : ServiceMap π σ ι
  provider : Option π

inductive SecurityEvent (π ι τ : Type)
  | dispatch (value : Nat) (found : Option π)
  | opened (id : ι)
  | closed (id : ι)
  | allowed (id : ι) (token : τ)

namespace Secured

open ServiceMap

variable {π σ ι τ : Type}

def init : Secured π σ ι := ⟨new, none⟩

def active (s : Secured π σ ι) : Bool := isActive s.services.previousState

/-- The provider that is to be consulted. -/
def due (s : Secured π σ ι) : Option π := if s.active then s.provider else none

def step [DecidableEq π] [DecidableEq ι] (providers : Providers π σ τ) (s : Secured π σ ι) :
    SecurityEvent π ι τ → Secured π σ ι
  | .dispatch value found =>
    { services := s.services.dispatch providers value found
      provider := if isActive value && !s.active then found else s.provider }
  | .opened id => { s with services := s.services.opened providers id }
  | .closed id => { s with services := s.services.closed id }
  | .allowed id token => { s with services := s.services.allowed providers id token }

/-- The answers are those of the provider that is due, or the default; nothing but this provider is
referenced, and it once; while SECURITY is off every open channel holds the default rights. -/
structure Follows [DecidableEq π] (providers : Providers π σ τ) (s : Secured π σ ι) : Prop where
  consulted : s.services.authenticationHandler = s.due
  references : ∀ p, s.services.references p = if s.due = some p then 1 else 0
  channels : s.active = false → ∀ id rights, s.services.channels id = some rights →
    rights = providers.base

/-- SECURITY is not switched off while a provider is held. -/
def KeptOn (s : Secured π σ ι) : SecurityEvent π ι τ → Prop
  | .dispatch value _ =>
    s.active = true → s.services.authenticationHandler ≠ none → isActive value = true
  | _ => True

/-! ### The step -/

variable {providers : Providers π σ τ} {s : Secured π σ ι}

/-- Without a provider no channel holds other rights than the default ones. -/
def Plain (providers : Providers π σ τ) (s : Secured π σ ι) : Prop :=
  s.services.authenticationHandler = none → ∀ id rights,
    s.services.channels id = some rights → rights = providers.base

theorem isActive_xor (value value' : Nat) :
    isActive (value ^^^ value') = (isActive value ^^ isActive value') := Nat.testBit_xor ..

theorem officer_none {services : ServiceMap π σ ι} {token : τ}
    (h : services.authenticationHandler = none) :
    services.officer providers token = some providers.base := by
  simp [officer, h]

section Dispatch

variable [DecidableEq π]

/-- A dispatch does nothing where SECURITY has not changed. -/
theorem dispatch_same {value : Nat} (found : Option π) (h : isActive value = s.active) :
    s.services.dispatch providers value found = { s.services with previousState := value } := by
  have hxor : isActive (s.services.previousState ^^^ value) = false := by
    rw [isActive_xor, h]
    exact Bool.xor_self _
  simp [dispatch, hxor]

theorem dispatch_changed {value : Nat} (found : Option π) (h : isActive value = !s.active) :
    s.services.dispatch providers value found =
      { s.services with previousState := value }.security providers (!s.active) found := by
  have hxor : isActive (s.services.previousState ^^^ value) = true := by
    rw [isActive_xor, h]
    exact Bool.xor_not_self _
  simp [dispatch, hxor, h]

/-- A handler that is there stays, whatever becomes of SECURITY. -/
theorem security_some {services : ServiceMap π σ ι} {handler : π} {enabled : Bool}
    {found : Option π} (h : services.authenticationHandler = some handler) :
    services.security providers enabled found =
      if enabled then services else services.securityRevoke providers := by
  cases enabled <;> simp [security, h]

theorem security_none {services : ServiceMap π σ ι} {enabled : Bool} {found : Option π}
    (h : services.authenticationHandler = none) :
    services.security providers enabled found =
      if enabled then
        { services with
          authenticationHandler := found
          references := fun p =>
            if found = some p then services.references p + 1 else services.references p }
      else services := by
  cases enabled <;> simp [security, h]

end Dispatch

section Channels

variable [DecidableEq ι]

/-- A request changes the rights of one channel, to what `Officer` gives. -/
theorem allowed_cases (providers : Providers π σ τ) (services : ServiceMap π σ ι) (id : ι)
    (token : τ) :
    services.allowed providers id token = services ∨
    ∃ rights, services.officer providers token = some rights ∧
      services.allowed providers id token =
        { services with channels := update services.channels id (some rights) } := by
  rw [allowed]
  split
  · rename_i rights _ hofficer
    exact .inr ⟨rights, hofficer, rfl⟩
  · exact .inl rfl

theorem update_base {channels : ι → Option σ} {id : ι} {entry : Option σ}
    (hentry : ∀ rights, entry = some rights → rights = providers.base)
    (h : ∀ id rights, channels id = some rights → rights = providers.base) :
    ∀ id' rights, update channels id entry id' = some rights → rights = providers.base := by
  intro id' rights hrights
  rcases eq_or_ne id' id with rfl | hne
  · rw [update_self] at hrights
    exact hentry rights hrights
  · rw [update_of_ne hne] at hrights
    exact h id' rights hrights

end Channels

variable [DecidableEq π]

/-- While SECURITY is off there is no provider. -/
theorem Follows.none_of_inactive (h : Follows providers s) (hactive : s.active = false) :
    s.services.authenticationHandler = none := by
  rw [h.consulted, due, hactive]
  rfl

def Inv (providers : Providers π σ τ) (s : Secured π σ ι) : Prop :=
  Follows providers s ∧ Plain providers s

theorem inv_init : Inv providers (init : Secured π σ ι) where
  left :=
    { consulted := by simp [due, active, init, new, isActive]
      references := fun p => by simp [due, active, init, new, isActive]
      channels := fun _ _ _ h => by simp [init, new] at h }
  right := fun _ _ _ h => by simp [init, new] at h

/-- New rights of the channels keep the invariant where they are the default ones while it asks for
that. -/
theorem inv_channels {channels : ι → Option σ} (h : Inv providers s)
    (hchannels : s.active = false ∨ s.services.authenticationHandler = none →
      ∀ id rights, channels id = some rights → rights = providers.base) :
    Inv providers { s with services := { s.services with channels := channels } } where
  left :=
    { consulted := h.1.consulted
      references := h.1.references
      channels := fun hactive => hchannels (.inl hactive) }
  right := fun hhandler => hchannels (.inr hhandler)

variable [DecidableEq ι]

theorem step_same {value : Nat} {found : Option π} (hsame : isActive value = s.active) :
    s.step providers (.dispatch value found) =
      ⟨{ s.services with previousState := value }, s.provider⟩ := by
  simp [step, dispatch_same found hsame, hsame]

theorem step_on {value : Nat} {found : Option π} (hvalue : isActive value = true)
    (hactive : s.active = false) (hhandler : s.services.authenticationHandler = none) :
    s.step providers (.dispatch value found) =
      ⟨{ s.services with
          previousState := value
          authenticationHandler := found
          references := fun p =>
            if found = some p then s.services.references p + 1 else s.services.references p },
        found⟩ := by
  have hchanged : isActive value = !s.active := by rw [hvalue, hactive]; rfl
  have hservices : { s.services with previousState := value }.authenticationHandler = none :=
    hhandler
  simp [step, dispatch_changed found hchanged, security_none hservices, hvalue, hactive]

theorem step_off {value : Nat} {found : Option π} (hvalue : isActive value = false)
    (hactive : s.active = true) :
    s.step providers (.dispatch value found) =
      ⟨{ s.services with previousState := value }.security providers false found, s.provider⟩ := by
  have hchanged : isActive value = !s.active := by rw [hvalue, hactive]; rfl
  simp [step, dispatch_changed found hchanged, hvalue, hactive]

/-- Switching off a provider that is held leaves it there. -/
theorem step_off_some (providers : Providers π σ τ) {value : Nat} (found : Option π) {handler : π}
    (hvalue : isActive value = false) (hactive : s.active = true)
    (hhandler : s.services.authenticationHandler = some handler) :
    (s.step providers (.dispatch value found)).services.authenticationHandler = some handler ∧
    (s.step providers (.dispatch value found)).due = none := by
  have hservices :
      { s.services with previousState := value }.authenticationHandler = some handler := hhandler
  rw [step_off hvalue hactive, security_some hservices]
  exact ⟨hhandler, by simp [due, active, securityRevoke, hvalue]⟩

/-! ### The runs -/

theorem inv_dispatch {value : Nat} {found : Option π} (h : Inv providers s)
    (hkept : s.KeptOn (.dispatch value found : SecurityEvent π ι τ)) :
    Inv providers (s.step providers (.dispatch value found)) := by
  obtain ⟨hfollows, hplain⟩ := h
  by_cases hsame : isActive value = s.active
  · rw [step_same hsame]
    have hactive : (⟨{ s.services with previousState := value }, s.provider⟩ :
        Secured π σ ι).active = s.active := hsame
    have hdue : (⟨{ s.services with previousState := value }, s.provider⟩ :
        Secured π σ ι).due = s.due := by simp only [due, hactive]
    refine ⟨⟨?_, ?_, ?_⟩, hplain⟩
    · rw [hdue]
      exact hfollows.consulted
    · rw [hdue]
      exact hfollows.references
    · rw [hactive]
      exact hfollows.channels
  cases hactive : s.active with
  | false =>
    have hvalue : isActive value = true := by simpa [hactive] using hsame
    have hhandler := hfollows.none_of_inactive hactive
    have hchannels := hfollows.channels hactive
    rw [step_on hvalue hactive hhandler]
    have hnone : ∀ p, s.services.references p = 0 := by
      intro p
      rw [hfollows.references p, due, hactive]
      rfl
    refine ⟨⟨?_, ?_, ?_⟩, fun _ => hchannels⟩
    · simp [due, active, hvalue]
    · simp [due, active, hvalue, hnone]
    · exact fun _ => hchannels
  | true =>
    have hvalue : isActive value = false := by simpa [hactive] using hsame
    have hhandler : s.services.authenticationHandler = none := by
      by_contra hsome
      exact absurd (hkept hactive hsome) (by simp [hvalue])
    have hservices : { s.services with previousState := value }.authenticationHandler = none :=
      hhandler
    have hnone : ∀ p, s.services.references p = 0 := by
      intro p
      rw [hfollows.references p, ← hfollows.consulted, hhandler]
      rfl
    rw [step_off hvalue hactive, security_none hservices]
    refine ⟨⟨?_, ?_, ?_⟩, hplain⟩
    · simp [due, active, hvalue, hhandler]
    · simp [due, active, hvalue, hnone]
    · exact fun _ => hplain hhandler

theorem inv_step (e : SecurityEvent π ι τ) (h : Inv providers s) (hkept : s.KeptOn e) :
    Inv providers (s.step providers e) := by
  have hbase : s.active = false ∨ s.services.authenticationHandler = none →
      ∀ id rights, s.services.channels id = some rights → rights = providers.base := by
    rintro (hactive | hhandler)
    · exact h.1.channels hactive
    · exact h.2 hhandler
  cases e with
  | dispatch value found => exact inv_dispatch h hkept
  | opened id =>
    exact inv_channels h fun hcase =>
      update_base (fun rights hrights => (Option.some.inj hrights).symm) (hbase hcase)
  | closed id =>
    exact inv_channels h fun hcase =>
      update_base (fun rights hrights => nomatch hrights) (hbase hcase)
  | allowed id token =>
    rw [step]
    rcases allowed_cases providers s.services id token with hsame | ⟨rights, hofficer, hallowed⟩
    · rw [hsame]
      exact h
    · rw [hallowed]
      refine inv_channels h fun hcase => update_base (fun _ hrights => ?_) (hbase hcase)
      have hhandler : s.services.authenticationHandler = none :=
        hcase.elim h.1.none_of_inactive fun hnone => hnone
      rw [officer_none hhandler] at hofficer
      exact (Option.some.inj hrights).symm.trans (Option.some.inj hofficer).symm

/-- Behind a step that keeps what is claimed SECURITY was not switched off under a provider. -/
theorem keptOn_of_follows (e : SecurityEvent π ι τ) (h : Follows providers (s.step providers e)) :
    s.KeptOn e := by
  cases e with
  | dispatch value found =>
    intro hactive hhandler
    by_contra hvalue
    obtain ⟨handler, hsome⟩ := Option.ne_none_iff_exists'.mp hhandler
    have hoff : isActive value = false := by simpa using hvalue
    obtain ⟨hkept, hdue⟩ := step_off_some providers found hoff hactive hsome
    rw [h.consulted, hdue] at hkept
    cases hkept
  | opened id => trivial
  | closed id => trivial
  | allowed id token => trivial

/-- The provider follows the subsystem exactly in the runs that never switch SECURITY off while a
provider is held. -/
theorem follows_exact (providers : Providers π σ τ) (events : List (SecurityEvent π ι τ)) :
    Always (step providers) (Follows providers) (init : Secured π σ ι) events ↔
      Meets (step providers) KeptOn init events :=
  always_iff_of_invariant (fun _ e h hkept => inv_step e h hkept) (fun _ h => h.1)
    (fun _ e _ h => keptOn_of_follows e h) inv_init

/-- A plugin that is switched off is consulted as before. -/
theorem not_follows_exact : ¬ ∀ (providers : Providers Unit Bool Unit)
    (events : List (SecurityEvent Unit Unit Unit)),
    Always (step providers) (Follows providers) (init : Secured Unit Bool Unit) events := by
  intro h
  have hlast := (h ⟨fun _ _ => some true, false⟩ [.dispatch 2 (some ()), .dispatch 0 none]).last
  exact absurd hlast.consulted (by decide)

end Secured

end Thunder.PluginHost
