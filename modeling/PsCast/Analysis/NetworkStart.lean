import PsCast.Library.Run
import PsCast.Model.Http

/-!
# Starting the network

`HttpBase::init` starts five subsystems one after the other and returns at the first call
that fails, with the ones before it up; `HttpBase::end` returns at the first call that fails
with `is_init` set. So the network is up or down as a whole exactly as long as a call that
fails is the first one of its function, and an `init` fails on a network that is down
(`run_allOrNothing_iff`).
-/

set_option autoImplicit false

namespace PsCast

/-- A call of `HttpBase::init` or of `HttpBase::end`, with the results of its SDK calls. -/
inductive NetworkCall where
  | init (sdk : Sdk)
  | end_ (sdk : Sdk)

namespace Network

/-- What a call returns and leaves. -/
def call (n : Network) : NetworkCall → HttpStatus × Network
  | .init sdk => HttpBase.init sdk n
  | .end_ sdk => HttpBase.end sdk n

/-- Every call of the two functions returns. -/
def step (n : Network) (c : NetworkCall) : Option Network := some (n.call c).2

/-- `is_init` says whether all subsystems are up. -/
def FlagOk (n : Network) : Prop := n.isInit = true ↔ ∀ k, n.up k = true

/-- After the call `is_init` is right. An `init` that returns an error leaves down what was
down, and a later `init` succeeds if its calls do on subsystems that are down. -/
structure AllOrNothing (n : Network) (c : NetworkCall) : Prop where
  flag : (n.call c).2.FlagOk
  rollsBack : ∀ sdk, c = .init sdk → (HttpBase.init sdk n).1 ≠ .ok →
    ∀ k, n.up k = false → (HttpBase.init sdk n).2.up k = false
  retry : ∀ sdk later, c = .init sdk → (HttpBase.init sdk n).1 ≠ .ok →
    (∀ k, later.startCall k false = 0) →
    (HttpBase.init later (HttpBase.init sdk n).2).1 = .ok

/-- The call has nothing to do, or all its SDK calls succeed whose result it looks at, or the
first one fails; an `init` whose first call fails finds every subsystem down. -/
def Clean (n : Network) : NetworkCall → Prop
  | .init sdk => n.isInit = true ∨ (∀ k, sdk.startCall k (n.up k) = 0) ∨
      (sdk.startCall .netModule (n.up .netModule) ≠ 0 ∧ ∀ k, n.up k = false)
  | .end_ sdk => n.isInit = false ∨ (∀ k, k ≠ .netCtl → sdk.stopCall k (n.up k) = 0) ∨
      sdk.stopCall .http (n.up .http) ≠ 0

end Network

namespace Analysis

open Library Network

/-! ## The two functions -/

section Functions

variable {n : Network} {sdk : Sdk}

/-- With the flag set, `init` does nothing. -/
theorem init_of_isInit (h : n.isInit = true) : HttpBase.init sdk n = (.ok, n) := by
  rw [HttpBase.init, if_pos h]

/-- If all calls succeed, everything is up and the flag is set. -/
theorem init_of_starts (h : n.isInit = false) (hstarts : ∀ k, sdk.startCall k (n.up k) = 0) :
    HttpBase.init sdk n = (.ok, { isInit := true, up := fun _ => true }) := by
  have hup : Function.update (Function.update (Function.update (Function.update
      (Function.update n.up .netModule true) .net true) .netCtl true) .httpModule true)
      .http true = fun _ => true := by
    funext k
    cases k <;> simp [Function.update]
  simp [HttpBase.init, Network.startCall, h, hstarts, hup]

/-- If the first call fails, nothing has changed. -/
theorem init_of_netModule (h : n.isInit = false)
    (hfails : sdk.startCall .netModule (n.up .netModule) ≠ 0) :
    HttpBase.init sdk n = (.netModuleError, n) := by
  simp [HttpBase.init, Network.startCall, h, hfails]

/-- Where a later call of `init` fails, the net module stays up. -/
theorem init_of_later (h : n.isInit = false)
    (hmodule : sdk.startCall .netModule (n.up .netModule) = 0)
    (hfails : ∃ k, sdk.startCall k (n.up k) ≠ 0) :
    (HttpBase.init sdk n).1 ≠ .ok ∧ (HttpBase.init sdk n).2.isInit = false ∧
      (HttpBase.init sdk n).2.up .netModule = true := by
  by_cases hnet : sdk.startCall .net (n.up .net) = 0
  · by_cases hctl : sdk.startCall .netCtl (n.up .netCtl) = 0
    · by_cases hhttpModule : sdk.startCall .httpModule (n.up .httpModule) = 0
      · by_cases hhttp : sdk.startCall .http (n.up .http) = 0
        · obtain ⟨k, hk⟩ := hfails
          cases k <;> contradiction
        · simp [HttpBase.init, Network.startCall, h, hmodule, hnet, hctl, hhttpModule, hhttp]
      · simp [HttpBase.init, Network.startCall, h, hmodule, hnet, hctl, hhttpModule]
    · simp [HttpBase.init, Network.startCall, h, hmodule, hnet, hctl]
  · simp [HttpBase.init, Network.startCall, h, hmodule, hnet]

/-- With the flag unset, `end` does nothing. -/
theorem end_of_not_isInit (h : n.isInit = false) : HttpBase.end sdk n = (.ok, n) := by
  simp [HttpBase.end, h]

/-- If its first call fails, nothing has changed. -/
theorem end_of_http (h : n.isInit = true) (hfails : sdk.stopCall .http (n.up .http) ≠ 0) :
    HttpBase.end sdk n = (.httpRunError, n) := by
  simp [HttpBase.end, Network.stopCall, h, hfails]

/-- Where the first call of `end` succeeds, the HTTP library is down, and the flag is cleared
only if all calls succeed whose result is looked at. -/
theorem end_of_started (h : n.isInit = true) (hhttp : sdk.stopCall .http (n.up .http) = 0) :
    (HttpBase.end sdk n).2.up .http = false ∧
      ((HttpBase.end sdk n).2.isInit = false ↔
        ∀ k, k ≠ .netCtl → sdk.stopCall k (n.up k) = 0) := by
  have hall : (∀ k, k ≠ .netCtl → sdk.stopCall k (n.up k) = 0) ↔
      sdk.stopCall .httpModule (n.up .httpModule) = 0 ∧ sdk.stopCall .net (n.up .net) = 0 ∧
        sdk.stopCall .netModule (n.up .netModule) = 0 := by
    constructor
    · intro hstops
      exact ⟨hstops _ (by simp), hstops _ (by simp), hstops _ (by simp)⟩
    · rintro ⟨hhttpModule, hnet, hmodule⟩ k hk
      cases k <;> first | assumption | contradiction
  rw [hall]
  by_cases hhttpModule : sdk.stopCall .httpModule (n.up .httpModule) = 0
  · by_cases hctl : sdk.stopCall .netCtl (n.up .netCtl) = 0
    all_goals
      by_cases hnet : sdk.stopCall .net (n.up .net) = 0
      · by_cases hmodule : sdk.stopCall .netModule (n.up .netModule) = 0 <;>
          simp [HttpBase.end, Network.stopCall, h, hhttp, hhttpModule, hctl, hnet, hmodule]
      · simp [HttpBase.end, Network.stopCall, h, hhttp, hhttpModule, hctl, hnet]
  · simp [HttpBase.end, Network.stopCall, h, hhttp, hhttpModule]

end Functions

/-! ## One call -/

section Stepping

variable {n : Network}

/-- An `init` that may fail on subsystems that are up succeeds only if all of them are down. -/
theorem retry_iff (h : n.isInit = false) :
    (∀ later : Sdk, (∀ k, later.startCall k false = 0) → (HttpBase.init later n).1 = .ok) ↔
      ∀ k, n.up k = false := by
  constructor
  · intro hretry k
    by_contra hup
    set busy : Sdk :=
      { startCall := fun _ up => if up then -1 else 0, stopCall := fun _ _ => 0 } with hbusy
    have hfails : ∀ k, busy.startCall k (n.up k) = if n.up k then -1 else 0 := fun _ => rfl
    have hok := hretry busy fun _ => rfl
    by_cases hmodule : n.up .netModule = true
    · rw [init_of_netModule h (by rw [hfails, hmodule]; decide)] at hok
      cases hok
    · apply (init_of_later h _ ⟨k, _⟩).1 hok
      · rw [hfails, if_neg hmodule]
      · rw [hfails, if_pos ((Bool.not_eq_false _).mp hup)]
        decide
  · intro hdown later hstarts
    rw [init_of_starts h fun k => by rw [hdown k, hstarts k]]

/-- An `init` that returns OK has nothing to take back. -/
theorem allOrNothing_of_ok {sdk : Sdk} (hflag : (HttpBase.init sdk n).2.FlagOk)
    (hok : (HttpBase.init sdk n).1 = .ok) : n.AllOrNothing (.init sdk) where
  flag := hflag
  rollsBack sdk' heq herror := by
    obtain rfl : sdk = sdk' := NetworkCall.init.inj heq
    exact absurd hok herror
  retry sdk' later heq herror := by
    obtain rfl : sdk = sdk' := NetworkCall.init.inj heq
    exact absurd hok herror

/-- An `init` is all or nothing exactly if it is clean. -/
theorem init_allOrNothing_iff (h : n.FlagOk) (sdk : Sdk) :
    n.AllOrNothing (.init sdk) ↔ n.Clean (.init sdk) := by
  by_cases hflag : n.isInit = true
  · have hinit : HttpBase.init sdk n = (.ok, n) := init_of_isInit hflag
    apply iff_of_true _ (.inl hflag)
    apply allOrNothing_of_ok
    · rw [hinit]
      exact h
    · rw [hinit]
  rw [Bool.not_eq_true] at hflag
  by_cases hstarts : ∀ k, sdk.startCall k (n.up k) = 0
  · have hinit := init_of_starts hflag hstarts
    apply iff_of_true _ (.inr (.inl hstarts))
    apply allOrNothing_of_ok
    · rw [hinit]
      exact iff_of_true rfl fun _ => rfl
    · rw [hinit]
  have hclean : n.Clean (.init sdk) ↔
      sdk.startCall .netModule (n.up .netModule) ≠ 0 ∧ ∀ k, n.up k = false := by
    simp [Network.Clean, hflag, hstarts]
  rw [hclean]
  by_cases hmodule : sdk.startCall .netModule (n.up .netModule) = 0
  -- the net module comes up and stays up, whether or not it was up before
  · obtain ⟨herror, hunset, hup⟩ := init_of_later hflag hmodule (not_forall.mp hstarts)
    apply iff_of_false
    · intro hall
      have hdown := (retry_iff hunset).mp fun later => hall.retry sdk later rfl herror
      rw [hdown] at hup
      cases hup
    · intro hfails
      exact hfails.1 hmodule
  · have hinit := init_of_netModule hflag hmodule
    rw [← retry_iff hflag]
    constructor
    · intro hall
      refine ⟨hmodule, fun later hlater => ?_⟩
      have hretry := hall.retry sdk later rfl (by rw [hinit]; simp) hlater
      rwa [hinit] at hretry
    · rintro ⟨-, hretry⟩
      constructor
      · show (HttpBase.init sdk n).2.FlagOk
        rw [hinit]
        exact h
      · intro sdk' heq _ k hk
        obtain rfl : sdk = sdk' := NetworkCall.init.inj heq
        rw [hinit]
        exact hk
      · intro sdk' later heq _ hlater
        obtain rfl : sdk = sdk' := NetworkCall.init.inj heq
        rw [hinit]
        exact hretry later hlater

/-- An `end` is all or nothing exactly if it is clean. -/
theorem end_allOrNothing_iff (h : n.FlagOk) (sdk : Sdk) :
    n.AllOrNothing (.end_ sdk) ↔ n.Clean (.end_ sdk) := by
  have hflag : n.AllOrNothing (.end_ sdk) ↔ (HttpBase.end sdk n).2.FlagOk := by
    constructor
    · intro hall
      exact hall.flag
    · intro hflag
      refine ⟨hflag, ?_, ?_⟩
      · intro sdk' heq
        cases heq
      · intro sdk' later heq
        cases heq
  rw [hflag]
  by_cases hset : n.isInit = true
  · by_cases hhttp : sdk.stopCall .http (n.up .http) = 0
    · obtain ⟨hdown, hcleared⟩ := end_of_started hset hhttp
      have hnot : ¬ ∀ k, (HttpBase.end sdk n).2.up k = true := by
        intro hup
        rw [hup] at hdown
        cases hdown
      rw [Network.FlagOk, iff_false_right hnot, Bool.not_eq_true, hcleared]
      simp [Network.Clean, hset, hhttp]
    · apply iff_of_true _ (.inr (.inr hhttp))
      rw [end_of_http hset hhttp]
      exact h
  · rw [Bool.not_eq_true] at hset
    apply iff_of_true _ (.inl hset)
    rw [end_of_not_isInit hset]
    exact h

end Stepping

/-- **All or nothing**: in every sequence of calls, each of them starts or stops the network as
a whole exactly if each of them is clean. -/
theorem run_allOrNothing_iff (calls : List NetworkCall) :
    EachStep Network.step Network.AllOrNothing {} calls ↔
      EachStep Network.step Network.Clean {} calls := by
  apply eachStep_congr (I := Network.FlagOk)
  · intro n c hn
    cases c with
    | init sdk => exact init_allOrNothing_iff hn sdk
    | end_ sdk => exact end_allOrNothing_iff hn sdk
  · intro n c n' hn hall hstep
    obtain rfl : (n.call c).2 = n' := Option.some.inj hstep
    exact hall.flag
  · apply iff_of_false
    · exact Bool.false_ne_true
    · intro hup
      cases hup .net

/-- An SDK of which one call fails, the start of the net library. -/
def netFails : Sdk where
  startCall k _ := if k = .net then -1 else 0
  stopCall _ _ := 0

/-- The net module is up after that `init`, and was down before it. -/
theorem not_run_allOrNothing :
    ¬ (∀ calls : List NetworkCall, EachStep Network.step Network.AllOrNothing {} calls) := by
  intro h
  have hall := h [.init netFails] [] (.init netFails) [] rfl {} rfl
  have hdown := hall.rollsBack netFails rfl (by decide) .netModule rfl
  exact absurd hdown (by decide)

end Analysis

end PsCast
