import Mathlib.Data.List.FinRange
import Mathlib.Logic.Function.Basic

/- `ModelRegistry`: leases, loading and unloading of the served models by any number of threads.

A thread advances by one step at a time. A region under the registry's mutex or under a slot's
mutex is one step unless it reads `in_flight` or `state` and then acts on what it has read: the
lease of `acquire` and the body of `unload` are several steps, during which their mutex is held.
`shutdown`, `add` and the metadata of a slot are left out. -/
namespace Iian

structure ApiError where
  status : Nat
  message : String
  type : String := "invalid_request_error"
  param : String := ""
  code : String := ""
deriving DecidableEq, Repr

namespace ApiError

def badRequest (message param : String) : ApiError :=
  { status := 400, message := message, param := param }

def notFound (message param : String) : ApiError :=
  { status := 404, message := message, type := "not_found_error", param := param,
    code := "model_not_found" }

def unavailable (message : String) : ApiError :=
  { status := 503, message := message, type := "service_unavailable" }

end ApiError

inductive SlotState
  | unloaded | loading | loaded | failed
deriving DecidableEq, Repr

structure ModelSlot where
  name : String
  state : SlotState := .unloaded
  engine : Bool := false
  error : String := ""
  inFlight : Int := 0
  lastUsed : Nat := 0
deriving DecidableEq, Repr

def ModelSlot.loaded (s : ModelSlot) : Bool := s.state = .loaded

/-- Who has called `load`: a client, or `acquire` in one of its attempts. -/
inductive LoadCaller (n : Nat)
  | client
  | acquire (slot : Fin n) (attempt : Nat)
deriving DecidableEq, Repr

inductive UnloadCaller (n : Nat)
  | client
  | evict (keep : Fin n) (caller : LoadCaller n)
deriving DecidableEq, Repr

/-- How the last call of a thread has ended. -/
inductive Answer
  | none
  | returned (ok : Bool) (error : String)
  | threw (error : ApiError)
deriving DecidableEq, Repr

/-- What a thread does next. -/
inductive Pc (n : Nat)
  | idle (answer : Answer)
  /-- `acquire`: the region that finds the slot. -/
  | resolve (name : String)
  /-- `acquire`: the head of the loop. -/
  | attempt (slot : Fin n) (attempt : Nat)
  /-- `acquire`: the region that takes the lease. -/
  | lease (slot : Fin n) (attempt : Nat)
  /-- In that region, behind the check that the slot is loaded. -/
  | leasing (slot : Fin n)
  /-- The thread holds a lease. -/
  | leased (slot : Fin n)
  | load (slot : Fin n) (caller : LoadCaller n)
  /-- `load`: the call of the loader. -/
  | loader (slot : Fin n) (caller : LoadCaller n)
  /-- `load`: the second region, with the error of the loader. -/
  | loadEnd (slot : Fin n) (caller : LoadCaller n) (error : Option String)
  /-- `evict_beyond_max`: the head of the loop. -/
  | evict (keep : Fin n) (caller : LoadCaller n)
  | unload (slot : Fin n) (caller : UnloadCaller n)
  /-- In `unload`, behind the check of `in_flight`. -/
  | unloading (slot : Fin n) (caller : UnloadCaller n)
  /-- In `unload`, behind the reset of the engine. -/
  | unloaded (slot : Fin n) (caller : UnloadCaller n)
deriving DecidableEq, Repr

/-- The calls of clients, and the next step of a call: the time, and the error of the loader. -/
inductive RegistryInput (n : Nat)
  | acquire (name : String)
  | load (slot : Fin n)
  | unload (slot : Fin n)
  | release
  | advance (now : Nat) (loaderError : Option String)
deriving DecidableEq, Repr

structure ModelRegistry (n : Nat) where
  slots : Fin n → ModelSlot
  threads : List (Pc n)
  maxLoaded : Int := 0
  hasLoader : Bool := true

namespace ModelRegistry

variable {n : Nat} (r : ModelRegistry n)

def new (names : Fin n → String) (threads : Nat) (maxLoaded : Int) (hasLoader : Bool) :
    ModelRegistry n where
  slots := fun slot => { name := names slot }
  threads := List.replicate threads (.idle .none)
  maxLoaded := maxLoaded
  hasLoader := hasLoader

def names (r : ModelRegistry n) : String :=
  (List.finRange n).foldl (fun names slot =>
    names ++ (if names.isEmpty then "" else ", ") ++ (r.slots slot).name) ""

/-- The slot a request means. -/
def resolve (name : String) : Except ApiError (Fin n) :=
  match List.finRange n with
  | [] => .error (.unavailable "no models are configured on this server")
  | first :: rest =>
    if name.isEmpty then
      if rest.isEmpty then .ok first
      else
        match (first :: rest).filter (fun slot => (r.slots slot).loaded) with
        | [only] => .ok only
        | _ => .error (.badRequest ("'model' is required: this server serves several models (" ++
            r.names ++ ")") "model")
    else
      match (first :: rest).find? (fun slot => (r.slots slot).name = name) with
      | some slot => .ok slot
      | none => .error (.notFound ("The model '" ++ name ++ "' does not exist. Available: " ++
          r.names ++ " (GET /v1/models)") "model")

/-- The idle loaded slot that was used least recently. -/
def victim (r : ModelRegistry n) (keep : Fin n) : Option (Fin n) :=
  (List.finRange n).foldl (fun victim slot =>
    if !(r.slots slot).loaded || slot = keep || (r.slots slot).inFlight > 0 then victim
    else
      match victim with
      | none => some slot
      | some other =>
        if (r.slots slot).lastUsed < (r.slots other).lastUsed then some slot else victim) none

def loadedCount : Nat :=
  (List.finRange n).countP (fun slot => (r.slots slot).loaded)

/-- The registry's mutex is held by a thread that takes a lease. -/
def locked : Bool :=
  r.threads.any (fun
    | .leasing _ => true
    | _ => false)

/-- The slot's mutex is held by a thread that unloads it. -/
def slotLocked (slot : Fin n) : Bool :=
  r.threads.any (fun
    | .unloading other _ => other = slot
    | .unloaded other _ => other = slot
    | _ => false)

def goto (thread : Nat) (pc : Pc n) : ModelRegistry n :=
  { r with threads := r.threads.set thread pc }

def update (slot : Fin n) (change : ModelSlot → ModelSlot) : ModelRegistry n :=
  { r with slots := Function.update r.slots slot (change (r.slots slot)) }

/-- Where a thread goes on when `load` returns. -/
def loadReturns (ok : Bool) (error : String) : LoadCaller n → Pc n
  | .client => .idle (.returned ok error)
  | .acquire slot attempt =>
    if ok then .lease slot attempt
    else .idle (.threw (.unavailable ("model '" ++ (r.slots slot).name ++
      "' could not be loaded: " ++ error)))

def unloadReturns (ok : Bool) (error : String) : UnloadCaller n → Pc n
  | .client => .idle (.returned ok error)
  | .evict keep caller => if ok then .evict keep caller else r.loadReturns true "" caller

/-- The next step of a call; a thread that has to wait stays where it is. -/
def advance (thread : Nat) (now : Nat) (loaderError : Option String) : Pc n → ModelRegistry n
  | .idle _ => r
  | .resolve name =>
    if r.locked then r
    else
      match r.resolve name with
      | .error error => r.goto thread (.idle (.threw error))
      | .ok slot => r.goto thread (.attempt slot 0)
  | .attempt slot attempt =>
    if attempt < 3 then
      if (r.slots slot).loaded then r.goto thread (.lease slot attempt)
      else r.goto thread (.load slot (.acquire slot attempt))
    else r.goto thread (.idle (.threw (.unavailable ("model '" ++ (r.slots slot).name ++
      "' keeps being unloaded; raise --models-max"))))
  | .lease slot attempt =>
    if r.locked then r
    else if (r.slots slot).loaded then
      (r.update slot (fun s => { s with lastUsed := now })).goto thread (.leasing slot)
    else r.goto thread (.attempt slot (attempt + 1))
  | .leasing slot =>
    (r.update slot (fun s => { s with inFlight := s.inFlight + 1 })).goto thread (.leased slot)
  | .leased _ => r
  | .load slot caller =>
    if r.slotLocked slot then r
    else
      match (r.slots slot).state with
      | .loading => r
      | .loaded => r.goto thread (r.loadReturns true "" caller)
      | _ =>
        if r.hasLoader then
          (r.update slot (fun s => { s with state := .loading, error := "" })).goto thread
            (.loader slot caller)
        else r.goto thread (r.loadReturns false "no model loader configured" caller)
  | .loader slot caller =>
    (r.update slot (fun s => { s with engine := loaderError.isNone })).goto thread
      (.loadEnd slot caller loaderError)
  | .loadEnd slot caller error =>
    if r.slotLocked slot then r
    else
      let r := r.update slot (fun s => { s with
        state := if error.isNone then .loaded else .failed
        error := error.getD ""
        lastUsed := now })
      match error with
      | none => r.goto thread (.evict slot caller)
      | some error => r.goto thread (r.loadReturns false error caller)
  | .evict keep caller =>
    if r.maxLoaded ≤ 0 then r.goto thread (r.loadReturns true "" caller)
    else if r.locked then r
    else if (r.loadedCount : Int) ≤ r.maxLoaded then r.goto thread (r.loadReturns true "" caller)
    else
      match r.victim keep with
      | none => r.goto thread (r.loadReturns true "" caller)
      | some victim => r.goto thread (.unload victim (.evict keep caller))
  | .unload slot caller =>
    if r.slotLocked slot then r
    else
      match (r.slots slot).state with
      | .loading => r.goto thread (r.unloadReturns false "model is loading" caller)
      | .loaded =>
        if (r.slots slot).inFlight > 0 then
          r.goto thread (r.unloadReturns false "model has requests in flight" caller)
        else r.goto thread (.unloading slot caller)
      | _ => r.goto thread (r.unloadReturns true "" caller)
  | .unloading slot caller =>
    (r.update slot (fun s => { s with engine := false })).goto thread (.unloaded slot caller)
  | .unloaded slot caller =>
    (r.update slot (fun s => { s with state := .unloaded })).goto thread
      (r.unloadReturns true "" caller)

/-- A step of a thread. A call that does not fit the thread's state is no step. -/
def step (thread : Nat) (input : RegistryInput n) : ModelRegistry n :=
  match r.threads[thread]?, input with
  | some (.idle _), .acquire name => r.goto thread (.resolve name)
  | some (.idle _), .load slot => r.goto thread (.load slot .client)
  | some (.idle _), .unload slot => r.goto thread (.unload slot .client)
  | some (.leased slot), .release =>
    (r.update slot (fun s => { s with inFlight := s.inFlight - 1 })).goto thread (.idle .none)
  | some pc, .advance now loaderError => r.advance thread now loaderError pc
  | _, _ => r

/-- The registry after steps of its threads in any order. -/
def run (steps : List (Nat × RegistryInput n)) : ModelRegistry n :=
  steps.foldl (fun r step => r.step step.1 step.2) r

end ModelRegistry

end Iian
