import Iian.ModelRegistry
import Mathlib.Data.List.Induction
import Mathlib.Data.List.Perm.Basic

/- Leases against unloading, one slot at a time. What matters of a thread is its role for the
slot; a step of the registry is a move of one role among those of the other threads, and the
invariant only counts roles. -/
namespace Iian

open List

variable {n : Nat}

/-- What a thread does to a slot. -/
inductive Role
  | quiet
  | leasing
  | leased
  | loading
  | ready (ok : Bool)
  | unloading
  | unloaded
deriving DecidableEq, Repr

/-- How many threads have which role. -/
structure Tally where
  leasing : Nat := 0
  leased : Nat := 0
  loading : Nat := 0
  ready : Nat := 0
  broken : Nat := 0
  unloading : Nat := 0
  unloaded : Nat := 0
deriving DecidableEq, Repr

namespace Tally

def add (t : Tally) : Role → Tally
  | .quiet => t
  | .leasing => { t with leasing := t.leasing + 1 }
  | .leased => { t with leased := t.leased + 1 }
  | .loading => { t with loading := t.loading + 1 }
  | .ready true => { t with ready := t.ready + 1 }
  | .ready false => { t with broken := t.broken + 1 }
  | .unloading => { t with unloading := t.unloading + 1 }
  | .unloaded => { t with unloaded := t.unloaded + 1 }

def of (roles : List Role) : Tally where
  leasing := roles.count .leasing
  leased := roles.count .leased
  loading := roles.count .loading
  ready := roles.count (.ready true)
  broken := roles.count (.ready false)
  unloading := roles.count .unloading
  unloaded := roles.count .unloaded

theorem of_cons (role : Role) (roles : List Role) : of (role :: roles) = (of roles).add role := by
  cases role with
  | ready ok => cases ok <;> simp [of, add]
  | _ => simp [of, add]

theorem of_perm {roles other : List Role} (same : roles.Perm other) : of roles = of other := by
  simp only [of, same.count_eq]

/-- How many threads load the slot. -/
def loads (t : Tally) : Nat := t.loading + t.ready + t.broken

/-- How many threads are behind the check of `in_flight` in `unload`. -/
def past (t : Tally) : Nat := t.unloading + t.unloaded

/-- The moves of a thread while the others are as counted, with what becomes of the slot. -/
inductive Move (s : ModelSlot) (t : Tally) : Role → ModelSlot → Role → Prop
  | quiet : Move s t .quiet s .quiet
  | check (now : Nat) (loaded : s.state = .loaded) :
      Move s t .quiet { s with lastUsed := now } .leasing
  | lease : Move s t .leasing { s with inFlight := s.inFlight + 1 } .leased
  | release : Move s t .leased { s with inFlight := s.inFlight - 1 } .quiet
  | load (free : t.past = 0) (idle : s.state ≠ .loading) (absent : s.state ≠ .loaded) :
      Move s t .quiet { s with state := .loading, error := "" } .loading
  | loader (ok : Bool) : Move s t .loading { s with engine := ok } (.ready ok)
  | finish {ok : Bool} (error : String) (now : Nat) (free : t.past = 0) :
      Move s t (.ready ok) { s with
        state := if ok then .loaded else .failed, error := error, lastUsed := now } .quiet
  | unload (loaded : s.state = .loaded) (idle : s.inFlight ≤ 0) : Move s t .quiet s .unloading
  | reset : Move s t .unloading { s with engine := false } .unloaded
  | drop : Move s t .unloaded { s with state := .unloaded } .quiet

/-- The regions of `acquire` and `unload` for the slot do not overlap. -/
def Apart (t : Tally) : Role → Prop
  | .leasing => t.past = 0
  | .unloading => t.leasing = 0
  | _ => True

/-- What holds of a slot and the threads that concern it. -/
structure Invariant (s : ModelSlot) (t : Tally) : Prop where
  counted : s.inFlight = t.leased
  held : 0 < t.leased + t.leasing → s.state = .loaded ∧ t.past = 0
  engine : s.state = .loaded → s.engine = true ∨ 0 < t.unloaded
  loading : 0 < t.loads → s.state = .loading
  alone : t.loads ≤ 1
  ready : 0 < t.ready → s.engine = true
  busy : 0 < t.past → s.state ≠ .loading

section Moves

variable {s next : ModelSlot} {t : Tally} {before after : Role}

theorem add_ready (t : Tally) (ok : Bool) :
    (t.add (.ready ok)).leased = t.leased ∧ (t.add (.ready ok)).leasing = t.leasing ∧
      (t.add (.ready ok)).past = t.past ∧ (t.add (.ready ok)).loads = t.loads + 1 := by
  cases ok with
  | true => exact ⟨rfl, rfl, rfl, by simp only [add, loads]; omega⟩
  | false => exact ⟨rfl, rfl, rfl, rfl⟩

/-- What holds of a slot even if the regions of `acquire` and `unload` overlap. -/
structure Core (s : ModelSlot) (t : Tally) : Prop where
  counted : s.inFlight = t.leased
  loading : 0 < t.loads → s.state = .loading
  alone : t.loads ≤ 1
  ready : 0 < t.ready → s.engine = true
  busy : 0 < t.past → s.state ≠ .loading

theorem Move.core (move : Move s t before next after) (core : Core s (t.add before)) :
    Core next (t.add after) := by
  obtain ⟨counted, loading, alone, ready, busy⟩ := core
  cases move with
  | quiet => exact ⟨counted, loading, alone, ready, busy⟩
  | check => exact ⟨counted, loading, alone, ready, busy⟩
  | lease =>
    refine ⟨?_, loading, alone, ready, busy⟩
    simp only [add] at counted ⊢
    omega
  | release =>
    refine ⟨?_, loading, alone, ready, busy⟩
    simp only [add] at counted ⊢
    omega
  | load free idle absent =>
    have none : t.loads = 0 := by
      by_contra some
      exact idle (loading (by simp only [add]; omega))
    refine ⟨counted, fun _ => rfl, ?_, ready, fun some => ?_⟩
    · simp only [add, loads] at none ⊢
      omega
    · change 0 < t.past at some
      omega
  | loader ok =>
    obtain ⟨leased, _, past, loads⟩ := t.add_ready ok
    have one : (t.add .loading).loads = t.loads + 1 := by
      simp only [add, Tally.loads]
      omega
    refine ⟨leased ▸ counted, fun _ => loading (by omega), by omega, fun some => ?_, past ▸ busy⟩
    cases ok with
    | true => rfl
    | false =>
      simp only [add, Tally.loads] at some alone
      omega
  | @finish ok error now free =>
    obtain ⟨leased, _, _, loads⟩ := t.add_ready ok
    have none : t.loads = 0 := by omega
    refine ⟨leased ▸ counted, ?_, ?_, ?_, ?_⟩ <;>
      simp only [add, Tally.loads] at none ⊢ <;> omega
  | unload loaded idle =>
    refine ⟨counted, loading, alone, ready, fun _ => ?_⟩
    rw [loaded]
    decide
  | reset =>
    have idle := busy (by simp only [add, past]; omega)
    refine ⟨counted, loading, alone, fun some => absurd (loading ?_) idle, fun _ => idle⟩
    simp only [add, loads] at some ⊢
    omega
  | drop =>
    have idle := busy (by simp only [add, past]; omega)
    exact ⟨counted, fun some => absurd (loading some) idle, alone, ready, nofun⟩

/-- A move that keeps the regions apart keeps the invariant. -/
theorem Move.invariant (move : Move s t before next after) (apart : t.Apart after)
    (inv : Invariant s (t.add before)) : Invariant next (t.add after) := by
  obtain ⟨counted, held, engine, loading, alone, ready, busy⟩ := inv
  have core := move.core ⟨counted, loading, alone, ready, busy⟩
  suffices kept : (0 < (t.add after).leased + (t.add after).leasing →
      next.state = .loaded ∧ (t.add after).past = 0) ∧
      (next.state = .loaded → next.engine = true ∨ 0 < (t.add after).unloaded) from
    ⟨core.counted, kept.1, kept.2, core.loading, core.alone, core.ready, core.busy⟩
  cases move with
  | quiet => exact ⟨held, engine⟩
  | check now loaded => exact ⟨fun _ => ⟨loaded, apart⟩, engine⟩
  | lease => exact ⟨fun _ => held (by simp only [add]; omega), engine⟩
  | release => exact ⟨fun _ => held (by simp only [add]; omega), engine⟩
  | load free idle absent => exact ⟨fun some => absurd (held some).1 absent, nofun⟩
  | loader ok =>
    obtain ⟨leased, leasing, past, loads⟩ := t.add_ready ok
    refine ⟨by rw [leased, leasing, past]; exact held, fun loaded => ?_⟩
    cases (core.loading (by omega)).symm.trans loaded
  | @finish ok error now free =>
    obtain ⟨leased, leasing, _, loads⟩ := t.add_ready ok
    rw [leased, leasing, loading (by omega)] at held
    refine ⟨fun some => absurd (held some).1 (by decide), fun loaded => ?_⟩
    cases ok with
    | true => exact .inl (ready (Nat.succ_pos _))
    | false => cases loaded
  | unload loaded idle =>
    refine ⟨fun some => ?_, engine⟩
    simp only [add, Apart] at some counted apart
    omega
  | reset =>
    refine ⟨fun some => ?_, fun _ => .inr (Nat.succ_pos _)⟩
    have free := (held some).2
    simp only [add, past] at free
    omega
  | drop =>
    refine ⟨fun some => ?_, nofun⟩
    have free := (held some).2
    simp only [add, past] at free
    omega

end Moves

end Tally

/-- The role of a thread for a slot. -/
def Pc.role (slot : Fin n) : Pc n → Role
  | .leasing other => if other = slot then .leasing else .quiet
  | .leased other => if other = slot then .leased else .quiet
  | .loader other _ => if other = slot then .loading else .quiet
  | .loadEnd other _ error => if other = slot then .ready error.isNone else .quiet
  | .unloading other _ => if other = slot then .unloading else .quiet
  | .unloaded other _ => if other = slot then .unloaded else .quiet
  | _ => .quiet

variable {pc after : Pc n} {slot : Fin n}

def Pc.Quiet (pc : Pc n) : Prop := ∀ slot, pc.role slot = .quiet

/-- The thread has a role for this slot only. -/
def Pc.About (slot : Fin n) (role : Role) (pc : Pc n) : Prop :=
  ∀ other, pc.role other = if slot = other then role else .quiet

theorem Pc.Quiet.about (quiet : pc.Quiet) : pc.About slot .quiet :=
  fun other => (quiet other).trans (ite_self _).symm

theorem Pc.role_leasing : pc.role slot = .leasing ↔ pc = .leasing slot := by
  unfold Pc.role
  split <;> (try split) <;> simp_all

theorem Pc.role_leased : pc.role slot = .leased ↔ pc = .leased slot := by
  unfold Pc.role
  split <;> (try split) <;> simp_all

theorem Pc.role_unloading : pc.role slot = .unloading ↔ ∃ caller, pc = .unloading slot caller := by
  unfold Pc.role
  split <;> (try split) <;> simp_all

theorem Pc.role_unloaded : pc.role slot = .unloaded ↔ ∃ caller, pc = .unloaded slot caller := by
  unfold Pc.role
  split <;> (try split) <;> simp_all

namespace ModelRegistry

variable {r next : ModelRegistry n} {thread : Nat} {slot : Fin n}

def roles (r : ModelRegistry n) (slot : Fin n) : List Role := r.threads.map (Pc.role slot)

/-- The roles of the other threads. -/
def others (r : ModelRegistry n) (thread : Nat) (slot : Fin n) : Tally :=
  .of ((r.roles slot).eraseIdx thread)

/-- The step of a thread does not take a lease on a slot that is being unloaded, nor pass the
check of `in_flight` of a slot on which a lease is being taken. -/
def Separate (r : ModelRegistry n) (thread : Nat) : Prop :=
  match r.threads[thread]? with
  | some (.lease slot _) => (r.slots slot).loaded = true → r.slotLocked slot = false
  | some (.unload slot _) => (r.slots slot).loaded = true → (r.slots slot).inFlight ≤ 0 →
      Pc.leasing slot ∉ r.threads
  | _ => True

instance (r : ModelRegistry n) (thread : Nat) : Decidable (r.Separate thread) := by
  unfold Separate
  split <;> infer_instance

/-- A step moves one thread, for each slot in its own way. -/
structure Stepped (r next : ModelRegistry n) (thread : Nat) (pc after : Pc n) : Prop where
  here : r.threads[thread]? = some pc
  threads : next.threads = r.threads.set thread after
  moves : ∀ slot,
    (r.others thread slot).Move (r.slots slot) (pc.role slot) (next.slots slot) (after.role slot)
  apart : r.Separate thread → ∀ slot, (r.others thread slot).Apart (after.role slot)

theorem loadReturns_role (r : ModelRegistry n) (ok : Bool) (error : String)
    (caller : LoadCaller n) : (r.loadReturns ok error caller).Quiet := by
  intro slot
  cases caller with
  | client => rfl
  | acquire other attempt => cases ok <;> rfl

theorem unloadReturns_role (r : ModelRegistry n) (ok : Bool) (error : String)
    (caller : UnloadCaller n) : (r.unloadReturns ok error caller).Quiet := by
  intro slot
  cases caller with
  | client => rfl
  | evict keep caller =>
    cases ok with
    | false => exact r.loadReturns_role true "" caller slot
    | true => rfl

/-- A step that concerns one slot. -/
theorem stepped_at {before now : Role} (here : r.threads[thread]? = some pc)
    (threads : next.threads = r.threads.set thread after)
    (slots : ∀ other, other ≠ slot → next.slots other = r.slots other)
    (first : pc.About slot before) (second : after.About slot now)
    (move : (r.others thread slot).Move (r.slots slot) before (next.slots slot) now)
    (apart : r.Separate thread → (r.others thread slot).Apart now) :
    Stepped r next thread pc after := by
  refine ⟨here, threads, ?_, ?_⟩
  · intro other
    rw [first, second]
    by_cases same : slot = other
    · subst same
      rw [if_pos rfl, if_pos rfl]
      exact move
    · rw [if_neg same, if_neg same, slots other (Ne.symm same)]
      exact .quiet
  · intro separate other
    rw [second]
    by_cases same : slot = other
    · subst same
      rw [if_pos rfl]
      exact apart separate
    · rw [if_neg same]
      trivial

theorem update_stepped {before now : Role} (here : r.threads[thread]? = some pc)
    {change : ModelSlot → ModelSlot} (first : pc.About slot before) (second : after.About slot now)
    (move : (r.others thread slot).Move (r.slots slot) before (change (r.slots slot)) now)
    (apart : r.Separate thread → (r.others thread slot).Apart now) :
    Stepped r ((r.update slot change).goto thread after) thread pc after := by
  refine stepped_at here rfl (fun other same => Function.update_of_ne same ..) first second ?_ apart
  change Tally.Move _ _ _ (Function.update r.slots slot _ slot) _
  rw [Function.update_self]
  exact move

/-- A step between roles that concern no slot. -/
theorem goto_stepped (here : r.threads[thread]? = some pc) (before : pc.Quiet)
    (quiet : after.Quiet) : Stepped r (r.goto thread after) thread pc after := by
  refine ⟨here, rfl, ?_, ?_⟩
  · intro slot
    rw [before slot, quiet slot]
    exact .quiet
  · intro _ slot
    rw [quiet slot]
    trivial

theorem others_count (r : ModelRegistry n) (thread : Nat) (slot : Fin n) {role : Role}
    (absent : role ∉ r.roles slot) : ((r.roles slot).eraseIdx thread).count role = 0 :=
  count_eq_zero.mpr (fun member => absent (mem_of_mem_eraseIdx member))

theorem others_past (thread : Nat) (free : r.slotLocked slot = false) :
    (r.others thread slot).past = 0 := by
  unfold slotLocked at free
  rw [any_eq_false] at free
  have before : .unloading ∉ r.roles slot := by
    intro member
    obtain ⟨pc, inside, role⟩ := mem_map.mp member
    obtain ⟨caller, rfl⟩ := Pc.role_unloading.mp role
    exact free _ inside (decide_eq_true rfl)
  have behind : .unloaded ∉ r.roles slot := by
    intro member
    obtain ⟨pc, inside, role⟩ := mem_map.mp member
    obtain ⟨caller, rfl⟩ := Pc.role_unloaded.mp role
    exact free _ inside (decide_eq_true rfl)
  have first := others_count r thread slot before
  have second := others_count r thread slot behind
  change List.count _ _ + List.count _ _ = 0
  rw [first, second]

theorem others_leasing (thread : Nat) (free : Pc.leasing slot ∉ r.threads) :
    (r.others thread slot).leasing = 0 := by
  apply others_count
  intro member
  obtain ⟨pc, inside, role⟩ := mem_map.mp member
  rw [Pc.role_leasing.mp role] at inside
  exact free inside

section Steps

variable {now : Nat} {loaderError : Option String} {caller : LoadCaller n}

theorem advance_lease {attempt : Nat} (here : r.threads[thread]? = some (.lease slot attempt)) :
    r.advance thread now loaderError (.lease slot attempt) = r ∨ ∃ after,
      Stepped r (r.advance thread now loaderError (.lease slot attempt)) thread
        (.lease slot attempt) after := by
  rw [advance]
  split
  · exact .inl rfl
  split
  · rename_i loaded
    refine .inr ⟨_, update_stepped here (Pc.Quiet.about fun _ => rfl) (fun _ => rfl)
      (.check now (by simpa [ModelSlot.loaded] using loaded)) ?_⟩
    intro separate
    simp only [Separate, here] at separate
    exact others_past thread (separate loaded)
  · exact .inr ⟨_, goto_stepped here (fun _ => rfl) (fun _ => rfl)⟩

theorem advance_load (here : r.threads[thread]? = some (.load slot caller)) :
    r.advance thread now loaderError (.load slot caller) = r ∨ ∃ after,
      Stepped r (r.advance thread now loaderError (.load slot caller)) thread
        (.load slot caller) after := by
  rw [advance]
  split
  · exact .inl rfl
  rename_i free
  have quiet : ∀ ok error, Stepped r (r.goto thread (r.loadReturns ok error caller)) thread
      (.load slot caller) (r.loadReturns ok error caller) :=
    fun ok error => goto_stepped here (fun _ => rfl) (r.loadReturns_role ok error caller)
  split
  · exact .inl rfl
  · exact .inr ⟨_, quiet _ _⟩
  rename_i idle absent
  split
  · exact .inr ⟨_, update_stepped here (Pc.Quiet.about fun _ => rfl) (fun _ => rfl)
      (.load (others_past thread (by simpa using free)) idle absent) (fun _ => trivial)⟩
  · exact .inr ⟨_, quiet _ _⟩

theorem advance_loadEnd {error : Option String}
    (here : r.threads[thread]? = some (.loadEnd slot caller error)) :
    r.advance thread now loaderError (.loadEnd slot caller error) = r ∨ ∃ after,
      Stepped r (r.advance thread now loaderError (.loadEnd slot caller error)) thread
        (.loadEnd slot caller error) after := by
  rw [advance]
  split
  · exact .inl rfl
  rename_i free
  have move : ∀ after : Pc n, after.Quiet →
      Stepped r ((r.update slot (fun s => { s with
        state := if error.isNone then .loaded else .failed
        error := error.getD ""
        lastUsed := now })).goto thread after) thread (.loadEnd slot caller error) after := by
    intro after quiet
    exact update_stepped here (fun _ => rfl) quiet.about
      (.finish _ now (others_past thread (by simpa using free))) (fun _ => trivial)
  cases error with
  | none => exact .inr ⟨_, move _ (fun _ => rfl)⟩
  | some message => exact .inr ⟨_, move _ (loadReturns_role _ _ _ _)⟩

theorem advance_unload {caller : UnloadCaller n}
    (here : r.threads[thread]? = some (.unload slot caller)) :
    r.advance thread now loaderError (.unload slot caller) = r ∨ ∃ after,
      Stepped r (r.advance thread now loaderError (.unload slot caller)) thread
        (.unload slot caller) after := by
  have quiet : ∀ ok error, Stepped r (r.goto thread (r.unloadReturns ok error caller)) thread
      (.unload slot caller) (r.unloadReturns ok error caller) :=
    fun ok error => goto_stepped here (fun _ => rfl) (r.unloadReturns_role ok error caller)
  rw [advance]
  split
  · exact .inl rfl
  split
  · exact .inr ⟨_, quiet _ _⟩
  · rename_i loaded
    split
    · exact .inr ⟨_, quiet _ _⟩
    rename_i idle
    refine .inr ⟨_, stepped_at here rfl (fun _ _ => rfl) (Pc.Quiet.about fun _ => rfl)
      (fun _ => rfl) (.unload loaded (by omega)) ?_⟩
    intro separate
    simp only [Separate, here] at separate
    exact others_leasing thread
      (separate (by simpa [ModelSlot.loaded] using loaded) (by omega))
  · exact .inr ⟨_, quiet _ _⟩

/-- Every step of a call is a move of its thread. -/
theorem advance_stepped (here : r.threads[thread]? = some pc) :
    r.advance thread now loaderError pc = r ∨
      ∃ after, Stepped r (r.advance thread now loaderError pc) thread pc after := by
  cases pc with
  | idle answer => exact .inl rfl
  | leased slot => exact .inl rfl
  | lease slot attempt => exact advance_lease here
  | load slot caller => exact advance_load here
  | loadEnd slot caller error => exact advance_loadEnd here
  | unload slot caller => exact advance_unload here
  | resolve name =>
    rw [advance]
    split
    · exact .inl rfl
    · split <;> exact .inr ⟨_, goto_stepped here (fun _ => rfl) (fun _ => rfl)⟩
  | attempt slot attempt =>
    rw [advance]
    split
    · split <;> exact .inr ⟨_, goto_stepped here (fun _ => rfl) (fun _ => rfl)⟩
    · exact .inr ⟨_, goto_stepped here (fun _ => rfl) (fun _ => rfl)⟩
  | evict keep caller =>
    have back := goto_stepped here (fun _ => rfl) (r.loadReturns_role true "" caller)
    rw [advance]
    split
    · exact .inr ⟨_, back⟩
    split
    · exact .inl rfl
    split
    · exact .inr ⟨_, back⟩
    · split
      · exact .inr ⟨_, back⟩
      · exact .inr ⟨_, goto_stepped here (fun _ => rfl) (fun _ => rfl)⟩
  | leasing slot =>
    exact .inr ⟨_, update_stepped here (fun _ => rfl) (fun _ => rfl) .lease (fun _ => trivial)⟩
  | loader slot caller =>
    exact .inr ⟨_, update_stepped here (fun _ => rfl) (fun _ => rfl) (.loader _) (fun _ => trivial)⟩
  | unloading slot caller =>
    exact .inr ⟨_, update_stepped here (fun _ => rfl) (fun _ => rfl) .reset (fun _ => trivial)⟩
  | unloaded slot caller =>
    exact .inr ⟨_, update_stepped here (fun _ => rfl)
      (r.unloadReturns_role true "" caller).about .drop (fun _ => trivial)⟩

theorem step_stepped (r : ModelRegistry n) (thread : Nat) (input : RegistryInput n) :
    r.step thread input = r ∨ ∃ pc after, Stepped r (r.step thread input) thread pc after := by
  unfold step
  split
  · rename_i here
    exact .inr ⟨_, _, goto_stepped here (fun _ => rfl) (fun _ => rfl)⟩
  · rename_i here
    exact .inr ⟨_, _, goto_stepped here (fun _ => rfl) (fun _ => rfl)⟩
  · rename_i here
    exact .inr ⟨_, _, goto_stepped here (fun _ => rfl) (fun _ => rfl)⟩
  · rename_i slot here
    exact .inr ⟨_, _, update_stepped here (fun _ => rfl) (Pc.Quiet.about fun _ => rfl) .release
      (fun _ => trivial)⟩
  · rename_i pc now loaderError here
    rcases advance_stepped here with same | ⟨after, stepped⟩
    · exact .inl same
    · exact .inr ⟨pc, after, stepped⟩
  · exact .inl rfl

end Steps

/-- The invariant of every slot. -/
def Invariant (r : ModelRegistry n) : Prop :=
  ∀ slot, Tally.Invariant (r.slots slot) (.of (r.roles slot))

/-- What the moves of the roles keep, a step keeps for every slot. -/
theorem Stepped.keeps {holds : ModelSlot → Tally → Prop} (stepped : Stepped r next thread pc after)
    (one : ∀ slot, holds (r.slots slot) ((r.others thread slot).add (pc.role slot)) →
      holds (next.slots slot) ((r.others thread slot).add (after.role slot)))
    (all : ∀ slot, holds (r.slots slot) (.of (r.roles slot))) :
    ∀ slot, holds (next.slots slot) (.of (next.roles slot)) := by
  obtain ⟨inside, same⟩ := List.getElem?_eq_some_iff.mp stepped.here
  intro slot
  have size : thread < (r.roles slot).length := by
    rw [roles, length_map]
    exact inside
  have before : (r.roles slot)[thread] = pc.role slot := by
    rw [← same]
    exact getElem_map _
  have roles : next.roles slot = (r.roles slot).set thread (after.role slot) := by
    rw [roles, stepped.threads, map_set]
    rfl
  have start : (pc.role slot :: (r.roles slot).eraseIdx thread).Perm (r.roles slot) := by
    rw [← before]
    exact getElem_cons_eraseIdx_perm size
  have stop : (next.roles slot).Perm (after.role slot :: (r.roles slot).eraseIdx thread) := by
    rw [roles]
    exact set_perm_cons_eraseIdx size _
  have old := all slot
  rw [← Tally.of_perm start, Tally.of_cons] at old
  rw [Tally.of_perm stop, Tally.of_cons]
  exact one slot old

theorem Stepped.invariant (stepped : Stepped r next thread pc after) (separate : r.Separate thread)
    (inv : r.Invariant) : next.Invariant :=
  stepped.keeps (fun slot => (stepped.moves slot).invariant (stepped.apart separate slot)) inv

theorem new_invariant (names : Fin n → String) (threads : Nat) (maxLoaded : Int)
    (hasLoader : Bool) : (new names threads maxLoaded hasLoader).Invariant := by
  intro slot
  have roles : (new names threads maxLoaded hasLoader).roles slot =
      List.replicate threads .quiet := by
    rw [ModelRegistry.roles, new, map_replicate]
    rfl
  have none : Tally.of (List.replicate threads .quiet) = {} := by
    simp [Tally.of, count_replicate]
  rw [roles, none]
  exact ⟨rfl, nofun, nofun, nofun, by decide, nofun, nofun⟩

/-- Every step of a run keeps the regions of `acquire` and `unload` apart. -/
def SeparateRun (r : ModelRegistry n) : List (Nat × RegistryInput n) → Prop
  | [] => True
  | step :: steps => r.Separate step.1 ∧ (r.step step.1 step.2).SeparateRun steps

instance decidableSeparateRun (r : ModelRegistry n) (steps : List (Nat × RegistryInput n)) :
    Decidable (r.SeparateRun steps) :=
  match steps with
  | [] => .isTrue trivial
  | step :: steps =>
    have := decidableSeparateRun (r.step step.1 step.2) steps
    inferInstanceAs (Decidable (_ ∧ _))

theorem run_invariant (start : r.Invariant) {steps : List (Nat × RegistryInput n)}
    (separate : r.SeparateRun steps) : (r.run steps).Invariant := by
  induction steps generalizing r with
  | nil => exact start
  | cons step steps ih =>
    obtain ⟨apart, later⟩ := separate
    apply ih _ later
    rcases r.step_stepped step.1 step.2 with same | ⟨pc, after, stepped⟩
    · rw [same]
      exact start
    · exact stepped.invariant apart start

theorem run_core (start : ∀ slot, Tally.Core (r.slots slot) (.of (r.roles slot)))
    (steps : List (Nat × RegistryInput n)) :
    ∀ slot, Tally.Core ((r.run steps).slots slot) (.of ((r.run steps).roles slot)) := by
  induction steps generalizing r with
  | nil => exact start
  | cons step steps ih =>
    refine @ih (r.step step.1 step.2) ?_
    rcases r.step_stepped step.1 step.2 with same | ⟨pc, after, stepped⟩
    · rw [same]
      exact start
    · exact stepped.keeps (fun slot => (stepped.moves slot).core) start

/-- Loading is single-flight, and `in_flight` is the number of leases, in whatever order the
steps of the threads come: at most one thread loads a slot, the slot says so, and no thread is
past the check of `in_flight` in `unload` meanwhile. -/
theorem run_single_flight (names : Fin n → String) (threads : Nat) (maxLoaded : Int)
    (hasLoader : Bool) (steps : List (Nat × RegistryInput n)) (slot : Fin n) :
    let r := (new names threads maxLoaded hasLoader).run steps
    let t := Tally.of (r.roles slot)
    (r.slots slot).inFlight = r.threads.count (.leased slot) ∧ t.loads ≤ 1 ∧
      (0 < t.loads → (r.slots slot).state = .loading ∧ t.past = 0) := by
  intro r t
  have core : Tally.Core (r.slots slot) t := by
    refine run_core (fun slot => ?_) steps slot
    have inv := new_invariant names threads maxLoaded hasLoader slot
    exact ⟨inv.counted, inv.loading, inv.alone, inv.ready, inv.busy⟩
  refine ⟨?_, core.alone, fun some => ⟨core.loading some, ?_⟩⟩
  · have leased : t.leased = r.threads.count (.leased slot) := by
      simp only [t, Tally.of, roles, count_eq_countP, countP_map]
      refine countP_congr fun pc _ => ?_
      simp [Pc.role_leased]
    rw [← leased]
    exact core.counted
  · by_contra past
    exact core.busy (Nat.pos_of_ne_zero past) (core.loading some)

/-- Some thread is past the check of `in_flight` in `unload`. -/
def PastCheck (r : ModelRegistry n) (slot : Fin n) : Prop :=
  ∃ caller, Pc.unloading slot caller ∈ r.threads ∨ Pc.unloaded slot caller ∈ r.threads

theorem Invariant.leased (inv : r.Invariant) (held : Pc.leased slot ∈ r.threads) :
    (r.slots slot).engine = true ∧ ¬ r.PastCheck slot := by
  have count : ∀ {role : Role} {pc : Pc n}, pc ∈ r.threads → pc.role slot = role →
      0 < (r.roles slot).count role := by
    intro role pc member same
    rw [count_pos_iff, ← same]
    exact mem_map_of_mem member
  obtain ⟨loaded, free⟩ := (inv slot).held
    (Nat.add_pos_left (count held (Pc.role_leased.mpr rfl)) _)
  change (r.roles slot).count .unloading + (r.roles slot).count .unloaded = 0 at free
  refine ⟨?_, ?_⟩
  · rcases (inv slot).engine loaded with engine | some
    · exact engine
    · change 0 < (r.roles slot).count .unloaded at some
      omega
  · rintro ⟨caller, before | behind⟩
    · have some := count before (Pc.role_unloading.mpr ⟨caller, rfl⟩)
      omega
    · have some := count behind (Pc.role_unloaded.mpr ⟨caller, rfl⟩)
      omega

/-- While a thread holds a lease on a slot, the engine of the slot exists and no thread is past
the check of `in_flight` in `unload`, as long as no step takes a lease on a slot that is being
unloaded or passes the check of a slot on which a lease is being taken. -/
theorem run_lease_safe (names : Fin n → String) (threads : Nat) (maxLoaded : Int)
    (hasLoader : Bool) (steps : List (Nat × RegistryInput n))
    (separate : (new names threads maxLoaded hasLoader).SeparateRun steps) (slot : Fin n)
    (held : Pc.leased slot ∈ ((new names threads maxLoaded hasLoader).run steps).threads) :
    (((new names threads maxLoaded hasLoader).run steps).slots slot).engine = true ∧
      ¬ ((new names threads maxLoaded hasLoader).run steps).PastCheck slot :=
  (run_invariant (new_invariant names threads maxLoaded hasLoader) separate).leased held

/-- One model and two threads. -/
def twoThreads : ModelRegistry 1 := new (fun _ => "m") 2 0 true

def advances (thread count : Nat) : List (Nat × RegistryInput 1) :=
  List.replicate count (thread, .advance 0 none)

/-- Thread 0 loads the model for a lease. -/
def firstLease : List (Nat × RegistryInput 1) := (0, .acquire "m") :: advances 0 8

/-- Thread 1 tries to unload the model while thread 0 holds its lease. -/
theorem run_lease_safe_refused :
    Pc.leased 0 ∈ (twoThreads.run (firstLease ++ (1, .unload 0) :: advances 1 3)).threads ∧
      ((twoThreads.run (firstLease ++ (1, .unload 0) :: advances 1 3)).slots 0).engine = true := by
  have held : Pc.leased 0 ∈
      (twoThreads.run (firstLease ++ (1, .unload 0) :: advances 1 3)).threads := by
    decide
  exact ⟨held, (run_lease_safe (fun _ => "m") 2 0 true
    (firstLease ++ (1, .unload 0) :: advances 1 3) (by decide) 0 held).1⟩

/-- Thread 1 passes the check of `in_flight` between the release of a lease and the next. -/
def lateLease : List (Nat × RegistryInput 1) :=
  firstLease ++ [(0, .release), (1, .unload 0), (1, .advance 0 none), (0, .acquire "m")] ++
    advances 0 4

theorem run_lease_unloaded :
    Pc.leased 0 ∈ (twoThreads.run lateLease).threads ∧ (twoThreads.run lateLease).PastCheck 0 ∧
      Pc.leased 0 ∈ (twoThreads.run (lateLease ++ advances 1 2)).threads ∧
      ((twoThreads.run (lateLease ++ advances 1 2)).slots 0).engine = false := by
  refine ⟨by decide, ⟨.client, by decide⟩, by decide, by decide⟩

end ModelRegistry

end Iian
