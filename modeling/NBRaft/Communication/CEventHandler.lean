import NBRaft.Library.Bag
import NBRaft.Library.Threads
import NBRaft.Library.Transition

/-!
# Events and their handlers

`CEventHandler` keeps a list of weak pointers for each kind of event. A thread that dispatches an
event walks along the list under the mutex: handlers that exist are taken over, as shared
pointers, and the others are erased. Then, without the mutex, it calls those it has taken over.
Handlers are released in the meantime; one exists as long as an owner or a dispatch holds it.
-/

namespace NBRaft.Communication

open Transition Threads

inductive EventKind where
  | close
  | connect
  | dataReady
  deriving DecidableEq, Repr

namespace CEventHandler

/-- Where a thread is in `onClosed`, `onConnected` or `onDataReady`. -/
inductive Pc (H : Type) where
  | idle
  | locking (kind : EventKind)
  | walking (kind : EventKind) (it : Nat) (handlersToCall : List H)
  | calling (kind : EventKind) (handlersToCall : List H) (i : Nat)
  deriving DecidableEq, Repr

def Pc.handlersToCall {H : Type} : Pc H → List H
  | .walking _ _ handlersToCall | .calling _ handlersToCall _ => handlersToCall
  | _ => []

def Pc.isBusy {H : Type} : Pc H → Bool
  | .idle => false
  | _ => true

def Pc.isWalking {H : Type} : Pc H → Bool
  | .walking .. => true
  | _ => false

theorem Pc.isBusy_of_mem {H : Type} {pc : Pc H} {x : H} (h : x ∈ pc.handlersToCall) :
    pc.isBusy = true := by
  cases pc with
  | idle => cases h
  | _ => rfl

inductive Event (H : Type) where
  /-- `addCloseHandler` and the like. -/
  | add (kind : EventKind) (handler : H)
  /-- Another shared pointer to a handler is made, or one is dropped. -/
  | retain (handler : H)
  | release (handler : H)
  | dispatch (tid : Nat) (kind : EventKind)
  | advance (tid : Nat)
  /-- The handler that is called throws. -/
  | throw (tid : Nat)
  deriving DecidableEq, Repr

end CEventHandler

open CEventHandler

/-- The lists are `m_closeHandlers`, `m_connectHandlers` and `m_dataReadyHandlers`. `dispatching`
names the threads in a dispatch; `registered` and `called` are histories. -/
structure CEventHandler (H : Type) where
  m_handlers : EventKind → List H := fun _ => []
  m_mutex : Option Nat := none
  threads : Nat → Pc H := fun _ => .idle
  dispatching : List Nat := []
  /-- The shared pointers that owners hold. -/
  owners : H → Nat := fun _ => 1
  registered : EventKind → List H := fun _ => []
  called : Nat → List H := fun _ => []

namespace CEventHandler

def goto {H : Type} (tid : Nat) (pc : Pc H) (c : CEventHandler H) : CEventHandler H :=
  { c with threads := Function.update c.threads tid pc }

@[simp] theorem goto_threads_self {H : Type} {tid : Nat} {pc : Pc H} {c : CEventHandler H} :
    (c.goto tid pc).threads tid = pc :=
  Function.update_self ..

def call {H : Type} (tid : Nat) (handler : H) (c : CEventHandler H) : CEventHandler H :=
  { c with called := Function.update c.called tid (c.called tid ++ [handler]) }

variable {H : Type} [DecidableEq H]

/-- `weak_ptr::expired`. -/
def expired (c : CEventHandler H) (handler : H) : Bool :=
  c.owners handler = 0 ∧ ∀ tid ∈ c.dispatching, handler ∉ (c.threads tid).handlersToCall

def addHandler (kind : EventKind) (handler : H) (c : CEventHandler H) :
    Except String (CEventHandler H) :=
  if c.expired handler then .error "handler is expired"
  else .ok { c with
    m_handlers := Function.update c.m_handlers kind (c.m_handlers kind ++ [handler])
    registered := Function.update c.registered kind (c.registered kind ++ [handler]) }

def addCloseHandler : H → CEventHandler H → Except String (CEventHandler H) := addHandler .close

def addConnectHandler : H → CEventHandler H → Except String (CEventHandler H) :=
  addHandler .connect

def addDataReadyHandler : H → CEventHandler H → Except String (CEventHandler H) :=
  addHandler .dataReady

def onClosed (tid : Nat) : CEventHandler.Event H := .dispatch tid .close

def onConnected (tid : Nat) : CEventHandler.Event H := .dispatch tid .connect

def onDataReady (tid : Nat) : CEventHandler.Event H := .dispatch tid .dataReady

/-- A dispatch is over, and `handlersToCall` is destroyed. -/
def finish (tid : Nat) (c : CEventHandler H) : CEventHandler H :=
  { c with dispatching := c.dispatching.erase tid }.goto tid .idle

def advance (tid : Nat) (c : CEventHandler H) : Pc H → Option (CEventHandler H)
  | .idle => none
  | .locking kind =>
    if c.m_mutex = none then some ({ c with m_mutex := some tid }.goto tid (.walking kind 0 []))
    else none
  | .walking kind it handlersToCall =>
    match (c.m_handlers kind)[it]? with
    | some handler =>
      if c.expired handler then some { c with
        m_handlers := Function.update c.m_handlers kind ((c.m_handlers kind).eraseIdx it) }
      else some (c.goto tid (.walking kind (it + 1) (handlersToCall ++ [handler])))
    | none => some ({ c with m_mutex := none }.goto tid (.calling kind handlersToCall 0))
  | .calling kind handlersToCall i =>
    match handlersToCall[i]? with
    | some handler => some ((c.call tid handler).goto tid (.calling kind handlersToCall (i + 1)))
    | none => some (c.finish tid)

/-- Some thread walks along the list. -/
def walked (c : CEventHandler H) (kind : EventKind) : Bool :=
  match c.m_mutex.map c.threads with
  | some (.walking k _ _) => k = kind
  | _ => false

/-- The lists are added to without the mutex: to do so while a thread walks along the list is not
defined. -/
def step (c : CEventHandler H) : CEventHandler.Event H → Option (CEventHandler H)
  | .add kind handler =>
    if c.walked kind then none
    else
      match c.addHandler kind handler with
      | .error _ => some c
      | .ok c' => some c'
  | .retain handler =>
    if c.expired handler then none
    else some { c with owners := Function.update c.owners handler (c.owners handler + 1) }
  | .release handler =>
    if c.owners handler = 0 then none
    else some { c with owners := Function.update c.owners handler (c.owners handler - 1) }
  | .dispatch tid kind =>
    match c.threads tid with
    | .idle => some ({ c with dispatching := c.dispatching ++ [tid] }.goto tid (.locking kind))
    | _ => none
  | .advance tid => c.advance tid (c.threads tid)
  | .throw tid =>
    match c.threads tid with
    | .calling _ handlersToCall i =>
      match handlersToCall[i]? with
      | some handler => some ((c.call tid handler).finish tid)
      | none => none
    | _ => none

/-! ## What a step can do -/

def register (kind : EventKind) (handler : H) (c : CEventHandler H) : CEventHandler H :=
  { c with
    m_handlers := Function.update c.m_handlers kind (c.m_handlers kind ++ [handler])
    registered := Function.update c.registered kind (c.registered kind ++ [handler]) }

def erase (kind : EventKind) (it : Nat) (c : CEventHandler H) : CEventHandler H :=
  { c with m_handlers := Function.update c.m_handlers kind ((c.m_handlers kind).eraseIdx it) }

inductive Move (c : CEventHandler H) : CEventHandler.Event H → CEventHandler H → Prop where
  | add {kind : EventKind} {x : H} : c.walked kind = false → c.expired x = false →
    Move c (.add kind x) (c.register kind x)
  | reject {kind : EventKind} {x : H} : c.expired x = true → Move c (.add kind x) c
  | retain {x : H} : c.expired x = false →
    Move c (.retain x) { c with owners := Function.update c.owners x (c.owners x + 1) }
  | release {x : H} : c.owners x ≠ 0 →
    Move c (.release x) { c with owners := Function.update c.owners x (c.owners x - 1) }
  | dispatch {tid : Nat} {kind : EventKind} : c.threads tid = .idle →
    Move c (.dispatch tid kind)
      ({ c with dispatching := c.dispatching ++ [tid] }.goto tid (.locking kind))
  | lock {tid : Nat} {kind : EventKind} : c.threads tid = .locking kind → c.m_mutex = none →
    Move c (.advance tid) ({ c with m_mutex := some tid }.goto tid (.walking kind 0 []))
  | erase {tid : Nat} {kind : EventKind} {it : Nat} {hs : List H} {x : H} :
    c.threads tid = .walking kind it hs → (c.m_handlers kind)[it]? = some x →
      c.expired x = true → Move c (.advance tid) (c.erase kind it)
  | take {tid : Nat} {kind : EventKind} {it : Nat} {hs : List H} {x : H} :
    c.threads tid = .walking kind it hs → (c.m_handlers kind)[it]? = some x →
      c.expired x = false →
        Move c (.advance tid) (c.goto tid (.walking kind (it + 1) (hs ++ [x])))
  | unlock {tid : Nat} {kind : EventKind} {it : Nat} {hs : List H} :
    c.threads tid = .walking kind it hs → (c.m_handlers kind)[it]? = none →
      Move c (.advance tid) ({ c with m_mutex := none }.goto tid (.calling kind hs 0))
  | call {tid : Nat} {kind : EventKind} {hs : List H} {i : Nat} {x : H} :
    c.threads tid = .calling kind hs i → hs[i]? = some x →
      Move c (.advance tid) ((c.call tid x).goto tid (.calling kind hs (i + 1)))
  | finish {tid : Nat} {kind : EventKind} {hs : List H} {i : Nat} :
    c.threads tid = .calling kind hs i → hs[i]? = none → Move c (.advance tid) (c.finish tid)
  | throw {tid : Nat} {kind : EventKind} {hs : List H} {i : Nat} {x : H} :
    c.threads tid = .calling kind hs i → hs[i]? = some x →
      Move c (.throw tid) ((c.call tid x).finish tid)

section

variable {c d : CEventHandler H} {e : CEventHandler.Event H} {tid t : Nat} {kind : EventKind}
  {x : H} {pc : Pc H}

theorem move_of_advance {pc : Pc H} (hpc : c.threads tid = pc) (h : c.advance tid pc = some d) :
    Move c (.advance tid) d := by
  cases pc with
  | idle => cases h
  | locking kind =>
    simp only [advance, Option.ite_none_right_eq_some, Option.some.injEq] at h
    obtain ⟨hfree, rfl⟩ := h
    exact .lock hpc hfree
  | walking kind it hs =>
    simp only [advance] at h
    split at h
    · rename_i x hx
      split_ifs at h with hexpired
      · cases h
        exact .erase hpc hx hexpired
      · cases h
        exact .take hpc hx (by simpa using hexpired)
    · rename_i hnone
      cases h
      exact .unlock hpc hnone
  | calling kind hs i =>
    simp only [advance] at h
    split at h
    · rename_i x hx
      cases h
      exact .call hpc hx
    · rename_i hnone
      cases h
      exact .finish hpc hnone

/-- Every step is one of these. -/
theorem move_of_step (h : c.step e = some d) : Move c e d := by
  cases e with
  | add kind x =>
    simp only [step, addHandler] at h
    split_ifs at h with hwalked hexpired
    · cases h
      exact .reject hexpired
    · cases h
      exact .add (by simpa using hwalked) (by simpa using hexpired)
  | retain x =>
    simp only [step, Option.ite_none_left_eq_some, Option.some.injEq] at h
    obtain ⟨hexpired, rfl⟩ := h
    exact .retain (by simpa using hexpired)
  | release x =>
    simp only [step, Option.ite_none_left_eq_some, Option.some.injEq] at h
    obtain ⟨howners, rfl⟩ := h
    exact .release howners
  | dispatch tid kind =>
    simp only [step] at h
    split at h
    · rename_i hidle
      cases h
      exact .dispatch hidle
    · cases h
  | advance tid => exact move_of_advance rfl h
  | throw tid =>
    simp only [step] at h
    split at h
    · rename_i hpc
      split at h
      · rename_i x hx
        cases h
        exact .throw hpc hx
      · cases h
    · cases h

/-! ## Handlers that are gone -/

theorem expired_iff : c.expired x = true ↔
    c.owners x = 0 ∧ ∀ t ∈ c.dispatching, x ∉ (c.threads t).handlersToCall := by
  simp [expired]

/-- A thread goes on, and takes over only what exists. -/
theorem expired_goto (hdispatching : Listed Pc.isBusy c.threads c.dispatching)
    (howners : d.owners = c.owners) (hthreads : d.threads = Function.update c.threads tid pc)
    (hmem : ∀ t ∈ d.dispatching, t ≠ tid → t ∈ c.dispatching)
    (hpc : ∀ y ∈ pc.handlersToCall, y ∈ (c.threads tid).handlersToCall ∨ c.expired y = false)
    (hx : c.expired x = true) : d.expired x = true := by
  obtain ⟨hnone, hheld⟩ := expired_iff.mp hx
  refine expired_iff.mpr ⟨howners ▸ hnone, fun t ht hxt => ?_⟩
  rw [hthreads] at hxt
  by_cases hne : t = tid
  · subst hne
    rw [Function.update_self] at hxt
    rcases hpc x hxt with hxt | hexists
    · exact hheld t ((hdispatching.mem_iff t).mpr (Pc.isBusy_of_mem hxt)) hxt
    · simp [hexists] at hx
  · rw [Function.update_of_ne hne] at hxt
    exact hheld t (hmem t ht hne) hxt

/-- A handler that is gone does not come back. -/
theorem Move.expired (h : Move c e d) (hdispatching : Listed Pc.isBusy c.threads c.dispatching)
    (hx : c.expired x = true) : d.expired x = true := by
  cases h with
  | add | reject | erase => exact hx
  | @retain y hy =>
    obtain ⟨hnone, hheld⟩ := expired_iff.mp hx
    refine expired_iff.mpr ⟨?_, hheld⟩
    have hne : x ≠ y := by
      rintro rfl
      simp [hx] at hy
    exact (Function.update_of_ne hne ..).trans hnone
  | @release y hy =>
    obtain ⟨hnone, hheld⟩ := expired_iff.mp hx
    refine expired_iff.mpr ⟨?_, hheld⟩
    have hne : x ≠ y := by
      rintro rfl
      exact hy hnone
    exact (Function.update_of_ne hne ..).trans hnone
  | dispatch hidle =>
    refine expired_goto hdispatching rfl rfl (fun t ht hne => ?_) nofun hx
    exact (List.mem_append.mp ht).resolve_right fun h => hne (List.mem_singleton.mp h)
  | lock hpc => exact expired_goto hdispatching rfl rfl (fun t ht _ => ht) nofun hx
  | @take tid kind it hs y hpc _ hy =>
    refine expired_goto hdispatching rfl rfl (fun t ht _ => ht) (fun z hz => ?_) hx
    rw [hpc]
    rcases List.mem_append.mp hz with hz | hz
    · exact .inl hz
    · exact .inr (List.mem_singleton.mp hz ▸ hy)
  | unlock hpc =>
    exact expired_goto hdispatching rfl rfl (fun t ht _ => ht) (fun z hz => .inl (hpc ▸ hz)) hx
  | call hpc =>
    exact expired_goto hdispatching rfl rfl (fun t ht _ => ht) (fun z hz => .inl (hpc ▸ hz)) hx
  | finish hpc | throw hpc =>
    exact expired_goto hdispatching rfl rfl (fun t ht _ => List.mem_of_mem_erase ht) nofun hx

/-! ## What the dispatches keep -/

def alive (c : CEventHandler H) (handler : H) : Bool := !c.expired handler

structure Sound (c : CEventHandler H) : Prop where
  mutex : Listed Pc.isWalking c.threads c.m_mutex.toList
  dispatching : Listed Pc.isBusy c.threads c.dispatching
  /-- What a thread has taken over is what it has left of the list behind it. -/
  walk : ∀ tid kind it hs, c.threads tid = .walking kind it hs →
    it ≤ (c.m_handlers kind).length ∧ hs = (c.m_handlers kind).take it
  sublist : ∀ kind, (c.m_handlers kind).Sublist (c.registered kind)
  filter : ∀ kind, (c.m_handlers kind).filter c.alive = (c.registered kind).filter c.alive

theorem sound_initial : ({} : CEventHandler H).Sound where
  mutex := ⟨List.nodup_nil, fun i => by simp [Pc.isWalking]⟩
  dispatching := ⟨List.nodup_nil, fun i => by simp [Pc.isBusy]⟩
  walk := nofun
  sublist _ := .slnil
  filter _ := rfl

theorem Sound.walked (hc : c.Sound) {it : Nat} {hs : List H}
    (hpc : c.threads tid = .walking kind it hs) : c.walked kind = true := by
  have howner : c.m_mutex = some tid := hc.mutex.owner_iff.mp (by rw [hpc]; rfl)
  simp [CEventHandler.walked, howner, hpc]

/-- Fewer handlers exist. -/
theorem filter_alive_of_le {l m : List H} (h : l.filter c.alive = m.filter c.alive)
    (hle : ∀ x, c.expired x = true → d.expired x = true) :
    l.filter d.alive = m.filter d.alive := by
  have hboth : ∀ l : List H, l.filter d.alive = (l.filter c.alive).filter d.alive := by
    intro l
    rw [List.filter_filter]
    congr 1
    funext x
    have := hle x
    cases hx : c.expired x <;> simp_all [alive]
  rw [hboth l, hboth m, h]

/-- A thread goes on, and does not begin to walk. -/
theorem Sound.walk_update (hc : c.Sound) (hpc : pc.isWalking = false) (t : Nat) (kind : EventKind)
    (it : Nat) (hs : List H) (ht : Function.update c.threads tid pc t = .walking kind it hs) :
    it ≤ (c.m_handlers kind).length ∧ hs = (c.m_handlers kind).take it := by
  by_cases hne : t = tid
  · subst hne
    rw [Function.update_self] at ht
    rw [ht] at hpc
    cases hpc
  · rw [Function.update_of_ne hne] at ht
    exact hc.walk t kind it hs ht

theorem Sound.step (h : Move c e d) (hc : c.Sound) : d.Sound := by
  have hle : ∀ x, c.expired x = true → d.expired x = true := fun x =>
    h.expired hc.dispatching
  have hfilter : ∀ kind, (c.m_handlers kind).filter d.alive =
      (c.registered kind).filter d.alive := fun kind => filter_alive_of_le (hc.filter kind) hle
  cases h with
  | @add k x hwalked _ =>
    refine ⟨hc.mutex, hc.dispatching, fun t kind it hs hpc => ?_, fun kind => ?_, fun kind => ?_⟩
    · have hne : kind ≠ k := by
        rintro rfl
        simp [hc.walked hpc] at hwalked
      have hwalk := hc.walk t kind it hs hpc
      simpa [register, Function.update_of_ne hne] using hwalk
    · by_cases hkind : kind = k
      · subst hkind
        simpa [register] using hc.sublist kind
      · simpa [register, Function.update_of_ne hkind] using hc.sublist kind
    · by_cases hkind : kind = k
      · subst hkind
        simpa [register] using hfilter kind
      · simpa [register, Function.update_of_ne hkind] using hfilter kind
  | reject | retain | release =>
    exact ⟨hc.mutex, hc.dispatching, hc.walk, hc.sublist, hfilter⟩
  | dispatch hidle =>
    exact ⟨hc.mutex.keep (by rw [hidle]; rfl), hc.dispatching.enter (by rw [hidle]; rfl) rfl,
      hc.walk_update rfl, hc.sublist, hfilter⟩
  | @lock tid k hpc hfree =>
    have hmutex := hc.mutex
    rw [hfree] at hmutex
    refine ⟨hmutex.lock rfl, hc.dispatching.keep (by rw [hpc]; rfl), fun t kind it hs ht => ?_,
      hc.sublist, hfilter⟩
    by_cases hne : t = tid
    · subst hne
      rw [goto_threads_self] at ht
      cases ht
      exact ⟨Nat.zero_le _, rfl⟩
    · simp only [goto, Function.update_of_ne hne] at ht
      exact hc.walk t kind it hs ht
  | @erase tid k it hs x hpc hx hexpired =>
    refine ⟨hc.mutex, hc.dispatching, fun t kind it' hs' ht => ?_, fun kind => ?_, fun kind => ?_⟩
    · have ht : c.threads t = .walking kind it' hs' := ht
      obtain rfl : t = tid := hc.mutex.exclusive (by rw [ht]; rfl) (by rw [hpc]; rfl)
      cases hpc.symm.trans ht
      obtain ⟨hit, hhs⟩ := hc.walk t k it hs hpc
      have hlt : it < (c.m_handlers k).length := (List.getElem?_eq_some_iff.mp hx).1
      simp only [CEventHandler.erase, Function.update_self]
      rw [List.length_eraseIdx_of_lt hlt]
      refine ⟨by omega, ?_⟩
      rw [List.eraseIdx_eq_take_drop_succ, List.take_append_of_le_length (by simp; omega),
        List.take_take, Nat.min_self]
      exact hhs
    · by_cases hkind : kind = k
      · subst hkind
        simpa [CEventHandler.erase] using
          (List.eraseIdx_sublist (c.m_handlers kind) it).trans (hc.sublist kind)
      · simpa [CEventHandler.erase, Function.update_of_ne hkind] using hc.sublist kind
    · by_cases hkind : kind = k
      · subst hkind
        simp only [CEventHandler.erase, Function.update_self]
        rw [Bag.filter_eraseIdx hx]
        · exact hfilter kind
        · exact congrArg (! ·) (hle x hexpired)
      · simpa [CEventHandler.erase, Function.update_of_ne hkind] using hfilter kind
  | @take tid k it hs x hpc hx hexpired =>
    refine ⟨hc.mutex.keep (by rw [hpc]; rfl), hc.dispatching.keep (by rw [hpc]; rfl),
      fun t kind it' hs' ht => ?_, hc.sublist, hfilter⟩
    by_cases hne : t = tid
    · subst hne
      rw [goto_threads_self] at ht
      cases ht
      obtain ⟨hit, hhs⟩ := hc.walk t k it hs hpc
      obtain ⟨hlt, hget⟩ := List.getElem?_eq_some_iff.mp hx
      refine ⟨hlt, ?_⟩
      rw [goto, hhs, ← hget, List.take_append_getElem]
    · simp only [goto, Function.update_of_ne hne] at ht
      exact hc.walk t kind it' hs' ht
  | unlock hpc =>
    exact ⟨hc.mutex.unlock (by rw [hpc]; rfl) rfl, hc.dispatching.keep (by rw [hpc]; rfl),
      hc.walk_update rfl, hc.sublist, hfilter⟩
  | call hpc =>
    exact ⟨hc.mutex.keep (by rw [hpc]; rfl), hc.dispatching.keep (by rw [hpc]; rfl),
      hc.walk_update rfl, hc.sublist, hfilter⟩
  | finish hpc | throw hpc =>
    exact ⟨hc.mutex.keep (by rw [hpc]; rfl), hc.dispatching.leave rfl,
      hc.walk_update rfl, hc.sublist, hfilter⟩

theorem sound_run {es : List (CEventHandler.Event H)} (h : run CEventHandler.step {} es = some c) :
    c.Sound :=
  run_preserves (I := Sound) (fun _ _ _ hst hs => hs.step (move_of_step hst)) h sound_initial

/-! ## One dispatch among others -/

/-- Of the handlers registered by some time after `s`, these have been taken over. -/
def TakenOver (s : CEventHandler H) (kind : EventKind) (hs : List H) (c : CEventHandler H) : Prop :=
  ∃ before, s.registered kind <+: before ∧ before <+: c.registered kind ∧ hs.Sublist before ∧
    (before.filter c.alive).Sublist hs ∧ ∀ x ∈ hs, s.expired x = false

/-- How far the thread has come with the event it was given in `s`. -/
def Stage (s : CEventHandler H) (tid : Nat) (kind : EventKind) (complete : Prop)
    (c : CEventHandler H) : Pc H → Prop
  | .locking k => k = kind ∧ c.called tid = s.called tid
  | .walking k _ hs => k = kind ∧ c.called tid = s.called tid ∧ ∀ x ∈ hs, s.expired x = false
  | .calling _ hs i => TakenOver s kind hs c ∧ c.called tid = s.called tid ++ hs.take i
  | .idle => ∃ hs i, TakenOver s kind hs c ∧ c.called tid = s.called tid ++ hs.take i ∧
      (complete → hs.length ≤ i)

structure Dispatches (s : CEventHandler H) (tid : Nat) (kind : EventKind) (complete : Prop)
    (c : CEventHandler H) : Prop where
  sound : c.Sound
  registered : s.registered kind <+: c.registered kind
  expired : ∀ x, s.expired x = true → c.expired x = true
  stage : Stage s tid kind complete c (c.threads tid)

variable {s : CEventHandler H} {complete : Prop} {hs : List H}

theorem Move.registered (h : Move c e d) (kind : EventKind) :
    c.registered kind <+: d.registered kind := by
  cases h with
  | @add k x =>
    by_cases hkind : kind = k
    · subst hkind
      simp [register]
    · simp [register, Function.update_of_ne hkind]
  | _ => exact List.prefix_rfl

/-- The other threads leave a dispatch alone. -/
theorem Move.frame (h : Move c e d) (hdispatch : ∀ k, e ≠ .dispatch tid k)
    (hadvance : e ≠ .advance tid) (hthrow : e ≠ .throw tid) :
    d.threads tid = c.threads tid ∧ d.called tid = c.called tid := by
  cases h with
  | add | reject | retain | release | erase => exact ⟨rfl, rfl⟩
  | @dispatch t k =>
    have hne : tid ≠ t := fun h => hdispatch k (h ▸ rfl)
    exact ⟨Function.update_of_ne hne .., rfl⟩
  | @lock t | @take t | @unlock t | @finish t =>
    have hne : tid ≠ t := fun h => hadvance (h ▸ rfl)
    exact ⟨Function.update_of_ne hne .., rfl⟩
  | @call t =>
    have hne : tid ≠ t := fun h => hadvance (h ▸ rfl)
    exact ⟨Function.update_of_ne hne .., Function.update_of_ne hne ..⟩
  | @throw t =>
    have hne : tid ≠ t := fun h => hthrow (h ▸ rfl)
    exact ⟨Function.update_of_ne hne .., Function.update_of_ne hne ..⟩

theorem TakenOver.mono (h : TakenOver s kind hs c)
    (hregistered : c.registered kind <+: d.registered kind)
    (hle : ∀ x, c.expired x = true → d.expired x = true) : TakenOver s kind hs d := by
  obtain ⟨before, hs₀, hbefore, hsub, hfilter, hexists⟩ := h
  refine ⟨before, hs₀, hbefore.trans hregistered, hsub, ?_, hexists⟩
  refine List.Sublist.trans ?_ hfilter
  refine List.monotone_filter_right before fun x hx => ?_
  have := hle x
  cases hc : c.expired x <;> simp_all [alive]

theorem Stage.mono (h : Stage s tid kind complete c pc)
    (hregistered : c.registered kind <+: d.registered kind)
    (hle : ∀ x, c.expired x = true → d.expired x = true)
    (hcalled : d.called tid = c.called tid) : Stage s tid kind complete d pc := by
  cases pc with
  | idle =>
    obtain ⟨hs, i, htaken, hs₀, hdone⟩ := h
    exact ⟨hs, i, htaken.mono hregistered hle, hcalled.trans hs₀, hdone⟩
  | locking => exact ⟨h.1, hcalled.trans h.2⟩
  | walking => exact ⟨h.1, hcalled.trans h.2.1, h.2.2⟩
  | calling => exact ⟨h.1.mono hregistered hle, hcalled.trans h.2⟩

omit [DecidableEq H] in
theorem called_call {i : Nat} (hcalled : c.called tid = s.called tid ++ hs.take i)
    (hx : hs[i]? = some x) : (c.call tid x).called tid = s.called tid ++ hs.take (i + 1) := by
  simp [call, hcalled, List.take_add_one, hx]

/-- The walk is over: what exists of the list has been taken over. -/
theorem Dispatches.unlock {it : Nat} (hd : Dispatches s tid kind complete c)
    (hpc : c.threads tid = .walking kind it hs) (hend : (c.m_handlers kind)[it]? = none)
    (hexists : ∀ x ∈ hs, s.expired x = false) : TakenOver s kind hs c := by
  obtain ⟨hit, hhs⟩ := hd.sound.walk tid kind it hs hpc
  have hlength := List.getElem?_eq_none_iff.mp hend
  rw [List.take_of_length_le hlength] at hhs
  refine ⟨c.registered kind, hd.registered, List.prefix_rfl, ?_, ?_, hexists⟩
  · exact hhs ▸ hd.sound.sublist kind
  · rw [← hd.sound.filter kind, hhs]
    exact List.filter_sublist

theorem Dispatches.step (h : Move c e d) (hdispatch : ∀ k, e ≠ .dispatch tid k)
    (hthrow : complete → e ≠ .throw tid) (hd : Dispatches s tid kind complete c) :
    Dispatches s tid kind complete d := by
  have hle : ∀ x, c.expired x = true → d.expired x = true := fun x =>
    h.expired hd.sound.dispatching
  refine ⟨hd.sound.step h, hd.registered.trans (h.registered kind),
    fun x hx => hle x (hd.expired x hx), ?_⟩
  have hstage := hd.stage
  by_cases hadvance : e = .advance tid
  · subst hadvance
    cases h with
    | lock hpc =>
      rw [hpc] at hstage
      rw [goto_threads_self]
      exact ⟨hstage.1, hstage.2, nofun⟩
    | erase hpc => exact hstage.mono List.prefix_rfl hle rfl
    | @take _ k it hs x hpc _ hexpired =>
      rw [hpc] at hstage
      rw [goto_threads_self]
      refine ⟨hstage.1, hstage.2.1, fun y hy => ?_⟩
      rcases List.mem_append.mp hy with hy | hy
      · exact hstage.2.2 y hy
      · rw [List.mem_singleton.mp hy, Bool.eq_false_iff]
        intro hx
        simp [hd.expired x hx] at hexpired
    | unlock hpc hend =>
      rw [hpc] at hstage
      rw [goto_threads_self]
      obtain ⟨rfl, hcalled, hexists⟩ := hstage
      refine ⟨(hd.unlock hpc hend hexists).mono List.prefix_rfl hle, ?_⟩
      rw [List.take_zero, List.append_nil]
      exact hcalled
    | @call _ k hs i x hpc hx =>
      rw [hpc] at hstage
      rw [goto_threads_self]
      exact ⟨hstage.1.mono List.prefix_rfl hle, called_call hstage.2 hx⟩
    | @finish _ k hs i hpc hend =>
      rw [hpc] at hstage
      rw [finish, goto_threads_self]
      exact ⟨hs, i, hstage.1.mono List.prefix_rfl hle, hstage.2,
        fun _ => List.getElem?_eq_none_iff.mp hend⟩
  · by_cases hfail : e = .throw tid
    · subst hfail
      cases h with
      | @throw _ k hs i x hpc hx =>
        rw [hpc] at hstage
        rw [finish, goto_threads_self]
        exact ⟨hs, i + 1, hstage.1.mono List.prefix_rfl hle, called_call hstage.2 hx,
          fun hc => absurd rfl (hthrow hc)⟩
    · obtain ⟨hthread, hcalled⟩ := h.frame hdispatch hadvance hfail
      rw [hthread]
      exact hstage.mono (h.registered kind) hle hcalled

/-- A thread that dispatches an event calls handlers of its kind in the order of their
registration, each as often as it has been registered; none that had ceased to exist before, and,
unless one of them throws, every one that was registered before and still exists afterwards. So it
is however many threads dispatch events and handlers are released in the meantime, and registered,
but not while that list is walked. -/
theorem dispatch_calls {es fs : List (CEventHandler.Event H)}
    (h : run CEventHandler.step {} es = some s)
    (h' : run CEventHandler.step s (.dispatch tid kind :: fs) = some c)
    (hfs : ∀ k, .dispatch tid k ∉ fs) (hdone : c.threads tid = .idle) :
    ∃ hs i, TakenOver s kind hs c ∧ c.called tid = s.called tid ++ hs.take i ∧
      (.throw tid ∉ fs → hs.length ≤ i) := by
  obtain ⟨u, hu, hrun⟩ := run_cons_eq_some.mp h'
  have hmove := move_of_step hu
  have hs := sound_run h
  have hstart : Dispatches s tid kind (.throw tid ∉ fs) u := by
    refine ⟨hs.step hmove, hmove.registered kind, fun x => hmove.expired hs.dispatching, ?_⟩
    cases hmove with
    | dispatch hidle =>
      rw [goto_threads_self]
      exact ⟨rfl, rfl⟩
  have hd : Dispatches s tid kind (.throw tid ∉ fs) c := by
    refine run_preserves_of_forall (I := Dispatches s tid kind (.throw tid ∉ fs))
      (C := fun e => e ∈ fs) (fun v e w hvw he hv => ?_) hrun (fun _ he => he) hstart
    refine hv.step (move_of_step hvw) (fun k hk => hfs k (hk ▸ he)) ?_
    rintro hthrow rfl
    exact hthrow he
  have hstage := hd.stage
  rwa [hdone] at hstage

/-- Two threads dispatch while one of three handlers is released, and another thread's handler
throws. -/
theorem dispatch_calls_released : ∃ s c : CEventHandler Nat,
    run CEventHandler.step {} [.add .close 1, .add .close 2, .add .close 3] = some s ∧
    run CEventHandler.step s [.dispatch 7 .close, .dispatch 8 .close, .advance 7, .release 2,
      .advance 7, .advance 7, .advance 7, .advance 7, .advance 8, .release 3, .advance 8,
      .advance 8, .advance 8, .throw 8, .advance 7, .advance 7, .advance 7] = some c ∧
    c.called 7 = [1, 3] ∧ c.called 8 = [1] ∧
    ∃ hs i, TakenOver s .close hs c ∧ c.called 7 = s.called 7 ++ hs.take i ∧ hs.length ≤ i := by
  have h : run CEventHandler.step ({} : CEventHandler Nat)
      [.add .close 1, .add .close 2, .add .close 3] = some _ := rfl
  obtain ⟨hs, i, htaken, hcalled, hall⟩ := dispatch_calls h
    (rfl : run CEventHandler.step _ [.dispatch 7 .close, .dispatch 8 .close, .advance 7,
      .release 2, .advance 7, .advance 7, .advance 7, .advance 7, .advance 8, .release 3,
      .advance 8, .advance 8, .advance 8, .throw 8, .advance 7, .advance 7, .advance 7] = some _)
    (by rintro ⟨⟩ <;> decide) rfl
  exact ⟨_, _, h, rfl, rfl, rfl, hs, i, htaken, hcalled, hall (by decide)⟩

end

end CEventHandler

end NBRaft.Communication
