import NBRaft.Library.Transition
import NBRaft.Library.Deque
import NBRaft.Library.DoublyLinked
import Mathlib.Logic.Function.Basic

/-!
# The concurrent queue

`ConcurrentQueue`: a doubly linked list with a dummy node at its tail, one mutex for each end and
a condition variable. Every thread has a program counter, and a step is what one thread does
between two points where another one can come in: taking or releasing a mutex, a section under a
mutex, a load or a store of an atomic. A pop reads the tail in a step of its own, with the head
mutex held.

Where the source has two overloads, one for a reference and one for a `shared_ptr`, they are one
operation here: the popped node and its value are gone either way.
-/

namespace NBRaft.Concurrency

open Transition DoublyLinked

abbrev Tid := Nat

abbrev Addr := Nat

/-- The `data` of a node: null, or a value, which may have been moved from. -/
abbrev Payload (T : Type) := Option (Option T)

inductive PopKind where
  | tryPop
  | waitAndPop
  | waitAndPopTimeout
  deriving DecidableEq, Repr

namespace ConcurrentQueue

inductive Call (T : Type) where
  | push (new_value : T)
  | pop (kind : PopKind)
  | trySteal
  | exit
  deriving DecidableEq, Repr

/-- What a thread is about to do. `timedOut` tells of a wait whether its time is over. -/
inductive Pc (T : Type) where
  | idle
  /-- `push`: lock the tail mutex, link the node, unlock, count and notify. -/
  | pushLock (new_value : T)
  | pushLink (new_value : T)
  | pushUnlock
  | pushCount
  | pushNotify
  /-- The pops: lock the head mutex, compare the head with the tail; where they are equal load
  `m_bstop`, and wait; otherwise test `m_bstop`, and take the head. -/
  | popLock (kind : PopKind) (timedOut : Bool)
  | popCompare (kind : PopKind) (timedOut : Bool)
  | popLoadStop (kind : PopKind) (timedOut : Bool)
  | popWait (kind : PopKind)
  | blocked (kind : PopKind)
  | popTest
  | popTake
  /-- `try_steal`, under both mutexes. -/
  | steal
  | exitStore
  | exitNotify
  /-- The last call has returned, with this value. -/
  | returned (value : Option T)
  deriving DecidableEq, Repr

end ConcurrentQueue

open ConcurrentQueue

/-- A queue and the threads that use it. `history` tells what has been done to the queue, and by
which thread; `answers` what the pops and steals have returned, and to which thread. -/
structure ConcurrentQueue (T : Type) where
  nodes : Addr → Option (Node Addr (Payload T)) :=
    fun addr => if addr = 0 then some { data := none } else none
  m_head : Addr := 0
  m_tail : Addr := 0
  m_count : Int32 := 0
  m_bstop : Bool := false
  m_head_mutex : Option Tid := none
  m_tail_mutex : Option Tid := none
  /-- The threads that wait on the condition variable. -/
  m_data_cond : List Tid := []
  threads : Tid → Pc T := fun _ => .idle
  history : List (Tid × Deque.Op T) := []
  answers : List (Tid × Option T) := []

namespace ConcurrentQueue

variable {T : Type}

def goto (tid : Tid) (pc : Pc T) (q : ConcurrentQueue T) : ConcurrentQueue T :=
  { q with threads := Function.update q.threads tid pc }

def record (tid : Tid) (op : Deque.Op T) (q : ConcurrentQueue T) : ConcurrentQueue T :=
  { q with history := q.history ++ [(tid, op)] }

/-- A pop or a steal returns. -/
def answer (tid : Tid) (value : Option T) (q : ConcurrentQueue T) : ConcurrentQueue T :=
  { q with answers := q.answers ++ [(tid, value)] }.goto tid (.returned value)

/-- The section of `push`: the dummy gets the value, and a new node is the dummy. -/
def pushTail (new_value : T) (addr : Addr) (q : ConcurrentQueue T) : Option (ConcurrentQueue T) :=
  match q.nodes q.m_tail, q.nodes addr with
  | some tail, none => some { q with
      nodes := Function.update
        (Function.update q.nodes q.m_tail (some { tail with
          data := some (some new_value), next := some addr }))
        addr (some { data := none, prev := some q.m_tail })
      m_tail := addr }
  | _, _ => none

/-- `value = std::move(*m_head->data)` and `pop_head`. A null pointer, or one to a value that has
been moved from, is not to be taken. -/
def popHead (q : ConcurrentQueue T) : Option (T × ConcurrentQueue T) :=
  match q.nodes q.m_head with
  | some { data := some (some value), next := some next, .. } => some (value, { q with
      nodes := Function.update q.nodes q.m_head none
      m_head := next
      m_count := q.m_count - 1 })
  | _ => none

/-- The rest of `try_steal` on a queue that is not empty. The node before the dummy becomes the
dummy, and keeps a value that has been moved from. -/
def popTail (q : ConcurrentQueue T) : Option (T × ConcurrentQueue T) :=
  match prevOf q.nodes q.m_tail with
  | none => none
  | some prev_node =>
    match q.nodes prev_node with
    | some { data := some (some value), prev := prev, .. } => some (value, { q with
        nodes := Function.update (Function.update q.nodes q.m_tail none) prev_node
          (some { data := some none, prev := prev })
        m_tail := prev_node
        m_count := q.m_count - 1 })
    | _ => none

def unlockHead (q : ConcurrentQueue T) : ConcurrentQueue T := { q with m_head_mutex := none }

/-- A thread that is woken has to lock the head mutex again. -/
def Pc.wake (timedOut : Bool) : Pc T → Pc T
  | .blocked kind => .popLock kind timedOut
  | pc => pc

def wakeOne (tid : Tid) (timedOut : Bool) (q : ConcurrentQueue T) : ConcurrentQueue T :=
  { q with
    m_data_cond := q.m_data_cond.erase tid
    threads := Function.update q.threads tid ((q.threads tid).wake timedOut) }

def wakeAll (q : ConcurrentQueue T) : ConcurrentQueue T :=
  { q with
    m_data_cond := []
    threads := fun tid =>
      if tid ∈ q.m_data_cond then (q.threads tid).wake false else q.threads tid }

/-- The next step of a thread, by its program counter. -/
def advance (tid : Tid) (q : ConcurrentQueue T) : Pc T → Option (ConcurrentQueue T)
  | .pushLock new_value =>
    if q.m_tail_mutex = none then
      some ({ q with m_tail_mutex := some tid }.goto tid (.pushLink new_value))
    else none
  | .pushUnlock => some ({ q with m_tail_mutex := none }.goto tid .pushCount)
  | .pushCount => some ({ q with m_count := q.m_count + 1 }.goto tid .pushNotify)
  | .popLock kind timedOut =>
    if q.m_head_mutex = none then
      some ({ q with m_head_mutex := some tid }.goto tid (.popCompare kind timedOut))
    else none
  | .popCompare kind timedOut =>
    if q.m_tail_mutex = none then
      if q.m_head = q.m_tail then
        if kind = .tryPop then
          some (((q.record tid .nothing).unlockHead).answer tid none)
        else if timedOut then
          some ((q.record tid .nothing).goto tid (.popLoadStop kind timedOut))
        else some (q.goto tid (.popLoadStop kind timedOut))
      else if kind = .tryPop then some (q.goto tid .popTake)
      else some (q.goto tid .popTest)
    else none
  | .popLoadStop kind timedOut =>
    if q.m_bstop then some (q.goto tid .popTest)
    else if timedOut then some (q.unlockHead.answer tid none)
    else some (q.goto tid (.popWait kind))
  | .popWait kind =>
    some ({ q.unlockHead with m_data_cond := q.m_data_cond ++ [tid] }.goto tid (.blocked kind))
  | .popTest =>
    if q.m_bstop then some (q.unlockHead.answer tid none)
    else some (q.goto tid .popTake)
  | .popTake => do
    let (value, q) ← q.popHead
    some (((q.record tid (.popFront value)).unlockHead).answer tid (some value))
  | .steal =>
    if q.m_head_mutex = none ∧ q.m_tail_mutex = none then
      if q.m_head = q.m_tail then some ((q.record tid .nothing).answer tid none)
      else do
        let (value, q) ← q.popTail
        some ((q.record tid (.popBack value)).answer tid (some value))
    else none
  | .exitStore => some ({ q with m_bstop := true }.goto tid .exitNotify)
  | .exitNotify => some (q.wakeAll.goto tid .idle)
  | .idle | .pushLink _ | .pushNotify | .blocked _ | .returned _ => none

def enter : Call T → Pc T
  | .push new_value => .pushLock new_value
  | .pop kind => .popLock kind false
  | .trySteal => .steal
  | .exit => .exitStore

inductive Event (T : Type) where
  | call (tid : Tid) (c : Call T)
  | advance (tid : Tid)
  /-- A `push` links its node, which was allocated at this address. -/
  | link (tid : Tid) (addr : Addr)
  /-- A `push` notifies one of the threads that wait, if there are any. -/
  | notify (tid : Tid) (woken : Option Tid)
  /-- A wait ends without being notified. -/
  | wake (tid : Tid) (timedOut : Bool)
  deriving DecidableEq, Repr

/-- No call of the thread is in progress. -/
def Pc.isIdle : Pc T → Bool
  | .idle | .returned _ => true
  | _ => false

def Pc.canTimeOut : Pc T → Bool
  | .blocked .waitAndPopTimeout => true
  | _ => false

def step (q : ConcurrentQueue T) : Event T → Option (ConcurrentQueue T)
  | .call tid c => if (q.threads tid).isIdle then some (q.goto tid (enter c)) else none
  | .advance tid => q.advance tid (q.threads tid)
  | .link tid addr =>
    match q.threads tid with
    | .pushLink new_value => do
      let q ← q.pushTail new_value addr
      some ((q.record tid (.pushBack new_value)).goto tid .pushUnlock)
    | _ => none
  | .notify tid woken =>
    match q.threads tid, woken with
    | .pushNotify, none => if q.m_data_cond = [] then some (q.goto tid .idle) else none
    | .pushNotify, some w =>
      if w ∈ q.m_data_cond then some ((q.wakeOne w false).goto tid .idle) else none
    | _, _ => none
  | .wake tid timedOut =>
    if tid ∈ q.m_data_cond ∧ (timedOut = true → (q.threads tid).canTimeOut = true) then
      some (q.wakeOne tid timedOut)
    else none

/-! ## What a step can do -/

/-- The steps that only move the thread on. -/
inductive Turn (q : ConcurrentQueue T) : Pc T → Pc T → Prop where
  | empty (kind : PopKind) : kind ≠ .tryPop → q.m_head = q.m_tail →
    Turn q (.popCompare kind false) (.popLoadStop kind false)
  | found (timedOut : Bool) : q.m_head ≠ q.m_tail → Turn q (.popCompare .tryPop timedOut) .popTake
  | foundWaiting (kind : PopKind) (timedOut : Bool) : kind ≠ .tryPop → q.m_head ≠ q.m_tail →
    Turn q (.popCompare kind timedOut) .popTest
  | stopped (kind : PopKind) (timedOut : Bool) : q.m_bstop = true →
    Turn q (.popLoadStop kind timedOut) .popTest
  | wait (kind : PopKind) : q.m_bstop = false →
    Turn q (.popLoadStop kind false) (.popWait kind)
  | take : q.m_bstop = false → Turn q .popTest .popTake

inductive Move (q : ConcurrentQueue T) : Event T → ConcurrentQueue T → Prop where
  | call {tid : Tid} {c : Call T} : (q.threads tid).isIdle = true →
    Move q (.call tid c) (q.goto tid (enter c))
  | turn {tid : Tid} {pc : Pc T} : Turn q (q.threads tid) pc →
    Move q (.advance tid) (q.goto tid pc)
  | lockTail {tid : Tid} {v : T} : q.threads tid = .pushLock v → q.m_tail_mutex = none →
    Move q (.advance tid) ({ q with m_tail_mutex := some tid }.goto tid (.pushLink v))
  | link {tid : Tid} {v : T} {addr : Addr} {p : ConcurrentQueue T} :
    q.threads tid = .pushLink v → q.pushTail v addr = some p →
      Move q (.link tid addr) ((p.record tid (.pushBack v)).goto tid .pushUnlock)
  | unlockTail {tid : Tid} : q.threads tid = .pushUnlock →
    Move q (.advance tid) ({ q with m_tail_mutex := none }.goto tid .pushCount)
  | count {tid : Tid} : q.threads tid = .pushCount →
    Move q (.advance tid) ({ q with m_count := q.m_count + 1 }.goto tid .pushNotify)
  | notifyNone {tid : Tid} : q.threads tid = .pushNotify → q.m_data_cond = [] →
    Move q (.notify tid none) (q.goto tid .idle)
  | notifyOne {tid w : Tid} : q.threads tid = .pushNotify → w ∈ q.m_data_cond →
    Move q (.notify tid (some w)) ((q.wakeOne w false).goto tid .idle)
  | lockHead {tid : Tid} {kind : PopKind} {timedOut : Bool} :
    q.threads tid = .popLock kind timedOut → q.m_head_mutex = none →
      Move q (.advance tid)
        ({ q with m_head_mutex := some tid }.goto tid (.popCompare kind timedOut))
  | fail {tid : Tid} {timedOut : Bool} :
    q.threads tid = .popCompare .tryPop timedOut → q.m_head = q.m_tail →
      Move q (.advance tid) (((q.record tid .nothing).unlockHead).answer tid none)
  | late {tid : Tid} {kind : PopKind} :
    q.threads tid = .popCompare kind true → q.m_head = q.m_tail →
      Move q (.advance tid) ((q.record tid .nothing).goto tid (.popLoadStop kind true))
  | giveUp {tid : Tid} :
    ((∃ kind, q.threads tid = .popLoadStop kind true ∧ q.m_bstop = false) ∨
      (q.threads tid = .popTest ∧ q.m_bstop = true)) →
      Move q (.advance tid) (q.unlockHead.answer tid none)
  | block {tid : Tid} {kind : PopKind} : q.threads tid = .popWait kind →
    Move q (.advance tid)
      ({ q.unlockHead with m_data_cond := q.m_data_cond ++ [tid] }.goto tid (.blocked kind))
  | take {tid : Tid} {v : T} {p : ConcurrentQueue T} :
    q.threads tid = .popTake → q.popHead = some (v, p) →
      Move q (.advance tid) (((p.record tid (.popFront v)).unlockHead).answer tid (some v))
  | failSteal {tid : Tid} : q.threads tid = .steal → q.m_head_mutex = none →
    q.m_head = q.m_tail → Move q (.advance tid) ((q.record tid .nothing).answer tid none)
  | steal {tid : Tid} {v : T} {p : ConcurrentQueue T} : q.threads tid = .steal →
    q.m_head_mutex = none → q.m_tail_mutex = none → q.m_head ≠ q.m_tail →
      q.popTail = some (v, p) →
        Move q (.advance tid) ((p.record tid (.popBack v)).answer tid (some v))
  | stop {tid : Tid} : q.threads tid = .exitStore →
    Move q (.advance tid) ({ q with m_bstop := true }.goto tid .exitNotify)
  | notifyAll {tid : Tid} : q.threads tid = .exitNotify →
    Move q (.advance tid) (q.wakeAll.goto tid .idle)
  | wake {w : Tid} {timedOut : Bool} : w ∈ q.m_data_cond →
    Move q (.wake w timedOut) (q.wakeOne w timedOut)

section

variable {q r : ConcurrentQueue T} {tid : Tid} {e : Event T}

theorem move_of_advance {pc : Pc T} (hpc : q.threads tid = pc)
    (h : q.advance tid pc = some r) : Move q (.advance tid) r := by
  cases pc with
  | pushLock v =>
    simp only [advance, Option.ite_none_right_eq_some, Option.some.injEq] at h
    obtain ⟨hfree, rfl⟩ := h
    exact .lockTail hpc hfree
  | pushUnlock =>
    cases h
    exact .unlockTail hpc
  | pushCount =>
    cases h
    exact .count hpc
  | popLock kind timedOut =>
    simp only [advance, Option.ite_none_right_eq_some, Option.some.injEq] at h
    obtain ⟨hfree, rfl⟩ := h
    exact .lockHead hpc hfree
  | popCompare kind timedOut =>
    simp only [advance, Option.ite_none_right_eq_some] at h
    obtain ⟨hfree, h⟩ := h
    split_ifs at h with heq hkind hlate hkind
    · cases h
      subst hkind
      exact .fail hpc heq
    · cases h
      subst hlate
      exact .late hpc heq
    · cases h
      simp only [Bool.not_eq_true] at hlate
      subst hlate
      exact .turn (hpc ▸ .empty kind hkind heq)
    · cases h
      subst hkind
      exact .turn (hpc ▸ .found timedOut heq)
    · cases h
      exact .turn (hpc ▸ .foundWaiting kind timedOut hkind heq)
  | popLoadStop kind timedOut =>
    simp only [advance] at h
    split_ifs at h with hstop hlate
    · cases h
      exact .turn (hpc ▸ .stopped kind timedOut hstop)
    · cases h
      subst hlate
      exact .giveUp (.inl ⟨kind, hpc, by simpa using hstop⟩)
    · cases h
      simp only [Bool.not_eq_true] at hlate
      subst hlate
      exact .turn (hpc ▸ .wait kind (by simpa using hstop))
  | popWait kind =>
    cases h
    exact .block hpc
  | popTest =>
    simp only [advance] at h
    split_ifs at h with hstop
    · cases h
      exact .giveUp (.inr ⟨hpc, hstop⟩)
    · cases h
      exact .turn (hpc ▸ .take (by simpa using hstop))
  | popTake =>
    simp only [advance, Option.bind_eq_bind, Option.bind_eq_some_iff] at h
    obtain ⟨⟨v, p⟩, hp, h⟩ := h
    cases h
    exact .take hpc hp
  | steal =>
    simp only [advance, Option.ite_none_right_eq_some] at h
    obtain ⟨⟨hhead, htail⟩, h⟩ := h
    split_ifs at h with heq
    · cases h
      exact .failSteal hpc hhead heq
    · simp only [Option.bind_eq_bind, Option.bind_eq_some_iff] at h
      obtain ⟨⟨v, p⟩, hp, h⟩ := h
      cases h
      exact .steal hpc hhead htail heq hp
  | exitStore =>
    cases h
    exact .stop hpc
  | exitNotify =>
    cases h
    exact .notifyAll hpc
  | idle => cases h
  | pushLink v => cases h
  | pushNotify => cases h
  | blocked kind => cases h
  | returned value => cases h

/-- Every step is one of these. -/
theorem move_of_step (h : q.step e = some r) : Move q e r := by
  cases e with
  | call tid c =>
    simp only [step, Option.ite_none_right_eq_some, Option.some.injEq] at h
    obtain ⟨hidle, rfl⟩ := h
    exact .call hidle
  | advance tid => exact move_of_advance rfl h
  | link tid addr =>
    simp only [step] at h
    split at h
    · rename_i v hpc
      simp only [Option.bind_eq_bind, Option.bind_eq_some_iff] at h
      obtain ⟨p, hp, h⟩ := h
      cases h
      exact .link hpc hp
    · cases h
  | notify tid woken =>
    simp only [step] at h
    split at h
    · rename_i hpc
      simp only [Option.ite_none_right_eq_some, Option.some.injEq] at h
      obtain ⟨hnone, rfl⟩ := h
      exact .notifyNone hpc hnone
    · rename_i w hpc
      simp only [Option.ite_none_right_eq_some, Option.some.injEq] at h
      obtain ⟨hmem, rfl⟩ := h
      exact .notifyOne hpc hmem
    · cases h
  | wake w timedOut =>
    simp only [step, Option.ite_none_right_eq_some, Option.some.injEq] at h
    obtain ⟨⟨hmem, -⟩, rfl⟩ := h
    exact .wake hmem

end

/-! ## The nodes and their values -/

/-- A value and where it is, as a node holds it. -/
def cell (c : Addr × T) : Addr × Payload T := (c.1, some (some c.2))

/-- The nodes from the head to the dummy at the tail hold these values, at these addresses. -/
structure Holds (q : ConcurrentQueue T) (cells : List (Addr × T)) : Prop where
  chain : Chain q.nodes q.m_tail q.m_head (cells.map cell)
  nodup : (cells.map Prod.fst ++ [q.m_tail]).Nodup
  tail : (q.nodes q.m_tail).isSome = true

theorem holds_initial : ({} : ConcurrentQueue T).Holds [] where
  chain := rfl
  nodup := by simp
  tail := rfl

section

variable {q r : ConcurrentQueue T} {cells : List (Addr × T)} {v : T} {addr : Addr}

@[simp] theorem map_fst_cell : (cells.map cell).map Prod.fst = cells.map Prod.fst := by
  rw [List.map_map]
  rfl

theorem Holds.ne_tail (h : q.Holds cells) {a : Addr} (ha : a ∈ cells.map Prod.fst) :
    a ≠ q.m_tail :=
  (List.nodup_append.mp h.nodup).2.2 a ha _ (List.mem_singleton.mpr rfl)

theorem Holds.of_eq (h : q.Holds cells) (hnodes : r.nodes = q.nodes) (hhead : r.m_head = q.m_head)
    (htail : r.m_tail = q.m_tail) : r.Holds cells := by
  constructor
  · rw [hnodes, hhead, htail]
    exact h.chain
  · rw [htail]
    exact h.nodup
  · rw [hnodes, htail]
    exact h.tail

/-- The queue is empty exactly if head and tail are the same. -/
theorem Holds.empty_iff (h : q.Holds cells) : q.m_head = q.m_tail ↔ cells = [] := by
  rw [h.chain.eq_end_iff fun hmem => h.ne_tail (map_fst_cell ▸ hmem) rfl, List.map_eq_nil_iff]

theorem Holds.allocated (h : q.Holds cells) {a : Addr} (ha : a ∈ cells.map Prod.fst) :
    (q.nodes a).isSome = true :=
  h.chain.isSome (by rw [map_fst_cell]; exact ha)

theorem pushTail_frame (h : q.pushTail v addr = some r) :
    ∃ nodes m_tail, r = { q with nodes := nodes, m_tail := m_tail } := by
  unfold pushTail at h
  split at h
  · exact ⟨_, _, (Option.some.inj h).symm⟩
  · cases h

theorem popHead_frame (h : q.popHead = some (v, r)) :
    ∃ nodes m_head, r = { q with nodes := nodes, m_head := m_head, m_count := q.m_count - 1 } := by
  unfold popHead at h
  split at h
  · cases h
    exact ⟨_, _, rfl⟩
  · cases h

theorem popTail_frame (h : q.popTail = some (v, r)) :
    ∃ nodes m_tail, r = { q with nodes := nodes, m_tail := m_tail, m_count := q.m_count - 1 } := by
  unfold popTail at h
  split at h
  · cases h
  · split at h
    · cases h
      exact ⟨_, _, rfl⟩
    · cases h

/-- `push` puts its value where the dummy was. -/
theorem holds_pushTail (h : q.Holds cells) (hr : q.pushTail v addr = some r) :
    r.Holds (cells ++ [(q.m_tail, v)]) := by
  unfold pushTail at hr
  split at hr
  · rename_i tail htail hnew
    obtain rfl := Option.some.inj hr
    have hne : q.m_tail ≠ addr := by
      rintro rfl
      cases htail.symm.trans hnew
    have hcell : ∀ a ∈ cells.map Prod.fst, a ≠ addr := by
      rintro a ha rfl
      have := h.allocated ha
      simp [hnew] at this
    constructor
    · rw [List.map_append]
      apply Chain.concat
      · refine h.chain.congr (fun a ha => ?_) ?_
        · rw [map_fst_cell] at ha
          dsimp only
          rw [Function.update_of_ne (hcell a ha), Function.update_of_ne (h.ne_tail ha)]
        · simp only [prevOf, Function.update_of_ne hne, Function.update_self, htail,
            Option.bind_some]
      · refine ⟨⟨tail.prev, ?_⟩, ?_⟩
        · simp only [Function.update_of_ne hne, Function.update_self]
        · simp only [prevOf, Function.update_self, Option.bind_some]
    · rw [List.map_append, List.map_singleton, List.nodup_append]
      refine ⟨h.nodup, by simp, fun a ha b hb => ?_⟩
      obtain rfl := List.mem_singleton.mp hb
      rcases List.mem_append.mp ha with ha | ha
      · exact hcell a ha
      · obtain rfl := List.mem_singleton.mp ha
        exact hne
    · simp only [Function.update_self, Option.isSome_some]
  · cases hr

/-- A pop takes the first value. -/
theorem holds_popHead {c : Addr × T} (h : q.Holds (c :: cells)) :
    ∃ r, q.popHead = some (c.2, r) ∧ r.Holds cells := by
  obtain ⟨hhead, next, hlinked, hrest⟩ := h.chain
  obtain ⟨prev, hnode⟩ := hlinked.node
  have hnodup := h.nodup
  rw [List.map_cons, List.cons_append, List.nodup_cons, ← hhead] at hnodup
  have hne : ∀ a ∈ cells.map Prod.fst ++ [q.m_tail], a ≠ q.m_head := by
    rintro a ha rfl
    exact hnodup.1 ha
  refine ⟨{ q with
    nodes := Function.update q.nodes q.m_head none
    m_head := next
    m_count := q.m_count - 1 }, ?_, ⟨?_, hnodup.2, ?_⟩⟩
  · simp only [popHead, hnode]
  · refine hrest.congr (fun a ha => ?_) ?_
    · rw [map_fst_cell] at ha
      exact Function.update_of_ne (hne a (List.mem_append_left _ ha)) ..
    · simp only [prevOf, Function.update_of_ne (hne q.m_tail (by simp))]
  · dsimp only
    rw [Function.update_of_ne (hne q.m_tail (by simp))]
    exact h.tail

/-- A steal takes the last value; its node is the new dummy. -/
theorem holds_popTail {c : Addr × T} (h : q.Holds (cells ++ [c])) :
    ∃ r, q.popTail = some (c.2, r) ∧ r.Holds cells := by
  have hchain := h.chain
  rw [List.map_append, List.map_singleton] at hchain
  obtain ⟨hchain, hlinked⟩ := hchain.of_concat
  obtain ⟨prev, hnode⟩ := hlinked.node
  have hnodup := h.nodup
  rw [List.map_append, List.map_singleton] at hnodup
  have htail : ∀ a ∈ cells.map Prod.fst ++ [c.1], a ≠ q.m_tail := fun a ha =>
    h.ne_tail (by simpa using ha)
  have hlast : ∀ a ∈ cells.map Prod.fst, a ≠ c.1 := fun a ha =>
    (List.nodup_append.mp (List.nodup_append.mp hnodup).1).2.2 a ha _ (by simp)
  change q.nodes c.1 = _ at hnode
  refine ⟨{ q with
    nodes := Function.update (Function.update q.nodes q.m_tail none) c.1
      (some { data := some none, prev := prev })
    m_tail := c.1
    m_count := q.m_count - 1 }, ?_, ⟨?_, (List.nodup_append.mp hnodup).1, ?_⟩⟩
  · have hprev : prevOf q.nodes q.m_tail = some c.1 := hlinked.prev
    simp only [popTail, hprev, hnode, cell]
  · refine hchain.congr (fun a ha => ?_) ?_
    · rw [map_fst_cell] at ha
      dsimp only
      rw [Function.update_of_ne (hlast a ha),
        Function.update_of_ne (htail a (List.mem_append_left _ ha))]
    · simp only [prevOf, cell, Function.update_self, hnode, Option.bind_some]
  · simp only [Function.update_self, Option.isSome_some]

end

end ConcurrentQueue

end NBRaft.Concurrency
