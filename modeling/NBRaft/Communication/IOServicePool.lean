import NBRaft.Concurrency.RoundRobin

/-!
# The io contexts of the pool

`IOServicePool` is shared by all acceptors. `getIOContext` takes the next `io_context` in turn:
`m_ioContexts[m_nextIOContext++]`, and after that it goes back to 0 if it has come to the end. The
index is a `std::size_t` without a lock, and each load and each store of it is a step of its own.
-/

namespace NBRaft.Communication

open Transition

namespace IOServicePool

/-- Where a call of `getIOContext` is, and which `io_context` it has taken. -/
inductive Call where
  | fresh
  | loaded (slot : UInt64)
  | incremented (slot : UInt64)
  /-- It has found the index at the end. -/
  | wrapping (slot : UInt64)
  | returned (slot : UInt64)
  deriving DecidableEq, Repr

/-- The load and the store of `m_nextIOContext++`, and those of the `if` behind it. -/
inductive Event where
  | load (c : Nat)
  | increment (c : Nat)
  | compare (c : Nat)
  | reset (c : Nat)
  deriving DecidableEq, Repr

end IOServicePool

open IOServicePool

structure IOServicePool where
  /-- `m_ioContexts.size()`, the argument of the constructor. -/
  poolSize : UInt64
  m_nextIOContext : UInt64 := 0
  calls : Nat → Call := fun _ => .fresh

namespace IOServicePool

def setCall (c : Nat) (call : Call) (p : IOServicePool) : IOServicePool :=
  { p with calls := Function.update p.calls c call }

def step (p : IOServicePool) : Event → Option IOServicePool
  | .load c =>
    match p.calls c with
    | .fresh => some (p.setCall c (.loaded p.m_nextIOContext))
    | _ => none
  | .increment c =>
    match p.calls c with
    | .loaded slot =>
      some ({ p with m_nextIOContext := slot + 1 }.setCall c (.incremented slot))
    | _ => none
  | .compare c =>
    match p.calls c with
    | .incremented slot =>
      if p.m_nextIOContext = p.poolSize then some (p.setCall c (.wrapping slot))
      else some (p.setCall c (.returned slot))
    | _ => none
  | .reset c =>
    match p.calls c with
    | .wrapping slot => some ({ p with m_nextIOContext := 0 }.setCall c (.returned slot))
    | _ => none

/-! ## What one step can do -/

section

variable {p q : IOServicePool} {e : Event}

theorem step_cases (h : p.step e = some q) :
    (∃ c, e = .load c ∧ p.calls c = .fresh ∧ q = p.setCall c (.loaded p.m_nextIOContext)) ∨
    (∃ c slot, e = .increment c ∧ p.calls c = .loaded slot ∧
      q = { p with m_nextIOContext := slot + 1 }.setCall c (.incremented slot)) ∨
    (∃ c slot, e = .compare c ∧ p.calls c = .incremented slot ∧
      p.m_nextIOContext = p.poolSize ∧ q = p.setCall c (.wrapping slot)) ∨
    (∃ c slot, e = .compare c ∧ p.calls c = .incremented slot ∧
      p.m_nextIOContext ≠ p.poolSize ∧ q = p.setCall c (.returned slot)) ∨
    (∃ c slot, e = .reset c ∧ p.calls c = .wrapping slot ∧
      q = { p with m_nextIOContext := 0 }.setCall c (.returned slot)) := by
  cases e with
  | load c =>
    simp only [step] at h
    split at h
    · rename_i hc
      exact .inl ⟨c, rfl, hc, (Option.some.inj h).symm⟩
    · cases h
  | increment c =>
    simp only [step] at h
    split at h
    · rename_i slot hc
      exact .inr (.inl ⟨c, slot, rfl, hc, (Option.some.inj h).symm⟩)
    · cases h
  | compare c =>
    simp only [step] at h
    split at h
    · rename_i slot hc
      split_ifs at h with hend
      · exact .inr (.inr (.inl ⟨c, slot, rfl, hc, hend, (Option.some.inj h).symm⟩))
      · exact .inr (.inr (.inr (.inl ⟨c, slot, rfl, hc, hend, (Option.some.inj h).symm⟩)))
    · cases h
  | reset c =>
    simp only [step] at h
    split at h
    · rename_i slot hc
      exact .inr (.inr (.inr (.inr ⟨c, slot, rfl, hc, (Option.some.inj h).symm⟩)))
    · cases h

/-! ## The slots -/

theorem toNat_add_one {n m : UInt64} (h : n < m) : (n + 1).toNat = n.toNat + 1 := by
  have hlt := UInt64.lt_iff_toNat_lt.mp h
  have hhigh := m.toNat_lt
  rw [UInt64.toNat_add, UInt64.toNat_one]
  omega

/-- The index of the call into `m_ioContexts`, if it has one, is that of an `io_context`. -/
def Call.InRange (poolSize : UInt64) : Call → Prop
  | .fresh => True
  | .loaded slot | .incremented slot | .wrapping slot | .returned slot => slot < poolSize

def InRange (p : IOServicePool) : Prop := ∀ c, (p.calls c).InRange p.poolSize

/-- The index is not at the end when a call loads it. -/
def LoadsSlot (p : IOServicePool) (e : Event) : Prop :=
  ∀ c, e = .load c → p.calls c = .fresh → p.m_nextIOContext ≠ p.poolSize

theorem loadsSlot_of_refused (h : p.step e = none) : p.LoadsSlot e := by
  rintro c rfl hc
  simp [step, hc] at h

theorem loadsSlot_of_forall_ne (h : ∀ c, e ≠ .load c) : p.LoadsSlot e := by
  intro c he
  exact absurd he (h c)

theorem inRange_update_iff (hp : p.InRange) (next : UInt64) (c : Nat) (call : Call) :
    ({ p with m_nextIOContext := next }.setCall c call).InRange ↔ call.InRange p.poolSize :=
  Threads.forall_update_iff_of_forall hp

theorem InRange.call (hp : p.InRange) {c : Nat} {call : Call} (hc : p.calls c = call) :
    call.InRange p.poolSize := hc ▸ hp c

/-- The slot of a call stays the same once it is loaded, so it is the load that decides. -/
theorem inRange_step_iff (h : p.step e = some q)
    (hnext : p.m_nextIOContext ≤ p.poolSize) (hp : p.InRange) : q.InRange ↔ p.LoadsSlot e := by
  obtain ⟨c, rfl, hc, rfl⟩ | ⟨c, slot, rfl, hc, rfl⟩ | ⟨c, slot, rfl, hc, -, rfl⟩ |
    ⟨c, slot, rfl, hc, -, rfl⟩ | ⟨c, slot, rfl, hc, rfl⟩ := step_cases h
  · have hslot := inRange_update_iff hp p.m_nextIOContext c (.loaded p.m_nextIOContext)
    apply hslot.trans
    constructor
    · intro hlt c' _ _
      exact UInt64.ne_of_lt hlt
    · intro hloads
      exact UInt64.lt_of_le_of_ne hnext (hloads c rfl hc)
  · apply iff_of_true
    · have hslot : slot < p.poolSize := hp.call hc
      exact (inRange_update_iff hp (slot + 1) c (.incremented slot)).mpr hslot
    · exact loadsSlot_of_forall_ne (by simp)
  · apply iff_of_true
    · have hslot : slot < p.poolSize := hp.call hc
      exact (inRange_update_iff hp p.m_nextIOContext c (.wrapping slot)).mpr hslot
    · exact loadsSlot_of_forall_ne (by simp)
  · apply iff_of_true
    · have hslot : slot < p.poolSize := hp.call hc
      exact (inRange_update_iff hp p.m_nextIOContext c (.returned slot)).mpr hslot
    · exact loadsSlot_of_forall_ne (by simp)
  · apply iff_of_true
    · have hslot : slot < p.poolSize := hp.call hc
      exact (inRange_update_iff hp 0 c (.returned slot)).mpr hslot
    · exact loadsSlot_of_forall_ne (by simp)

/-- As long as the slots are in range, the index is not beyond the end. -/
theorem next_le_step (h : p.step e = some q) (hnext : p.m_nextIOContext ≤ p.poolSize)
    (hp : p.InRange) : q.m_nextIOContext ≤ q.poolSize := by
  obtain ⟨c, rfl, -, rfl⟩ | ⟨c, slot, rfl, hc, rfl⟩ | ⟨c, slot, rfl, -, -, rfl⟩ |
    ⟨c, slot, rfl, -, -, rfl⟩ | ⟨c, slot, rfl, -, rfl⟩ := step_cases h
  · exact hnext
  · have hslot : slot < p.poolSize := hp.call hc
    apply UInt64.le_iff_toNat_le.mpr
    show (slot + 1).toNat ≤ p.poolSize.toNat
    rw [toNat_add_one hslot]
    exact UInt64.lt_iff_toNat_lt.mp hslot
  · exact hnext
  · exact hnext
  · exact UInt64.zero_le

end

/-- The slots stay in range exactly as long as no call loads the index while it is at the end. -/
theorem throughout_inRange_iff (poolSize : UInt64) (es : List Event) :
    Throughout step InRange { poolSize } es ↔ Along step LoadsSlot { poolSize } es := by
  apply throughout_iff_along_of_kept (I := fun p => p.m_nextIOContext ≤ p.poolSize)
  · intro p e q h hnext hp _
    exact next_le_step h hnext hp
  · intro p e q h hnext hp
    exact inRange_step_iff h hnext hp
  · intro p e h _
    exact loadsSlot_of_refused h
  · exact UInt64.zero_le
  · intro c
    trivial

/-! ## Calls one after the other -/

/-- The call has added one to the index and has not yet found that it need not be reset. -/
def Call.isAdvancing : Call → Bool
  | .incremented _ | .wrapping _ => true
  | _ => false

/-- Where the index is at the end, a call is about to reset it. -/
def ResetPending (p : IOServicePool) : Prop :=
  p.m_nextIOContext = p.poolSize → ∃ c, (p.calls c).isAdvancing = true

theorem resetPending_step {p q : IOServicePool} {e : Event} (h : p.step e = some q)
    (hpos : p.poolSize ≠ 0) (hp : p.ResetPending) : q.ResetPending := by
  obtain ⟨c, rfl, hc, rfl⟩ | ⟨c, slot, rfl, hc, rfl⟩ | ⟨c, slot, rfl, hc, hend, rfl⟩ |
    ⟨c, slot, rfl, hc, hend, rfl⟩ | ⟨c, slot, rfl, hc, rfl⟩ := step_cases h
  · intro hnext
    obtain ⟨c', hc'⟩ := hp hnext
    have hne : c' ≠ c := by
      rintro rfl
      rw [hc] at hc'
      cases hc'
    exact ⟨c', by simpa [setCall, hne] using hc'⟩
  · intro _
    exact ⟨c, by simp [setCall, Call.isAdvancing]⟩
  · intro _
    exact ⟨c, by simp [setCall, Call.isAdvancing]⟩
  · intro hnext
    exact absurd hnext hend
  · intro hnext
    exact absurd hnext.symm hpos

/-- No call begins between the store of another and the end of that call. -/
def Uninterrupted (p : IOServicePool) (e : Event) : Prop :=
  ∀ c, e = .load c → ∀ c', (p.calls c').isAdvancing = false

theorem poolSize_step {p q : IOServicePool} {e : Event} (h : p.step e = some q) :
    q.poolSize = p.poolSize := by
  obtain ⟨c, rfl, -, rfl⟩ | ⟨c, slot, rfl, -, rfl⟩ | ⟨c, slot, rfl, -, -, rfl⟩ |
    ⟨c, slot, rfl, -, -, rfl⟩ | ⟨c, slot, rfl, -, rfl⟩ := step_cases h <;> rfl

/-- The acceptor of a single server calls from one thread, and the slots stay in range then. -/
theorem throughout_inRange_of_uninterrupted {poolSize : UInt64} (hpos : poolSize ≠ 0)
    {es : List Event} (h : Along step Uninterrupted { poolSize } es) :
    Throughout step InRange { poolSize } es := by
  refine throughout_of_along (I := fun p => p.poolSize = poolSize ∧ p.ResetPending ∧
    p.m_nextIOContext ≤ p.poolSize ∧ p.InRange) ?_ (fun p hp => hp.2.2.2) h
    ⟨rfl, ?_, UInt64.zero_le, fun _ => trivial⟩
  · rintro p e q hstep hC ⟨rfl, hpending, hnext, hp⟩
    refine ⟨poolSize_step hstep, resetPending_step hstep hpos hpending,
      next_le_step hstep hnext hp, ?_⟩
    apply (inRange_step_iff hstep hnext hp).mpr
    intro c hload _ hend
    obtain ⟨c', hc'⟩ := hpending hend
    rw [hC c hload c'] at hc'
    cases hc'
  · intro hzero
    exact absurd hzero.symm hpos

/-! ## Calls that overlap -/

/-- A call that need not reset the index. -/
def turn (c : Nat) : List Event := [.load c, .increment c, .compare c]

theorem run_turn {p : IOServicePool} {c : Nat} (hc : p.calls c = .fresh)
    (hnext : p.m_nextIOContext + 1 ≠ p.poolSize) :
    run step p (turn c) = some
      ({ p with m_nextIOContext := p.m_nextIOContext + 1 }.setCall c
        (.returned p.m_nextIOContext)) := by
  simp [turn, run_cons, step, setCall, hc, hnext]

theorem run_turns {poolSize : UInt64} {k : Nat} (hk : k < poolSize.toNat) :
    ∃ p, run step { poolSize } ((List.range k).flatMap turn) = some p ∧
      p.poolSize = poolSize ∧ p.m_nextIOContext.toNat = k ∧ ∀ c, k ≤ c → p.calls c = .fresh := by
  induction k with
  | zero => exact ⟨_, rfl, rfl, rfl, fun _ _ => rfl⟩
  | succ k ih =>
    obtain ⟨p, hrun, rfl, hnext, hfresh⟩ := ih (by omega)
    have hlt : p.m_nextIOContext < p.poolSize := by
      rw [UInt64.lt_iff_toNat_lt]
      omega
    have hsucc := toNat_add_one hlt
    have hne : p.m_nextIOContext + 1 ≠ p.poolSize := by
      intro h
      rw [h] at hsucc
      omega
    have hturn := run_turn (hfresh k le_rfl) hne
    rw [List.range_succ, List.flatMap_append, List.flatMap_singleton]
    refine ⟨_, run_append_eq_some.mpr ⟨p, hrun, hturn⟩, rfl, ?_, ?_⟩
    · show (p.m_nextIOContext + 1).toNat = k + 1
      omega
    · intro c hc
      have hck : c ≠ k := by omega
      simpa [setCall, hck] using hfresh c (by omega)

/-- In a pool of any size, two calls that overlap can take a slot that is none: the second loads
the index before the first has found it at the end. -/
theorem exists_run_not_inRange (poolSize : UInt64) :
    ∃ es p, run step { poolSize } es = some p ∧ ¬ p.InRange := by
  by_cases hpos : poolSize = 0
  · subst hpos
    exact ⟨[.load 0], _, rfl, fun h => by simpa [Call.InRange, setCall] using h 0⟩
  · have hne : poolSize.toNat ≠ 0 := fun h => hpos (UInt64.toNat_inj.mp h)
    have hlast : poolSize.toNat - 1 < poolSize.toNat := by omega
    obtain ⟨p, hrun, rfl, hnext, hfresh⟩ := run_turns hlast
    generalize hk : p.poolSize.toNat - 1 = k at *
    have hend : p.m_nextIOContext + 1 = p.poolSize := by
      have hlt : p.m_nextIOContext < p.poolSize := by
        rw [UInt64.lt_iff_toNat_lt]
        omega
      apply UInt64.toNat_inj.mp
      rw [toNat_add_one hlt]
      omega
    have hfirst := hfresh k le_rfl
    have hsecond := hfresh (k + 1) (by omega)
    have hoverlap : run step p [.load k, .increment k, .load (k + 1)] = some
        (({ p with m_nextIOContext := p.poolSize }.setCall k
          (.incremented p.m_nextIOContext)).setCall (k + 1) (.loaded p.poolSize)) := by
      simp [run_cons, step, setCall, hfirst, hsecond, hend]
    refine ⟨_, _, run_append_eq_some.mpr ⟨p, hrun, hoverlap⟩, fun hrange => ?_⟩
    have hslot := hrange (k + 1)
    simp [setCall, Call.InRange] at hslot

end IOServicePool

/-! ## Round robin -/

open Concurrency

/-- The indices of all three pools, in every interleaving of the calls: where exactly they stay in
range. -/
theorem roundRobin_inRange_iff (queues : UInt32) (contexts : UInt64)
    (submits : List RoundRobin.Event) (gets : List IOServicePool.Event) :
    (Throughout (RoundRobin.step StealThreadPool.nextIndex) RoundRobin.InRange
        { poolSize := queues } submits ↔
      Along (RoundRobin.step StealThreadPool.nextIndex)
        (RoundRobin.Computes StealThreadPool.HasNext) { poolSize := queues } submits) ∧
    (Throughout (RoundRobin.step ParrallenThreadPool.nextIndex) RoundRobin.InRange
        { poolSize := queues } submits ↔
      Along (RoundRobin.step ParrallenThreadPool.nextIndex)
        (RoundRobin.Computes ParrallenThreadPool.HasNext) { poolSize := queues } submits) ∧
    (Throughout IOServicePool.step IOServicePool.InRange { poolSize := contexts } gets ↔
      Along IOServicePool.step IOServicePool.LoadsSlot { poolSize := contexts } gets) := by
  refine ⟨?_, ?_, IOServicePool.throughout_inRange_iff contexts gets⟩
  · apply RoundRobin.throughout_inRange_iff
    intro size i
    exact StealThreadPool.namesQueue_nextIndex_iff
  · apply RoundRobin.throughout_inRange_iff
    intro size i
    exact ParrallenThreadPool.namesQueue_nextIndex_iff

/-- Without queues `submit` divides by zero, and an acceptor that asks while another has not yet
reset the index gets a slot that is none. -/
theorem submit_without_queues :
    ¬ Throughout (RoundRobin.step StealThreadPool.nextIndex) RoundRobin.InRange { poolSize := 0 }
        [.load 0, .compute 0] ∧
      ¬ Throughout (RoundRobin.step ParrallenThreadPool.nextIndex) RoundRobin.InRange
        { poolSize := 0 } [.load 0, .compute 0] ∧
      ¬ Throughout IOServicePool.step IOServicePool.InRange { poolSize := 1 }
        [.load 0, .increment 0, .load 1] := by
  refine ⟨?_, ?_, ?_⟩
  · intro h
    exact h.last rfl 0
  · intro h
    exact h.last rfl 0
  · intro h
    have hslot : (1 : UInt64) < 1 := h.last rfl 1
    exact absurd hslot (by decide)

end NBRaft.Communication
