import NBRaft.Concurrency.StealThreadPool
import NBRaft.Library.Conversions

/-!
# The round robin index of the pools

`submit` loads an atomic `int`, makes an index from it and the number of queues, stores the index
and pushes into the queue it names. Each of these is a step of its own here, so that any number of
calls may overlap in any way. The two pools differ in the type in which they add one.
-/

namespace NBRaft.Concurrency

open Conversions Transition

/-! ## The next index -/

namespace StealThreadPool

/-- `(static_cast<unsigned long long>(m_atm_index.load()) + 1) % m_thread_work_ques.size()`, and
`none` where that divides by zero. -/
def nextIndex (size : UInt64) (loaded : Int32) : Option Int32 :=
  if size = 0 then none else some (sizeToInt ((intToSize loaded + 1) % size))

end StealThreadPool

namespace ParrallenThreadPool

/-- `(m_atm_index.load() + 1) % m_thread_work_ques.size()`, and `none` where that divides by zero or
where the sum, which is one of `int`s, overflows. -/
def nextIndex (size : UInt64) (loaded : Int32) : Option Int32 :=
  if loaded = Int32.maxValue ∨ size = 0 then none
  else some (sizeToInt (intToSize (loaded + 1) % size))

end ParrallenThreadPool

/-- The next index is defined, and it names a queue in the type in which `operator[]` takes it. -/
def NamesQueue (size : UInt64) (next : Option Int32) : Prop :=
  ∃ index, next = some index ∧ intToSize index < size

@[simp] theorem not_namesQueue_none (size : UInt64) : ¬ NamesQueue size none := by
  simp [NamesQueue]

@[simp] theorem namesQueue_some {size : UInt64} {index : Int32} :
    NamesQueue size (some index) ↔ intToSize index < size := by
  simp [NamesQueue]

section

variable {size : UInt64} {i : Int32}

/-- The next index, if the sum is known, is below the number of queues before it becomes an
`int`. -/
theorem namesQueue_mod_iff {sum : UInt64} (hsize : size.toNat < 2 ^ 32) (hpos : size ≠ 0) :
    NamesQueue size (some (sizeToInt (sum % size))) ↔ sum.toNat % size.toNat < 2 ^ 31 := by
  have hmod : sum % size < size := UInt64.mod_lt sum (UInt64.pos_iff_ne_zero.mpr hpos)
  rw [namesQueue_some, intToSize_sizeToInt_lt_iff hmod hsize, UInt64.toNat_mod]

theorem mod_lt_iff {sum n bound : Nat} (hn : n ≠ 0) (hsum : sum ≤ bound) :
    sum % n < bound ↔ (sum = bound → n ≤ bound) := by
  have hmod : sum % n < n := Nat.mod_lt sum (Nat.pos_of_ne_zero hn)
  have hle := Nat.mod_le sum n
  constructor
  · intro hlt heq
    by_contra hmore
    rw [Nat.mod_eq_of_lt (by omega)] at hlt
    omega
  · intro hbound
    by_cases heq : sum = bound
    · have := hbound heq
      omega
    · omega

theorem eq_maxValue_iff : i = Int32.maxValue ↔ i.toInt = 2 ^ 31 - 1 := by
  rw [← Int32.toInt_inj, Int32.toInt_maxValue]

namespace StealThreadPool

/-- There is a queue, and not more of them than there are indices if the last index is loaded. -/
def HasNext (size : UInt64) (loaded : Int32) : Prop :=
  size ≠ 0 ∧ (loaded = Int32.maxValue → size.toNat ≤ 2 ^ 31)

theorem toNat_intToSize_add_one (hi : 0 ≤ i.toInt) :
    (intToSize i + 1).toNat = i.toInt.toNat + 1 := by
  have hsame := toNat_intToSize_of_nonneg hi
  have hhigh := i.toInt_lt
  rw [UInt64.toNat_add, UInt64.toNat_one]
  omega

theorem namesQueue_nextIndex_iff (hsize : size.toNat < 2 ^ 32) (hi : 0 ≤ i.toInt) :
    NamesQueue size (nextIndex size i) ↔ HasNext size i := by
  by_cases hpos : size = 0
  · simp [nextIndex, HasNext, hpos]
  · have hhigh := i.toInt_lt
    have hlast : i = Int32.maxValue ↔ i.toInt.toNat + 1 = 2 ^ 31 := by
      rw [eq_maxValue_iff]
      omega
    have hne : size.toNat ≠ 0 := fun h => hpos (UInt64.toNat_inj.mp h)
    rw [nextIndex, if_neg hpos, namesQueue_mod_iff hsize hpos,
      toNat_intToSize_add_one hi, HasNext, hlast, mod_lt_iff hne (by omega)]
    exact (and_iff_right hpos).symm

end StealThreadPool

namespace ParrallenThreadPool

/-- There is a queue, and the last index is not loaded. -/
def HasNext (size : UInt64) (loaded : Int32) : Prop :=
  size ≠ 0 ∧ loaded ≠ Int32.maxValue

theorem namesQueue_nextIndex_iff (hsize : size.toNat < 2 ^ 32) (hi : 0 ≤ i.toInt) :
    NamesQueue size (nextIndex size i) ↔ HasNext size i := by
  by_cases hlast : i = Int32.maxValue
  · simp [nextIndex, HasNext, hlast]
  by_cases hpos : size = 0
  · simp [nextIndex, HasNext, hpos]
  · have hhigh : i.toInt < 2 ^ 31 - 1 := by
      have hlt := i.toInt_lt
      rw [eq_maxValue_iff] at hlast
      omega
    have hone : (i + 1).toInt = i.toInt + 1 := by
      rw [Int32.toInt_add, Int32.toInt_one, Int.bmod_def]
      omega
    have hsum := toNat_intToSize_of_nonneg (i := i + 1) (by omega)
    have hle := Nat.mod_le (intToSize (i + 1)).toNat size.toNat
    rw [nextIndex, if_neg (by simp [hlast, hpos]), namesQueue_mod_iff hsize hpos]
    exact iff_of_true (by omega) ⟨hpos, hlast⟩

end ParrallenThreadPool

end

/-! ## Overlapping calls -/

namespace RoundRobin

/-- Where a call of `submit` is. -/
inductive Call where
  | fresh
  | loaded (i : Int32)
  | computed (index : Int32)
  | stored (index : Int32)
  | pushed (index : Int32)
  /-- It has divided by zero, or its sum has overflowed. -/
  | undefined
  deriving DecidableEq, Repr

/-- A call that has made its next index. -/
def Call.ofNext : Option Int32 → Call
  | some index => .computed index
  | none => .undefined

inductive Event where
  | load (c : Nat)
  | compute (c : Nat)
  | store (c : Nat)
  | push (c : Nat)
  deriving DecidableEq, Repr

end RoundRobin

open RoundRobin

/-- A pool as `submit` sees it, and the calls of `submit`. -/
structure RoundRobin where
  /-- The argument of the constructor, which makes that many queues. -/
  poolSize : UInt32
  m_atm_index : Int32 := 0
  calls : Nat → Call := fun _ => .fresh

namespace RoundRobin

/-- `m_thread_work_ques.size()`. -/
def size (p : RoundRobin) : UInt64 := p.poolSize.toUInt64

theorem size_lt (p : RoundRobin) : p.size.toNat < 2 ^ 32 := p.poolSize.toNat_lt

def setCall (c : Nat) (call : Call) (p : RoundRobin) : RoundRobin :=
  { p with calls := Function.update p.calls c call }

def step (nextIndex : UInt64 → Int32 → Option Int32) (p : RoundRobin) : Event → Option RoundRobin
  | .load c =>
    match p.calls c with
    | .fresh => some (p.setCall c (.loaded p.m_atm_index))
    | _ => none
  | .compute c =>
    match p.calls c with
    | .loaded i => some (p.setCall c (.ofNext (nextIndex p.size i)))
    | _ => none
  | .store c =>
    match p.calls c with
    | .computed index => some ({ p with m_atm_index := index }.setCall c (.stored index))
    | _ => none
  | .push c =>
    match p.calls c with
    | .stored index => some (p.setCall c (.pushed index))
    | _ => none

/-- The index of the call names a queue, if it has one, and all it has done is defined. -/
def Call.InRange (size : UInt64) : Call → Prop
  | .fresh | .loaded _ => True
  | .computed index | .stored index | .pushed index => intToSize index < size
  | .undefined => False

def InRange (p : RoundRobin) : Prop := ∀ c, (p.calls c).InRange p.size

/-- The call that computes its index in this step can. -/
def Computes (HasNext : UInt64 → Int32 → Prop) (p : RoundRobin) (e : Event) : Prop :=
  ∀ c i, e = .compute c → p.calls c = .loaded i → HasNext p.size i

@[simp] theorem Call.inRange_ofNext {size : UInt64} {next : Option Int32} :
    (Call.ofNext next).InRange size ↔ NamesQueue size next := by
  cases next <;> simp [Call.ofNext, Call.InRange]

section

variable {nextIndex : UInt64 → Int32 → Option Int32} {HasNext : UInt64 → Int32 → Prop}
variable {p q : RoundRobin} {e : Event}

theorem step_cases (h : step nextIndex p e = some q) :
    (∃ c, e = .load c ∧ p.calls c = .fresh ∧ q = p.setCall c (.loaded p.m_atm_index)) ∨
    (∃ c i, e = .compute c ∧ p.calls c = .loaded i ∧
      q = p.setCall c (.ofNext (nextIndex p.size i))) ∨
    (∃ c index, e = .store c ∧ p.calls c = .computed index ∧
      q = { p with m_atm_index := index }.setCall c (.stored index)) ∨
    (∃ c index, e = .push c ∧ p.calls c = .stored index ∧ q = p.setCall c (.pushed index)) := by
  cases e with
  | load c =>
    simp only [step] at h
    split at h
    · rename_i hc
      exact .inl ⟨c, rfl, hc, (Option.some.inj h).symm⟩
    · cases h
  | compute c =>
    simp only [step] at h
    split at h
    · rename_i i hc
      exact .inr (.inl ⟨c, i, rfl, hc, (Option.some.inj h).symm⟩)
    · cases h
  | store c =>
    simp only [step] at h
    split at h
    · rename_i index hc
      exact .inr (.inr (.inl ⟨c, index, rfl, hc, (Option.some.inj h).symm⟩))
    · cases h
  | push c =>
    simp only [step] at h
    split at h
    · rename_i index hc
      exact .inr (.inr (.inr ⟨c, index, rfl, hc, (Option.some.inj h).symm⟩))
    · cases h

theorem poolSize_step (h : step nextIndex p e = some q) : q.poolSize = p.poolSize := by
  obtain ⟨c, rfl, -, rfl⟩ | ⟨c, i, rfl, -, rfl⟩ | ⟨c, index, rfl, -, rfl⟩ |
    ⟨c, index, rfl, -, rfl⟩ := step_cases h <;> rfl

theorem computes_of_refused (h : step nextIndex p e = none) : p.Computes HasNext e := by
  rintro c i rfl hc
  simp [step, hc] at h

theorem computes_of_forall_ne (h : ∀ c, e ≠ .compute c) : p.Computes HasNext e := by
  intro c i he
  exact absurd he (h c)

/-- The indices of all other calls are what they were. -/
theorem inRange_update_iff (hp : p.InRange) (m : Int32) (c : Nat) (call : Call) :
    ({ p with m_atm_index := m }.setCall c call).InRange ↔ call.InRange p.size :=
  Threads.forall_update_iff_of_forall hp

/-- The index satisfies `P`, and so does what has been loaded from it. -/
structure Loads (P : Int32 → Prop) (p : RoundRobin) : Prop where
  m_atm_index : P p.m_atm_index
  loaded : ∀ c i, p.calls c = .loaded i → P i

section

variable {P : Int32 → Prop}

theorem Loads.update {m : Int32} {c : Nat} {call : Call} (hp : p.Loads P) (hm : P m)
    (hcall : ∀ i, call = .loaded i → P i) :
    ({ p with m_atm_index := m }.setCall c call).Loads P where
  m_atm_index := hm
  loaded := (Threads.forall_update_iff_of_forall
    (P := fun call => ∀ i, call = Call.loaded i → P i) hp.loaded).mpr hcall

/-- If what is computed satisfies `P`, so does what is stored, and what is loaded after that. -/
theorem loads_step (h : step nextIndex p e = some q) (hp : p.Loads P)
    (hcomputed : ∀ c index, p.calls c = .computed index → P index) : q.Loads P := by
  obtain ⟨c, rfl, -, rfl⟩ | ⟨c, i, rfl, -, rfl⟩ | ⟨c, index, rfl, hc, rfl⟩ |
    ⟨c, index, rfl, -, rfl⟩ := step_cases h
  · apply hp.update hp.m_atm_index
    intro i hi
    cases hi
    exact hp.m_atm_index
  · apply hp.update hp.m_atm_index
    intro j hj
    cases hnext : nextIndex p.size i <;> simp [hnext, Call.ofNext] at hj
  · apply hp.update (hcomputed c index hc)
    intro i hi
    cases hi
  · apply hp.update hp.m_atm_index
    intro i hi
    cases hi

end

theorem InRange.call (hp : p.InRange) {c : Nat} {call : Call} (hc : p.calls c = call) :
    call.InRange p.size := hc ▸ hp c

/-- A step keeps the indices in range exactly if the next index, where it computes one, names a
queue. -/
theorem inRange_step_iff (h : step nextIndex p e = some q) (hrange : p.InRange) :
    q.InRange ↔ p.Computes (fun size i => NamesQueue size (nextIndex size i)) e := by
  obtain ⟨c, rfl, -, rfl⟩ | ⟨c, i, rfl, hc, rfl⟩ | ⟨c, index, rfl, hc, rfl⟩ |
    ⟨c, index, rfl, hc, rfl⟩ := step_cases h
  · apply iff_of_true
    · exact (inRange_update_iff hrange p.m_atm_index c (.loaded _)).mpr trivial
    · exact computes_of_forall_ne (by simp)
  · have hindex := inRange_update_iff hrange p.m_atm_index c (.ofNext (nextIndex p.size i))
    rw [Call.inRange_ofNext] at hindex
    apply hindex.trans
    constructor
    · rintro hi c' j hc' hj
      cases hc'
      rw [hc] at hj
      cases hj
      exact hi
    · intro hcomputes
      exact hcomputes c i rfl hc
  · apply iff_of_true
    · have hindex : intToSize index < p.size := hrange.call hc
      exact (inRange_update_iff hrange index c (.stored index)).mpr hindex
    · exact computes_of_forall_ne (by simp)
  · apply iff_of_true
    · have hindex : intToSize index < p.size := hrange.call hc
      exact (inRange_update_iff hrange p.m_atm_index c (.pushed index)).mpr hindex
    · exact computes_of_forall_ne (by simp)

/-- The indices stay in range exactly as long as every call that computes one finds a next index
for what it has loaded. -/
theorem throughout_inRange_iff
    (hnext : ∀ size i, size.toNat < 2 ^ 32 → 0 ≤ i.toInt →
      (NamesQueue size (nextIndex size i) ↔ HasNext size i)) (poolSize : UInt32)
    (es : List Event) :
    Throughout (step nextIndex) InRange { poolSize } es ↔
      Along (step nextIndex) (Computes HasNext) { poolSize } es := by
  apply throughout_iff_along_of_kept (I := Loads (0 ≤ ·.toInt))
  · intro p e q h hp hrange _
    apply loads_step h hp
    intro c index hc
    exact ((intToSize_lt_iff p.size_lt).mp (hrange.call hc)).1
  · intro p e q h hp hrange
    apply (inRange_step_iff h hrange).trans
    apply forall₄_congr
    intro c i _ hc
    exact hnext p.size i p.size_lt (hp.loaded c i hc)
  · intro p e h _
    exact computes_of_refused h
  · constructor
    · show 0 ≤ (0 : Int32).toInt
      decide
    · intro c i h
      cases h
  · intro c
    trivial

theorem toUInt64_ne_zero {poolSize : UInt32} (h : poolSize ≠ 0) : poolSize.toUInt64 ≠ 0 := by
  intro hzero
  apply h
  apply UInt32.toNat_inj.mp
  rw [← UInt32.toNat_toUInt64, hzero]
  rfl

/-- If the index of a queue is followed by the index of a queue, no call leaves the range. -/
theorem inRange_of_run {poolSize : UInt32} (hpos : poolSize ≠ 0)
    (hnext : ∀ i, intToSize i < poolSize.toUInt64 →
      NamesQueue poolSize.toUInt64 (nextIndex poolSize.toUInt64 i))
    {es : List Event} (h : run (step nextIndex) { poolSize } es = some p) : p.InRange := by
  have hinitial : Loads (intToSize · < poolSize.toUInt64) { poolSize } := by
    constructor
    · show intToSize 0 < poolSize.toUInt64
      exact UInt64.pos_iff_ne_zero.mpr (toUInt64_ne_zero hpos)
    · intro c i hc
      cases hc
  have hp : p.poolSize = poolSize ∧ p.Loads (intToSize · < poolSize.toUInt64) ∧ p.InRange := by
    refine run_preserves (I := fun p => p.poolSize = poolSize ∧
      p.Loads (intToSize · < poolSize.toUInt64) ∧ p.InRange) ?_ h ⟨rfl, hinitial, fun _ => trivial⟩
    rintro p e q hstep ⟨rfl, hloads, hrange⟩
    refine ⟨poolSize_step hstep, ?_, ?_⟩
    · apply loads_step hstep hloads
      intro c index hc
      exact hrange.call hc
    · apply (inRange_step_iff hstep hrange).mpr
      intro c i _ hc
      exact hnext i (hloads.loaded c i hc)
  exact hp.2.2

end

end RoundRobin

namespace StealThreadPool

/-- With as many queues as there are indices, or less, but at least one, no call of `submit` leaves
the range, however they overlap. -/
theorem inRange_of_poolSize {poolSize : UInt32} (hpos : poolSize ≠ 0)
    (hbound : poolSize.toNat ≤ 2 ^ 31) {es : List RoundRobin.Event} {p : RoundRobin}
    (h : run (RoundRobin.step nextIndex) { poolSize } es = some p) : p.InRange := by
  have hsize : poolSize.toUInt64.toNat < 2 ^ 32 := poolSize.toNat_lt
  apply RoundRobin.inRange_of_run hpos _ h
  intro i hi
  have hi := (intToSize_lt_iff hsize).mp hi
  exact (namesQueue_nextIndex_iff hsize hi.1).mpr
    ⟨RoundRobin.toUInt64_ne_zero hpos, fun _ => hbound⟩

end StealThreadPool

namespace ParrallenThreadPool

theorem inRange_of_poolSize {poolSize : UInt32} (hpos : poolSize ≠ 0)
    (hbound : poolSize.toNat < 2 ^ 31) {es : List RoundRobin.Event} {p : RoundRobin}
    (h : run (RoundRobin.step nextIndex) { poolSize } es = some p) : p.InRange := by
  have hsize : poolSize.toUInt64.toNat < 2 ^ 32 := poolSize.toNat_lt
  apply RoundRobin.inRange_of_run hpos _ h
  intro i hi
  have hi := (intToSize_lt_iff hsize).mp hi
  apply (namesQueue_nextIndex_iff hsize hi.1).mpr
  refine ⟨RoundRobin.toUInt64_ne_zero hpos, ?_⟩
  intro hlast
  rw [eq_maxValue_iff] at hlast
  have hsame := poolSize.toNat_toUInt64
  omega

end ParrallenThreadPool

/-! ## The indices of the stealing thread pool -/

namespace StealThreadPool

variable {n : Nat}

/-- What a step of the pool does to the index. -/
def Event.indexEvents : Event n → List RoundRobin.Event
  | .load task => [.load task, .compute task]
  | .store task => [.store task]
  | .push task => [.push task]
  | .worker _ | .queue .. => []

def Submission.call : Submission n → RoundRobin.Call
  | .fresh => .fresh
  | .loaded index => .computed (.ofNat index)
  | .stored index => .stored (.ofNat index)
  | .pushing index => .pushed (.ofNat index)

/-- The index and the calls of a pool, with the integers of the source. -/
def indices (p : StealThreadPool n) : RoundRobin where
  poolSize := .ofNat n
  m_atm_index := .ofNat p.m_atm_index
  calls task := (p.submissions task).call

theorem nextIndex_ofNat {m : Nat} (hm : m < n) (hn : n ≤ 2 ^ 31) :
    nextIndex (UInt32.ofNat n).toUInt64 (.ofNat m) = some (.ofNat ((m + 1) % n)) := by
  have hsize : (UInt32.ofNat n).toUInt64.toNat = n := by
    rw [UInt32.toNat_toUInt64, UInt32.toNat_ofNat']
    omega
  have hsum : (intToSize (.ofNat m) + 1).toNat = m + 1 := by
    have hloaded : (Int32.ofNat m).toInt = m := Int32.toInt_ofNat_of_lt (by omega)
    rw [toNat_intToSize_add_one (by omega), hloaded]
    rfl
  have hne : (UInt32.ofNat n).toUInt64 ≠ 0 := by
    intro h
    rw [h] at hsize
    simp at hsize
    omega
  rw [nextIndex, if_neg hne]
  apply congrArg some
  apply Int32.toInt_inj.mp
  have hnext : (Int32.ofNat ((m + 1) % n)).toInt = (((m + 1) % n : Nat) : Int).bmod (2 ^ 32) :=
    Int32.toInt_ofNat'
  rw [toInt_sizeToInt, UInt64.toNat_mod, hsum, hsize, hnext]

theorem indices_setSubmission (p : StealThreadPool n) (task : Task) (s : Submission n) :
    (p.setSubmission task s).indices = p.indices.setCall task s.call := by
  simp only [indices, setSubmission, RoundRobin.setCall, RoundRobin.mk.injEq, true_and]
  funext task'
  by_cases htask : task' = task <;> simp [htask]

@[simp] theorem indices_setQueue (p : StealThreadPool n) (i : Fin n) (q : ConcurrentQueue Task) :
    (p.setQueue i q).indices = p.indices := rfl

theorem indices_workerThread {p p' : StealThreadPool n} {w : Fin n} {s : Worker n}
    (h : p.workerThread w s = some p') :
    p'.indices = p.indices ∧ p'.m_atm_index = p.m_atm_index := by
  cases s with
  | looking =>
    simp only [workerThread, Option.bind_eq_bind, Option.bind_eq_some_iff] at h
    obtain ⟨q, -, h⟩ := h
    cases h
    exact ⟨rfl, rfl⟩
  | popping | stealing =>
    simp only [workerThread] at h
    split at h <;> cases h <;> exact ⟨rfl, rfl⟩
  | searching i =>
    simp only [workerThread] at h
    split_ifs at h
    · cases h
      exact ⟨rfl, rfl⟩
    · simp only [Option.bind_eq_bind, Option.bind_eq_some_iff] at h
      obtain ⟨q, -, h⟩ := h
      cases h
      exact ⟨rfl, rfl⟩
    · cases h
      exact ⟨rfl, rfl⟩
  | holding task =>
    cases h
    exact ⟨rfl, rfl⟩

theorem indices_step [NeZero n] {p p' : StealThreadPool n} {e : Event n} (hn : n ≤ 2 ^ 31)
    (h : p.step e = some p') (hp : p.m_atm_index < n) :
    run (RoundRobin.step nextIndex) p.indices e.indexEvents = some p'.indices ∧
      p'.m_atm_index < n := by
  cases e with
  | load task =>
    simp only [step] at h
    split at h
    · rename_i hfresh
      cases h
      refine ⟨?_, hp⟩
      have hnext := nextIndex_ofNat hp hn
      have hload : RoundRobin.step nextIndex p.indices (.load task) =
          some (p.indices.setCall task (.loaded (.ofNat p.m_atm_index))) := by
        simp [RoundRobin.step, indices, hfresh, Submission.call]
      have hcompute : RoundRobin.step nextIndex
          (p.indices.setCall task (.loaded (.ofNat p.m_atm_index))) (.compute task) =
            some (p.indices.setCall task (.computed (.ofNat ((p.m_atm_index + 1) % n)))) := by
        simp [RoundRobin.step, RoundRobin.setCall, RoundRobin.size, indices, hnext,
          RoundRobin.Call.ofNext]
      rw [indices_setSubmission, Event.indexEvents, run_cons, hload, Option.bind_some, run_cons,
        hcompute]
      rfl
    · cases h
  | store task =>
    simp only [step] at h
    split at h
    · rename_i index hloaded
      cases h
      refine ⟨?_, index.isLt⟩
      rw [indices_setSubmission]
      simp [Event.indexEvents, run_cons, RoundRobin.step, indices, hloaded, Submission.call]
    · cases h
  | push task =>
    simp only [step] at h
    split at h
    · rename_i index hstored
      simp only [Option.bind_eq_bind, Option.bind_eq_some_iff] at h
      obtain ⟨q, -, h⟩ := h
      cases h
      refine ⟨?_, hp⟩
      rw [indices_setSubmission, indices_setQueue]
      simp [Event.indexEvents, run_cons, RoundRobin.step, indices, hstored, Submission.call]
    · cases h
  | worker w =>
    obtain ⟨hindices, hm⟩ := indices_workerThread h
    rw [hindices, hm]
    exact ⟨rfl, hp⟩
  | queue i e =>
    simp only [step] at h
    split_ifs at h
    simp only [Option.bind_eq_bind, Option.bind_eq_some_iff] at h
    obtain ⟨q, -, h⟩ := h
    cases h
    exact ⟨rfl, hp⟩

/-- In a pool of no more queues than indices the integers of the source do what the numbers of the
pool do. -/
theorem indices_run [NeZero n] {p : StealThreadPool n} {es : List (Event n)} (hn : n ≤ 2 ^ 31)
    (h : run step {} es = some p) :
    run (RoundRobin.step nextIndex) { poolSize := .ofNat n } (es.flatMap Event.indexEvents) =
      some p.indices := by
  have hsim : ∀ (p : StealThreadPool n) e p', p.step e = some p' → p.m_atm_index < n →
      run (RoundRobin.step nextIndex) p.indices e.indexEvents = some p'.indices ∧
        p'.m_atm_index < n := fun _ _ _ => indices_step hn
  exact (run_flatMap hsim h (Nat.pos_of_neZero n)).1

end StealThreadPool

end NBRaft.Concurrency
