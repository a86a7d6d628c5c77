import NBRaft.Concurrency.QueueControl

/-!
# What a step of the queue does for its threads

Seen from outside, a step of an operation that is in progress links the value that a `push`
carries, or gives a pop or a steal its answer, or does neither.
-/

namespace NBRaft.Concurrency.ConcurrentQueue

open Threads

variable {T : Type}

/-- The value that a `push` has still to link. -/
def Pc.carried : Pc T → Option T
  | .pushLock v | .pushLink v => some v
  | _ => none

/-- What the last pop or steal has taken. -/
def Pc.value : Pc T → Option T
  | .returned v => v
  | _ => none

@[simp] theorem Pc.carried_wake (timedOut : Bool) (pc : Pc T) :
    (pc.wake timedOut).carried = pc.carried := by
  cases pc <;> rfl

@[simp] theorem Pc.value_wake (timedOut : Bool) (pc : Pc T) :
    (pc.wake timedOut).value = pc.value := by
  cases pc <;> rfl

theorem Pc.value_of_isConsuming {pc : Pc T} (h : pc.isConsuming = true) : pc.value = none := by
  cases pc <;> first | rfl | cases h

theorem Pc.carried_of_isIdle {pc : Pc T} (h : pc.isIdle = true) : pc.carried = none := by
  cases pc <;> first | rfl | cases h

theorem Pc.carried_of_isConsuming {pc : Pc T} (h : pc.isConsuming = true) :
    pc.carried = none := by
  cases pc <;> first | rfl | cases h

def pushed (q : ConcurrentQueue T) : List T := Deque.pushed (q.history.map Prod.snd)

def taken (q : ConcurrentQueue T) : List T := q.answers.filterMap Prod.snd

/-- The threads carry and have taken what they did, and nobody has begun to pop or to steal. -/
structure SameThreads (threads threads' : Tid → Pc T) : Prop where
  carried : ∀ tid, (threads' tid).carried = (threads tid).carried
  value : ∀ tid, (threads' tid).value = (threads tid).value
  isConsuming : ∀ tid, (threads' tid).isConsuming = true → (threads tid).isConsuming = true

inductive Effect (q r : ConcurrentQueue T) : Prop where
  | quiet : r.pushed = q.pushed → r.taken = q.taken → SameThreads q.threads r.threads → Effect q r
  | linked {tid : Tid} {v : T} : q.threads tid = .pushLink v → r.pushed = q.pushed ++ [v] →
    r.taken = q.taken → r.threads = Function.update q.threads tid .pushUnlock → Effect q r
  | answered {tid : Tid} {v : Option T} : (q.threads tid).isConsuming = true →
    r.pushed = q.pushed → r.taken = q.taken ++ v.toList →
    r.threads = Function.update q.threads tid (.returned v) → Effect q r

section

variable {q r : ConcurrentQueue T} {pc pc' : Pc T} {tid : Tid} {e : Event T}
  {threads threads' : Tid → Pc T}

theorem SameThreads.refl (threads : Tid → Pc T) : SameThreads threads threads :=
  ⟨fun _ => rfl, fun _ => rfl, fun _ h => h⟩

theorem SameThreads.update (h : SameThreads threads threads') (hpc : threads' tid = pc')
    (hcarried : pc.carried = pc'.carried) (hvalue : pc.value = pc'.value)
    (hconsuming : pc.isConsuming = true → pc'.isConsuming = true) :
    SameThreads threads (Function.update threads' tid pc) := by
  subst hpc
  constructor
  · exact fun t => (map_update hcarried t).trans (h.carried t)
  · exact fun t => (map_update hvalue t).trans (h.value t)
  · apply (Function.forall_update_iff threads' fun t pc =>
      pc.isConsuming = true → (threads t).isConsuming = true).mpr
    exact ⟨fun hpc => h.isConsuming tid (hconsuming hpc), fun t _ => h.isConsuming t⟩

theorem SameThreads.wakeOne (w : Tid) (timedOut : Bool) :
    SameThreads q.threads (q.wakeOne w timedOut).threads :=
  (SameThreads.refl q.threads).update rfl (Pc.carried_wake ..) (Pc.value_wake ..)
    (Pc.isConsuming_wake timedOut (q.threads w) ▸ id)

theorem SameThreads.wakeAll : SameThreads q.threads q.wakeAll.threads := by
  constructor
  · intro tid
    simp only [ConcurrentQueue.wakeAll]
    split <;> simp
  · intro tid
    simp only [ConcurrentQueue.wakeAll]
    split <;> simp
  · intro tid
    simp only [ConcurrentQueue.wakeAll]
    split <;> simp

theorem call_eq {c : Call T} (h : q.step (.call tid c) = some r) :
    (q.threads tid).isIdle = true ∧ r = q.goto tid (enter c) := by
  simp only [step, Option.ite_none_right_eq_some, Option.some.injEq] at h
  exact ⟨h.1, h.2.symm⟩

/-- What a thread carries that has just called is what it was called with. -/
theorem carried_of_call {c : Call T} {t : Tid} {v : T} (h : q.step (.call tid c) = some r)
    (hcarried : (r.threads t).carried = some v) :
    t = tid ∧ c = .push v ∨ (q.threads t).carried = some v := by
  obtain ⟨-, rfl⟩ := call_eq h
  by_cases ht : t = tid
  · subst ht
    simp only [goto, Function.update_self] at hcarried
    cases c <;> simp_all [enter, Pc.carried]
  · simp only [goto, Function.update_of_ne ht] at hcarried
    exact .inr hcarried

/-- Who is taking something has called for it, or was taking it before. -/
theorem isConsuming_of_call {c : Call T} {t : Tid} (h : q.step (.call tid c) = some r)
    (hr : (r.threads t).isConsuming = true) :
    t = tid ∧ (enter c).isConsuming = true ∨ (q.threads t).isConsuming = true := by
  obtain ⟨-, rfl⟩ := call_eq h
  by_cases ht : t = tid
  · subst ht
    simp only [goto, Function.update_self] at hr
    exact .inl ⟨rfl, hr⟩
  · simp only [goto, Function.update_of_ne ht] at hr
    exact .inr hr

theorem value_of_call {c : Call T} {t : Tid} (h : q.step (.call tid c) = some r) (ht : t ≠ tid) :
    (r.threads t).value = (q.threads t).value := by
  obtain ⟨-, rfl⟩ := call_eq h
  simp only [goto, Function.update_of_ne ht]

theorem value_of_pop {kind : PopKind} (h : q.step (.call tid (.pop kind)) = some r) :
    (r.threads tid).value = none := by
  obtain ⟨-, rfl⟩ := call_eq h
  simp only [goto, Function.update_self]
  rfl

theorem value_of_linked {v : T} (hpc : q.threads tid = .pushLink v)
    (h : r.threads = Function.update q.threads tid .pushUnlock) (t : Tid) :
    (r.threads t).value = (q.threads t).value := by
  rw [h]
  exact map_update (by rw [hpc]; rfl) t

theorem pushed_record (op : Deque.Op T) :
    (q.record tid op).pushed = q.pushed ++ Deque.pushed [op] := by
  simp [pushed, record]

theorem taken_answer (v : Option T) : (q.answer tid v).taken = q.taken ++ v.toList := by
  simp only [taken, answer, goto, List.filterMap_append]
  cases v <;> rfl

theorem Move.effect (h : Move q e r) (he : ∀ tid c, e ≠ .call tid c) : Effect q r := by
  have hrefl := SameThreads.refl q.threads
  cases h with
  | call => exact absurd rfl (he _ _)
  | @turn tid pc ht =>
    generalize hpc : q.threads tid = pc' at ht
    refine .quiet rfl rfl (hrefl.update hpc ?_ ?_ ?_)
    · cases ht <;> rfl
    · cases ht <;> rfl
    · cases ht <;> exact id
  | lockTail hpc | unlockTail hpc | count hpc | notifyNone hpc | stop hpc | lockHead hpc
  | block hpc => exact .quiet rfl rfl (hrefl.update hpc rfl rfl id)
  | late hpc =>
    refine .quiet ?_ rfl (hrefl.update hpc rfl rfl id)
    exact (pushed_record .nothing).trans (List.append_nil _)
  | link hpc hp =>
    obtain ⟨nodes, m_tail, rfl⟩ := pushTail_frame hp
    exact .linked hpc (pushed_record _) rfl rfl
  | fail hpc | failSteal hpc =>
    refine .answered (by rw [hpc]; rfl) ?_ (taken_answer none) rfl
    exact (pushed_record .nothing).trans (List.append_nil _)
  | giveUp hpc =>
    refine .answered ?_ rfl (taken_answer none) rfl
    rcases hpc with ⟨kind, hpc, -⟩ | ⟨hpc, -⟩ <;> rw [hpc] <;> rfl
  | @take tid v p hpc hp =>
    obtain ⟨nodes, m_head, rfl⟩ := popHead_frame hp
    refine .answered (by rw [hpc]; rfl) ?_ (taken_answer (some v)) rfl
    exact (pushed_record (.popFront v)).trans (List.append_nil _)
  | @steal tid v p hpc _ _ _ hp =>
    obtain ⟨nodes, m_tail, rfl⟩ := popTail_frame hp
    refine .answered (by rw [hpc]; rfl) ?_ (taken_answer (some v)) rfl
    exact (pushed_record (.popBack v)).trans (List.append_nil _)
  | @notifyOne tid w hpc _ =>
    have hpc' : (q.wakeOne w false).threads tid = .pushNotify := wakeOne_threads hpc rfl
    exact .quiet rfl rfl ((SameThreads.wakeOne w false).update hpc' rfl rfl nofun)
  | @notifyAll tid hpc =>
    have hpc' : q.wakeAll.threads tid = .exitNotify := wakeAll_threads hpc rfl
    exact .quiet rfl rfl (SameThreads.wakeAll.update hpc' rfl rfl nofun)
  | wake => exact .quiet rfl rfl (SameThreads.wakeOne _ _)

theorem Effect.isConsuming (h : Effect q r) (hr : (r.threads tid).isConsuming = true) :
    (q.threads tid).isConsuming = true := by
  cases h with
  | quiet _ _ hsame => exact hsame.isConsuming tid hr
  | linked _ _ _ hthreads =>
    rw [hthreads] at hr
    refine of_update (P := fun pc : Pc T => pc.isConsuming = true) ?_ hr
    exact Bool.false_ne_true
  | @answered t v hconsuming _ _ hthreads =>
    by_cases ht : tid = t
    · exact ht ▸ hconsuming
    · rwa [hthreads, Function.update_of_ne ht] at hr

theorem Effect.carried {v : T} (h : Effect q r) (hr : (r.threads tid).carried = some v) :
    (q.threads tid).carried = some v := by
  cases h with
  | quiet _ _ hsame => exact (hsame.carried tid).symm.trans hr
  | linked _ _ _ hthreads | answered _ _ _ hthreads =>
    rw [hthreads] at hr
    refine of_update (P := fun pc : Pc T => pc.carried = some v) ?_ hr
    exact (Option.some_ne_none v).symm

end

end NBRaft.Concurrency.ConcurrentQueue
