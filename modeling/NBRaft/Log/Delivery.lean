import NBRaft.Concurrency.QueueLoad
import NBRaft.Log.Shutdown

/-!
# The logger gets its work done

When nobody logs any more, the calls in progress and the worker come to an end, and then the
appenders have been passed all events up to the level, unless the worker has lost a wake-up of the
queue. The same holds of the destructor: it returns, unless it waits for a worker that has lost
one.
-/

namespace NBRaft.Log.AsyncLogger

open Concurrency Transition Threads

variable {n m : Nat} {α : Type}

/-- A step of the worker, or of a call in progress on the queue. -/
def Event.Inner : Event n α → Prop
  | .worker => True
  | .queue e => e.Inner
  | _ => False

/-- One of these, or a step of the destructor. -/
def Event.Closing : Event n α → Prop
  | .worker | .destructor => True
  | .queue e => e.Inner
  | .log .. => False

/-- The null pointer is in the queue, or is about to be. -/
def Destructor.hasCalledPush : Destructor → Bool
  | .pushing | .join | .returned => true
  | _ => false

/-- What the worker waits for comes, and tells it to stop only once. -/
structure Steady (l : AsyncLogger n m α) : Prop where
  inv : l.Inv
  sound : ∃ cells, l.m_queue.Sound cells
  awaits : l.worker = .popping → (l.m_queue.threads 0).awaits false = true
  done : l.worker = .done → l.m_isExit = true
  null : l.destructor.hasCalledPush = true →
    none ∈ l.m_queue.pushed ∨ (l.m_queue.threads 1).carried = some none
  found : none ∈ l.m_queue.taken →
    l.worker = .done ∨ l.worker = .popping ∧ (l.m_queue.threads 0).value = some none

theorem steady_initial {level : Level} : ({ m_level := level } : AsyncLogger n m α).Steady where
  inv := inv_initial
  sound := ⟨[], ConcurrentQueue.sound_initial⟩
  awaits := nofun
  done := nofun
  null := nofun
  found := nofun

section

variable {l r : AsyncLogger n m α} {e : Event n α}

theorem Move.awaits (h : Move l e r) (hl : l.Steady) (hr : r.worker = .popping) :
    (r.m_queue.threads 0).awaits false = true := by
  have hcall : ∀ {tid c q}, tid ≠ 0 → l.worker = .popping →
      l.m_queue.step (.call tid c) = some q → (q.threads 0).awaits false = true := by
    intro tid c q hne hw hq
    obtain ⟨-, rfl⟩ := ConcurrentQueue.call_eq hq
    simp only [ConcurrentQueue.goto, Function.update_of_ne hne.symm]
    exact hl.awaits hw
  cases h with
  | @log k _ _ _ hq => exact hcall (producer_ne_zero k) hr hq
  | push _ hq => exact hcall (by simp) hr hq
  | pop _ _ hq =>
    obtain ⟨-, rfl⟩ := ConcurrentQueue.call_eq hq
    simp only [ConcurrentQueue.goto, Function.update_self]
    rfl
  | leave | null | got | skip | append | next => cases hr
  | begin | exited | running | exchange | pushed | join => exact hl.awaits hr
  | queue he hq =>
    exact ConcurrentQueue.awaits_step hq he (by simp [hl.inv.sound.2.1.m_bstop]) (hl.awaits hr)

theorem Move.done (h : Move l e r) (hl : l.Steady) (hr : r.worker = .done) :
    r.m_isExit = true := by
  cases h with
  | leave _ hexit => exact hexit
  | null | exchange => rfl
  | pop | got | skip | append | next => cases hr
  | _ => exact hl.done hr

theorem Move.nullOnWay (h : Move l e r) (hl : l.Steady)
    (hr : r.destructor.hasCalledPush = true) :
    none ∈ r.m_queue.pushed ∨ (r.m_queue.threads 1).carried = some none := by
  cases h with
  | log hd =>
    rw [hd] at hr
    cases hr
  | pop _ _ hq =>
    obtain ⟨-, rfl⟩ := ConcurrentQueue.call_eq hq
    simp only [ConcurrentQueue.goto, Function.update_of_ne Nat.one_ne_zero]
    exact hl.null hr
  | push _ hq =>
    obtain ⟨-, rfl⟩ := ConcurrentQueue.call_eq hq
    simp only [ConcurrentQueue.goto, Function.update_self]
    exact .inr rfl
  | begin | running | exchange => cases hr
  | exited hd hexit =>
    have hset := hl.inv.exit.mp hexit
    rw [hd] at hset
    cases hset
  | pushed hd | join hd => exact hl.null (by rw [hd]; rfl)
  | queue he hq =>
    exact ((ConcurrentQueue.move_of_step hq).effect he).pushed_or_carried (hl.null hr)
  | leave | null | got | skip | append | next => exact hl.null hr

theorem Move.found (h : Move l e r) (hl : l.Steady) (hr : none ∈ r.m_queue.taken) :
    r.worker = .done ∨ r.worker = .popping ∧ (r.m_queue.threads 0).value = some none := by
  have hcall : ∀ {tid c q}, tid ≠ 0 → none ∈ l.m_queue.taken →
      l.m_queue.step (.call tid c) = some q →
        l.worker = .done ∨ l.worker = .popping ∧ (q.threads 0).value = some none := by
    intro tid c q hne hmem hq
    rw [ConcurrentQueue.value_of_call hq hne.symm]
    exact hl.found hmem
  cases h with
  | @log k _ q _ hq =>
    obtain ⟨-, rfl⟩ := ConcurrentQueue.call_eq hq
    exact hcall (producer_ne_zero k) hr hq
  | push _ hq =>
    obtain ⟨-, rfl⟩ := ConcurrentQueue.call_eq hq
    exact hcall (by simp) hr hq
  | pop hw _ hq =>
    obtain ⟨-, rfl⟩ := ConcurrentQueue.call_eq hq
    rcases hl.found hr with hdone | ⟨hpop, -⟩
    · cases hw.symm.trans hdone
    · cases hw.symm.trans hpop
  | leave | null => exact .inl rfl
  | got hw hpc | skip hw hpc =>
    rcases hl.found hr with hdone | ⟨-, hvalue⟩
    · cases hw.symm.trans hdone
    · rw [hpc] at hvalue
      cases hvalue
  | append hw | next hw =>
    rcases hl.found hr with hdone | ⟨hpop, -⟩
    · cases hw.symm.trans hdone
    · cases hw.symm.trans hpop
  | begin | exited | running | exchange | pushed | join => exact hl.found hr
  | queue he hq =>
    cases (ConcurrentQueue.move_of_step hq).effect he with
    | quiet _ htaken hsame =>
      rw [htaken] at hr
      exact (hl.found hr).imp_right fun ⟨hw, hv⟩ => ⟨hw, (hsame.value 0).trans hv⟩
    | linked hpc _ htaken hthreads =>
      rw [htaken] at hr
      exact (hl.found hr).imp_right fun ⟨hw, hv⟩ =>
        ⟨hw, (ConcurrentQueue.value_of_linked hpc hthreads 0).trans hv⟩
    | @answered tid v hconsuming _ htaken hthreads =>
      obtain ⟨rfl, hw⟩ := hl.inv.taker tid hconsuming
      rw [htaken, List.mem_append] at hr
      rcases hr with hr | hr
      · rcases hl.found hr with hdone | ⟨-, hvalue⟩
        · cases hw.symm.trans hdone
        · cases (ConcurrentQueue.Pc.value_of_isConsuming hconsuming).symm.trans hvalue
      · refine .inr ⟨hw, ?_⟩
        rw [hthreads, Function.update_self]
        exact Option.mem_toList.mp hr

theorem Move.steady (h : Move l e r) (hl : l.Steady) : r.Steady where
  inv := by
    classical
    exact h.inv hl.inv
  sound := by
    obtain ⟨cells, hcells⟩ := hl.sound
    rcases h.queue_cases with heq | ⟨e, hq, -, -⟩
    · exact ⟨cells, heq ▸ hcells⟩
    · exact (ConcurrentQueue.move_of_step hq).sound hcells
  awaits := h.awaits hl
  done := h.done hl
  null := h.nullOnWay hl
  found := h.found hl

/-! ## The steps come to an end -/

/-- The steps that the worker may take before it asks for another value, with `m` appenders and
with this value given to it. -/
def Worker.rank (m : Nat) (value : Option (Option (LogEvent α))) : Worker α → Nat
  | .test => 7
  | .popping => if value.isSome then m + 9 else 1
  | .logging _ i => m - i + 8
  | .done => 0

/-- The steps of the destructor, where a value in the queue counts for `w`. -/
def Destructor.rank (w : Nat) : Destructor → Nat
  | .returned => 0
  | .join => 1
  | .pushing => 2
  | .push => w + 13
  | .exchange => w + 14
  | .test => w + 15
  | .outside => w + 16

/-- All that is left to do. A value in the queue is one more round of the loop for the worker. -/
def toDo (calls : List Tid) (l : AsyncLogger n m α) : Nat :=
  l.m_queue.load (m + 9) calls + l.worker.rank m (l.m_queue.threads 0).value +
    l.destructor.rank (m + 9)

/-- The list names the threads that have called, the worker and the destructor. -/
structure Attends (calls : List Tid) (l : AsyncLogger n m α) : Prop where
  covered : Covered ConcurrentQueue.Pc.isBusy l.m_queue.threads calls
  worker : 0 ∈ calls
  destructor : 1 ∈ calls

variable {calls : List Tid}

/-- A step of a call in progress. What it gives to the worker it has taken from the queue. -/
theorem lowers_queue {q : ConcurrentQueue (Option (LogEvent α))}
    {e : ConcurrentQueue.Event (Option (LogEvent α))} (hq : l.m_queue.step e = some q)
    (he : e.Inner) (hl : l.Steady) (hcalls : l.Attends calls) :
    toDo (n := n) calls { l with m_queue := q } < l.toDo calls := by
  have hmove := ConcurrentQueue.move_of_step hq
  have hload : ∀ k, q.taken.length = l.m_queue.taken.length + k →
      q.load (m + 9) calls + (m + 9) * k < l.m_queue.load (m + 9) calls :=
    fun k hk => hmove.load_lt he hcalls.covered hl.sound hk
  -- nothing is given to the worker
  have hsame : (q.threads 0).value = (l.m_queue.threads 0).value →
      toDo (n := n) calls { l with m_queue := q } < l.toDo calls := by
    intro hvalue
    obtain ⟨k, hk⟩ := (hmove.effect he.ne_call).exists_taken_length
    have hlt := Nat.lt_of_le_of_lt (Nat.le_add_right ..) (hload k hk)
    simp only [toDo, hvalue]
    omega
  cases hmove.effect he.ne_call with
  | quiet _ _ hthreads => exact hsame (hthreads.value 0)
  | linked hpc _ _ hthreads => exact hsame (ConcurrentQueue.value_of_linked hpc hthreads 0)
  | @answered tid v hconsuming _ htaken hthreads =>
    obtain ⟨rfl, hw⟩ := hl.inv.taker tid hconsuming
    have hnone := ConcurrentQueue.Pc.value_of_isConsuming hconsuming
    have hvalue : (q.threads 0).value = v := by
      rw [hthreads, Function.update_self]
      rfl
    cases v with
    | none => exact hsame (hvalue.trans hnone.symm)
    | some v =>
      have hlt := hload 1 (by simp [htaken])
      simp only [toDo, hw, hvalue, hnone, Worker.rank, Option.isSome_some, Option.isSome_none,
        if_true, Bool.false_eq_true, if_false]
      omega

theorem Move.lowers (h : Move l e r) (he : e.Closing) (hl : l.Steady)
    (hcalls : l.Attends calls) : r.toDo calls < l.toDo calls := by
  cases h with
  | log => cases he
  | pop hw _ hq =>
    have hload : _ = _ + 5 + (m + 9) * 0 :=
      ConcurrentQueue.load_call hq hcalls.covered hcalls.worker
    have hvalue := ConcurrentQueue.value_of_pop hq
    simp only [toDo, hload, hw, hvalue, Worker.rank, Option.isSome_none, Bool.false_eq_true,
      if_false]
    omega
  | push hd hq =>
    have hload : _ = _ + 10 + (m + 9) * 1 :=
      ConcurrentQueue.load_call hq hcalls.covered hcalls.destructor
    have hvalue := ConcurrentQueue.value_of_call hq (t := 0) nofun
    simp only [toDo, hload, hd, hvalue, Destructor.rank]
    omega
  | leave hw | next hw =>
    simp only [toDo, hw, Worker.rank]
    omega
  | null hw hpc | got hw hpc | skip hw hpc =>
    simp only [toDo, hw, hpc, Worker.rank, ConcurrentQueue.Pc.value, Option.isSome_some, if_true]
    omega
  | @append event i hw =>
    have hi := i.isLt
    simp only [toDo, hw, Worker.rank]
    omega
  | begin hd | exited hd | running hd | exchange hd | pushed hd | join hd =>
    simp only [toDo, hd, Destructor.rank]
    omega
  | queue _ hq => exact lowers_queue hq he hl hcalls

theorem Move.attends (h : Move l e r) (he : e.Closing) (hcalls : l.Attends calls) :
    r.Attends calls := by
  refine ⟨?_, hcalls.worker, hcalls.destructor⟩
  cases h with
  | log => cases he
  | pop _ _ hq =>
    obtain ⟨-, rfl⟩ := ConcurrentQueue.call_eq hq
    exact hcalls.covered.update_of_mem hcalls.worker
  | push _ hq =>
    obtain ⟨-, rfl⟩ := ConcurrentQueue.call_eq hq
    exact hcalls.covered.update_of_mem hcalls.destructor
  | queue he' hq => exact (ConcurrentQueue.move_of_step hq).covered he' hcalls.covered
  | _ => exact hcalls.covered

theorem descends (calls : List Tid) : Descends (step (n := n) (m := m) (α := α)) Event.Closing
    (fun l => l.Steady ∧ l.Attends calls) (toDo calls) where
  keeps _ _ _ hst he hl := ⟨(move_of_step hst).steady hl.1, (move_of_step hst).attends he hl.2⟩
  lowers _ _ _ hst he hl := (move_of_step hst).lowers he hl.1 hl.2

/-- Finitely many threads have called. -/
theorem exists_attends {level : Level} {es : List (Event n α)}
    (h : run step { m_level := level } es = some l) : ∃ calls, l.Attends calls := by
  obtain ⟨calls, hcalls⟩ : ∃ calls,
      Covered ConcurrentQueue.Pc.isBusy l.m_queue.threads calls := by
    refine run_preserves (I := fun l : AsyncLogger n m α =>
      ∃ calls, Covered ConcurrentQueue.Pc.isBusy l.m_queue.threads calls) ?_ h
      ⟨[], List.nodup_nil, nofun⟩
    rintro l e r hst ⟨calls, hcalls⟩
    cases move_of_step hst with
    | log _ hq | pop _ _ hq | push _ hq =>
      obtain ⟨-, rfl⟩ := ConcurrentQueue.call_eq hq
      exact hcalls.exists_update _ _
    | queue he hq => exact ⟨calls, (ConcurrentQueue.move_of_step hq).covered he hcalls⟩
    | _ => exact ⟨calls, hcalls⟩
  obtain ⟨calls', hnodup, hsub, hmem⟩ := exists_nodup calls [0, 1]
  exact ⟨calls', hcalls.superset hnodup hsub, hmem 0 (by simp), hmem 1 (by simp)⟩

/-! ## Where they come to an end -/

theorem quiet_queue (h : Quiet step Event.Inner l) :
    Quiet ConcurrentQueue.step ConcurrentQueue.Event.Inner l.m_queue := by
  intro e he
  have hnone := h (.queue e) he
  cases e with
  | call => cases he
  | _ =>
    simp only [step, Option.bind_eq_bind, Option.bind_eq_none_iff] at hnone
    exact Option.eq_none_iff_forall_ne_some.mpr fun q hq => by cases hnone q hq

/-- All threads but the worker are outside the queue. -/
theorem Steady.isIdle (hl : l.Steady) (hquiet : Quiet step Event.Inner l) {tid : Tid}
    (htid : tid ≠ 0) : (l.m_queue.threads tid).isIdle = true := by
  obtain ⟨cells, hs⟩ := hl.sound
  refine (hs.rests (quiet_queue hquiet) tid).resolve_right fun hblocked => ?_
  exact htid (hl.inv.taker tid (ConcurrentQueue.Pc.isConsuming_of_isBlocked hblocked)).1

/-- The worker waits for a value. -/
theorem Steady.blocked (hl : l.Steady) (hquiet : Quiet step Event.Inner l)
    (hw : l.worker ≠ .done) :
    l.worker = .popping ∧ (l.m_queue.threads 0).isBlocked = true := by
  obtain ⟨cells, hs⟩ := hl.sound
  have hrest := hs.rests (quiet_queue hquiet) 0
  have hstuck : l.threadFunc l.worker = none := hquiet .worker trivial
  cases hworker : l.worker with
  | test =>
    rw [hworker] at hstuck
    rcases hrest with hidle | hblocked
    · simp only [threadFunc, ConcurrentQueue.step, hidle, if_true] at hstuck
      split_ifs at hstuck
      cases hstuck
    · have hpop := (hl.inv.taker 0 (ConcurrentQueue.Pc.isConsuming_of_isBlocked hblocked)).2
      cases hworker.symm.trans hpop
  | popping =>
    refine ⟨rfl, hrest.resolve_left fun hidle => ?_⟩
    have hawaits := hl.awaits hworker
    rw [hworker] at hstuck
    cases hpc : l.m_queue.threads 0 with
    | returned v =>
      rw [hpc] at hawaits
      obtain ⟨value, rfl⟩ : ∃ value, v = some value := by
        simpa [ConcurrentQueue.Pc.awaits, Option.isSome_iff_exists] using hawaits
      cases value <;> simp [threadFunc, hpc] at hstuck
    | _ => simp_all [ConcurrentQueue.Pc.isIdle, ConcurrentQueue.Pc.awaits]
  | logging event i =>
    rw [hworker] at hstuck
    simp only [threadFunc] at hstuck
    split_ifs at hstuck
  | done => exact absurd hworker hw

/-- Where the worker waits, there is nothing to wait for, or it has lost a wake-up. -/
theorem Steady.taken_or_lostWakeup (hl : l.Steady) (hquiet : Quiet step Event.Inner l)
    (hw : l.worker ≠ .done) :
    l.m_queue.taken = l.m_queue.pushed ∨ l.m_queue.LostWakeup 0 := by
  obtain ⟨cells, hs⟩ := hl.sound
  by_cases hcells : cells = []
  · left
    have hlen := hs.pushed_length
    have hpushed := hl.inv.pushed_eq
    have hempty : l.contents = [] := by
      apply List.eq_nil_of_length_eq_zero
      have hsplit := congrArg List.length hpushed
      rw [List.length_append] at hsplit
      simp only [hcells, List.length_nil] at hlen
      omega
    rw [hpushed, hempty, List.append_nil]
  · exact .inr (hs.lostWakeup (quiet_queue hquiet) (hl.blocked hquiet hw).2
      (.inl (hs.holds.empty_iff.not.mpr hcells)))

/-- Where all calls of `log` have returned, every logged event has entered the queue. -/
theorem Accounted.perm_of_isIdle [DecidableEq α] (h : l.Accounted)
    (hidle : ∀ k : Fin n, (l.m_queue.threads (producer k)).isIdle = true) :
    (l.m_queue.pushed.filterMap id).Perm l.logged := by
  rw [List.perm_iff_count]
  intro event
  have hzero : ∀ k : Fin n,
      (l.m_queue.threads (producer k)).carried.toList.count (some event) = 0 := by
    intro k
    rw [ConcurrentQueue.Pc.carried_of_isIdle (hidle k)]
    rfl
  rw [← h event, Finset.sum_eq_zero fun k _ => hzero k, Nat.add_zero]
  exact List.count_filterMap

/-- Before the destructor begins the worker does not stop. -/
theorem Steady.worker_ne_done (hl : l.Steady) (hd : l.destructor = .outside) :
    l.worker ≠ .done := by
  intro hw
  have hset := hl.inv.exit.mp (hl.done hw)
  rw [hd] at hset
  cases hset

theorem Steady.passedOn (hl : l.Steady) (haccounted : ∀ [DecidableEq α], l.Accounted)
    (hquiet : Quiet step Event.Inner l) (hd : l.destructor = .outside) :
    l.PassedOn ∨ l.m_queue.LostWakeup 0 := by
  have hdone := hl.worker_ne_done hd
  obtain ⟨hw, hblocked⟩ := hl.blocked hquiet hdone
  refine (hl.taken_or_lostWakeup hquiet hdone).imp_left fun htaken => ⟨?_, fun i => ?_⟩
  · classical
    exact haccounted.perm_of_isIdle fun k => hl.isIdle hquiet (producer_ne_zero k)
  · have howed : l.owed i = [] := by
      have hnone := ConcurrentQueue.Pc.value_of_isConsuming
        (ConcurrentQueue.Pc.isConsuming_of_isBlocked hblocked)
      simp [owed, hw, hnone, loggable]
    have happended := hl.inv.appended i
    rwa [howed, List.append_nil, htaken] at happended

theorem Steady.returned_iff (hl : l.Steady) (hquiet : Quiet step Event.Closing l) :
    l.destructor = .returned ↔ ¬ l.m_queue.LostWakeup 0 := by
  have hinner : Quiet step Event.Inner l := by
    intro e he
    cases e with
    | log | destructor => cases he
    | worker | queue => exact hquiet _ he
  have hstuck : l.destructorStep l.destructor = none := hquiet .destructor trivial
  constructor
  · intro hd hlost
    have hw := (hl.inv.taker 0 (ConcurrentQueue.Pc.isConsuming_of_isBlocked hlost.blocked)).2
    cases hw.symm.trans (hl.inv.joined hd)
  · intro hlost
    have hidle : ∀ k : Fin n, (l.m_queue.threads (producer k)).isIdle = true :=
      fun k => hl.isIdle hinner (producer_ne_zero k)
    have hidle' : (l.m_queue.threads 1).isIdle = true := hl.isIdle hinner (by simp)
    cases hd : l.destructor with
    | returned => rfl
    | join =>
      have hw : l.worker ≠ .done := by
        intro hw
        simp [hd, destructorStep, hw] at hstuck
      have htaken := (hl.taken_or_lostWakeup hinner hw).resolve_right hlost
      have hmem : none ∈ l.m_queue.taken := by
        rw [htaken]
        refine (hl.null (by rw [hd]; rfl)).resolve_right fun hcarried => ?_
        cases (ConcurrentQueue.Pc.carried_of_isIdle hidle').symm.trans hcarried
      have hblocked := (hl.blocked hinner hw).2
      have hnone := ConcurrentQueue.Pc.value_of_isConsuming
        (ConcurrentQueue.Pc.isConsuming_of_isBlocked hblocked)
      rcases hl.found hmem with hdone | ⟨-, hvalue⟩
      · exact absurd hdone hw
      · cases hnone.symm.trans hvalue
    | _ => simp [hd, destructorStep, ConcurrentQueue.step, hidle, hidle'] at hstuck

theorem steady_run {level : Level} {es : List (Event n α)}
    (h : run step { m_level := level } es = some l) : l.Steady :=
  run_preserves (fun _ _ _ hst hl => (move_of_step hst).steady hl) h steady_initial

theorem accounted_run [DecidableEq α] {level : Level} {es : List (Event n α)}
    (h : run step { m_level := level } es = some l) : l.Accounted := by
  have hl : l.Inv ∧ l.Accounted :=
    run_preserves (I := fun l => l.Inv ∧ l.Accounted)
      (fun _ _ _ hst hl => ⟨(move_of_step hst).inv hl.1, (move_of_step hst).accounted hl.1 hl.2⟩)
      h ⟨inv_initial, accounted_initial⟩
  exact hl.2

/-- Inner steps neither log nor begin to destruct. -/
theorem Move.keeps_outside (h : Move l e r) (he : e.Inner) :
    r.logged = l.logged ∧ r.destructor = l.destructor := by
  cases h with
  | log | begin | exited | running | exchange | push | pushed | join => cases he
  | _ => exact ⟨rfl, rfl⟩

theorem Event.Inner.closing (he : e.Inner) : e.Closing := by
  cases e with
  | log | destructor => cases he
  | worker | queue => exact he

/-- From wherever the logger is before its destructor begins: when nobody logs any more, the worker
and the calls in progress take no more steps than some bound, they can always go on to where they
take none, and there the appenders have been passed every event up to the level, unless the
worker has lost a wake-up. -/
theorem logged_delivered {level : Level} {es : List (Event n α)}
    (h : run step { m_level := level } es = some l) (hd : l.destructor = .outside) :
    (∃ bound, ∀ fs r, run step l fs = some r → (∀ e ∈ fs, e.Inner) → fs.length ≤ bound) ∧
      (∃ fs r, run step l fs = some r ∧ (∀ e ∈ fs, e.Inner) ∧ Quiet step Event.Inner r) ∧
      ∀ fs r, run step l fs = some r → (∀ e ∈ fs, e.Inner) → Quiet step Event.Inner r →
        r.logged = l.logged ∧ (r.PassedOn ∨ r.m_queue.LostWakeup 0) := by
  have hl := steady_run h
  obtain ⟨calls, hcalls⟩ := exists_attends h
  have hdesc := (descends (n := n) (m := m) (α := α) calls).mono fun e he =>
    Event.Inner.closing he
  obtain ⟨hbound, hquiet⟩ := hdesc.ends ⟨hl, hcalls⟩
  refine ⟨hbound, hquiet, fun fs r hrun hfs hquiet => ?_⟩
  have hreach : run step ({ m_level := level } : AsyncLogger n m α) (es ++ fs) = some r :=
    run_append_eq_some.mpr ⟨l, h, hrun⟩
  have hsame : r.logged = l.logged ∧ r.destructor = l.destructor := by
    refine run_preserves_of_forall
      (I := fun r => r.logged = l.logged ∧ r.destructor = l.destructor) ?_ hrun hfs ⟨rfl, rfl⟩
    intro r e r' hst he hr
    obtain ⟨hlogged, hdestructor⟩ := (move_of_step hst).keeps_outside he
    exact ⟨hlogged.trans hr.1, hdestructor.trans hr.2⟩
  exact ⟨hsame.1, (steady_run hreach).passedOn (accounted_run hreach) hquiet (hsame.2.trans hd)⟩

/-- One event is in the queue, and another on its way to it. -/
theorem logged_delivered_two : ∃ (l r : AsyncLogger 2 1 Nat) (fs : List (Event 2 Nat)),
    run step { m_level := .INFO } [.worker, .log 0 ⟨.WARN, 7⟩, .queue (.advance 2),
      .queue (.link 2 10), .log 1 ⟨.ERRO, 8⟩] = some l ∧
    run step l fs = some r ∧ r.logged = [⟨.WARN, 7⟩, ⟨.ERRO, 8⟩] ∧
    (r.PassedOn ∨ r.m_queue.LostWakeup 0) := by
  have h : run step ({ m_level := .INFO } : AsyncLogger 2 1 Nat) [.worker, .log 0 ⟨.WARN, 7⟩,
      .queue (.advance 2), .queue (.link 2 10), .log 1 ⟨.ERRO, 8⟩] = some _ := rfl
  obtain ⟨-, ⟨fs, r, hrun, hfs, hquiet⟩, hall⟩ := logged_delivered h rfl
  exact ⟨_, r, fs, h, hrun, hall fs r hrun hfs hquiet⟩

/-- With the destructor: also its steps come to an end, and then it has returned, unless the worker
has lost a wake-up. -/
theorem destructor_returns {level : Level} {es : List (Event n α)}
    (h : run step ({ m_level := level } : AsyncLogger n m α) es = some l) :
    (∃ bound, ∀ fs r, run step l fs = some r → (∀ e ∈ fs, e.Closing) → fs.length ≤ bound) ∧
      (∃ fs r, run step l fs = some r ∧ (∀ e ∈ fs, e.Closing) ∧ Quiet step Event.Closing r) ∧
      ∀ fs r, run step l fs = some r → (∀ e ∈ fs, e.Closing) → Quiet step Event.Closing r →
        (r.destructor = .returned ↔ ¬ r.m_queue.LostWakeup 0) := by
  have hl := steady_run h
  obtain ⟨calls, hcalls⟩ := exists_attends h
  have hdesc := descends (n := n) (m := m) (α := α) calls
  obtain ⟨hbound, hquiet⟩ := hdesc.ends ⟨hl, hcalls⟩
  refine ⟨hbound, hquiet, fun fs r hrun hfs hquiet => ?_⟩
  exact (hdesc.of_run hrun hfs ⟨hl, hcalls⟩).1.returned_iff hquiet

/-- The destructor begins while the worker waits. -/
theorem destructor_returns_waiting : ∃ (l r : AsyncLogger 1 1 Nat) (fs : List (Event 1 Nat)),
    run step { m_level := .INFO } [.worker, .queue (.advance 0), .queue (.advance 0),
      .queue (.advance 0), .queue (.advance 0), .destructor, .destructor] = some l ∧
    (l.m_queue.threads 0).isBlocked = true ∧ run step l fs = some r ∧
    (r.destructor = .returned ↔ ¬ r.m_queue.LostWakeup 0) := by
  have h : run step ({ m_level := .INFO } : AsyncLogger 1 1 Nat) [.worker, .queue (.advance 0),
      .queue (.advance 0), .queue (.advance 0), .queue (.advance 0), .destructor,
      .destructor] = some _ := rfl
  obtain ⟨-, ⟨fs, r, hrun, hfs, hquiet⟩, hall⟩ := destructor_returns h
  exact ⟨_, r, fs, h, rfl, hrun, hall fs r hrun hfs hquiet⟩

end

end NBRaft.Log.AsyncLogger
