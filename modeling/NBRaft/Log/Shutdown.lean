import NBRaft.Library.Bag
import NBRaft.Log.AsyncLogger

/-!
# Events left behind by the logger

The worker tests `m_isExit` before each pop, and the destructor sets it before it pushes the null
pointer that tells the worker where the queue ends. Once it is set, a worker that is in
`wait_and_pop` takes one more value, and a worker that is not takes none.
-/

namespace NBRaft.Log.AsyncLogger

open Concurrency Transition

variable {n m : Nat} {α : Type}

/-- The events among these values that are up to the level. -/
def loggable (level : Level) (values : List (Option (LogEvent α))) : List (LogEvent α) :=
  (values.filterMap id).filter (·.m_level ≤ level)

/-- The logged events have entered the queue, and every appender has been passed those up to
`m_level`, each of them once, in the order of the queue. -/
def PassedOn (l : AsyncLogger n m α) : Prop :=
  (l.m_queue.pushed.filterMap id).Perm l.logged ∧
    ∀ i, l.appended i = loggable l.m_level l.m_queue.pushed

/-- What is in the queue, front first. -/
def contents (l : AsyncLogger n m α) : List (Option (LogEvent α)) :=
  l.m_queue.pushed.drop l.m_queue.taken.length

/-- How many values the worker still takes once `m_isExit` is set: one if it is in `wait_and_pop`
and has been given none. -/
def reach (l : AsyncLogger n m α) : Nat :=
  match l.worker, (l.m_queue.threads 0).value with
  | .popping, none => 1
  | _, _ => 0

/-- Of the events up to `m_level` none is in the queue behind what the worker will take. -/
def WithinReach (l : AsyncLogger n m α) : Prop :=
  ∀ event, some event ∈ l.contents.drop l.reach → ¬ event.m_level ≤ l.m_level

/-- Where the destructor sets `m_isExit`, the worker reaches every event that an appender is to
be passed. -/
def ExitsInTime (l : AsyncLogger n m α) : Event n α → Prop
  | .destructor => l.destructor = .exchange → 0 < m → l.WithinReach
  | _ => True

/-! ## Where an event is -/

def Destructor.hasSetExit : Destructor → Bool
  | .push | .pushing | .join | .returned => true
  | _ => false

/-- What the worker has taken from the queue, and not passed to the appender yet. -/
def owed (l : AsyncLogger n m α) (i : Fin m) : List (LogEvent α) :=
  match l.worker with
  | .popping => loggable l.m_level (l.m_queue.threads 0).value.toList
  | .logging event j => if j ≤ i then [event] else []
  | _ => []

/-- A logged event has entered the queue, or is carried by the call that logs it. -/
def Accounted [DecidableEq α] (l : AsyncLogger n m α) : Prop :=
  ∀ event, l.m_queue.pushed.count (some event) +
    (∑ k : Fin n, (l.m_queue.threads (producer k)).carried.toList.count (some event)) =
      l.logged.count event

structure Inv (l : AsyncLogger n m α) : Prop where
  sound : l.m_queue.Controlled ∧ l.m_queue.Open ∧ ∃ cells, l.m_queue.Refines cells
  inOrder : l.m_queue.InOrder
  /-- Only the worker takes from the queue. -/
  taker : ∀ tid, (l.m_queue.threads tid).isConsuming = true → tid = 0 ∧ l.worker = .popping
  /-- Only calls of `log` push events, and there are none when the destructor has begun. -/
  giver : ∀ tid event, (l.m_queue.threads tid).carried = some (some event) →
    l.destructor = .outside ∧ ∃ k : Fin n, tid = producer k
  carriedNull : ∀ tid, (l.m_queue.threads tid).carried = some none → l.m_isExit = true
  pushedNull : none ∈ l.m_queue.pushed → l.m_isExit = true
  popped : l.worker = .popping → ∀ v, (l.m_queue.threads 0).value = some v →
    v ∈ l.m_queue.taken
  exit : l.m_isExit = true ↔ l.destructor.hasSetExit = true
  joined : l.destructor = .returned → l.worker = .done
  appended : ∀ i, l.appended i ++ l.owed i = loggable l.m_level l.m_queue.taken

section

variable {l r : AsyncLogger n m α} {e : Event n α} {level : Level}
  {vs ws : List (Option (LogEvent α))}

@[simp] theorem loggable_append :
    loggable level (vs ++ ws) = loggable level vs ++ loggable level ws := by
  simp [loggable]

theorem loggable_eq_nil_iff :
    loggable level vs = [] ↔ ∀ event, some event ∈ vs → ¬ event.m_level ≤ level := by
  simp [loggable]

theorem inv_initial : ({ m_level := level } : AsyncLogger n m α).Inv where
  sound := ⟨ConcurrentQueue.controlled_initial, ⟨rfl, fun _ => rfl⟩, [],
    ConcurrentQueue.refines_initial⟩
  inOrder := ConcurrentQueue.inOrder_initial
  taker := nofun
  giver := nofun
  carriedNull := nofun
  pushedNull := nofun
  popped := nofun
  exit := by simp [Destructor.hasSetExit]
  joined := nofun
  appended := fun _ => rfl

theorem Inv.pushed_eq (h : l.Inv) : l.m_queue.pushed = l.m_queue.taken ++ l.contents := by
  obtain ⟨-, -, cells, hcells⟩ := h.sound
  have hpushed := hcells.pushed_eq h.inOrder
  rw [contents, hpushed, List.drop_left]

/-- A step leaves the queue as it is, or takes it a step that is neither `Exit` nor a steal. -/
theorem Move.queue_cases (h : Move l e r) : r.m_queue = l.m_queue ∨
    ∃ e, l.m_queue.step e = some r.m_queue ∧ (∀ tid, e ≠ .call tid .exit) ∧
      ∀ tid, e ≠ .call tid .trySteal := by
  cases h with
  | log _ hq | pop _ _ hq | push _ hq => exact .inr ⟨_, hq, nofun, nofun⟩
  | queue he hq => exact .inr ⟨_, hq, fun tid => he tid _, fun tid => he tid _⟩
  | _ => exact .inl rfl

theorem Move.sound (h : Move l e r) (hl : l.Inv) :
    r.m_queue.Controlled ∧ r.m_queue.Open ∧ ∃ cells, r.m_queue.Refines cells := by
  rcases h.queue_cases with heq | ⟨e, hq, hexit, -⟩
  · rw [heq]
    exact hl.sound
  · exact ConcurrentQueue.step_refines hq hexit hl.sound

theorem Move.inOrder (h : Move l e r) (hl : l.Inv) : r.m_queue.InOrder := by
  rcases h.queue_cases with heq | ⟨e, hq, -, hsteal⟩
  · rw [heq]
    exact hl.inOrder
  · exact (ConcurrentQueue.move_of_step hq).inOrder hsteal hl.inOrder

theorem Move.m_isExit_mono (h : Move l e r) (hexit : l.m_isExit = true) : r.m_isExit = true := by
  cases h with
  | null | exchange => rfl
  | _ => exact hexit

/-- The null pointer that the worker finds was pushed by the destructor. -/
theorem Inv.m_isExit_of_null (hl : l.Inv) (hw : l.worker = .popping)
    (hpc : l.m_queue.threads 0 = .returned (some none)) : l.m_isExit = true := by
  apply hl.pushedNull
  rw [hl.pushed_eq]
  apply List.mem_append_left
  apply hl.popped hw
  rw [hpc]
  rfl

theorem Move.exit (h : Move l e r) (hl : l.Inv) :
    r.m_isExit = true ↔ r.destructor.hasSetExit = true := by
  have hexit := hl.exit
  cases h with
  | null hw hpc => exact iff_of_true rfl (hexit.mp (hl.m_isExit_of_null hw hpc))
  | exchange => exact iff_of_true rfl rfl
  | exited hd hset =>
    rw [hd] at hexit
    cases hexit.mp hset
  | begin hd | running hd | push hd | pushed hd | join hd =>
    rw [hd] at hexit
    exact hexit
  | _ => exact hexit

theorem Move.joined (h : Move l e r) (hl : l.Inv) (hr : r.destructor = .returned) :
    r.worker = .done := by
  cases h with
  | join _ hw => exact hw
  | begin | exited | running | exchange | push | pushed => cases hr
  | leave | null => rfl
  | pop hw | got hw | skip hw | append hw | next hw =>
    have hdone := hl.joined hr
    rw [hw] at hdone
    cases hdone
  | log | queue => exact hl.joined hr

/-! ### Who takes and who gives -/

theorem producer_ne_zero (k : Fin n) : producer k ≠ 0 := Nat.succ_ne_zero _

theorem Move.taker (h : Move l e r) (hl : l.Inv) :
    ∀ tid, (r.m_queue.threads tid).isConsuming = true → tid = 0 ∧ r.worker = .popping := by
  -- nobody is popping while the worker is elsewhere
  have hidle : l.worker ≠ .popping → ∀ tid, (l.m_queue.threads tid).isConsuming ≠ true :=
    fun hw tid htid => hw (hl.taker tid htid).2
  intro tid htid
  cases h with
  | log _ hq | push _ hq =>
    rcases ConcurrentQueue.isConsuming_of_call hq htid with ⟨-, hc⟩ | hold
    · cases hc
    · exact hl.taker tid hold
  | pop hw _ hq =>
    rcases ConcurrentQueue.isConsuming_of_call hq htid with ⟨ht, -⟩ | hold
    · exact ⟨ht, rfl⟩
    · exact absurd hold (hidle (by simp [hw]) tid)
  | leave hw | append hw | next hw => exact absurd htid (hidle (by simp [hw]) tid)
  | null hw hpc | got hw hpc | skip hw hpc =>
    obtain ⟨rfl, -⟩ := hl.taker tid htid
    change (l.m_queue.threads 0).isConsuming = true at htid
    rw [hpc] at htid
    cases htid
  | queue he hq =>
    exact hl.taker tid (((ConcurrentQueue.move_of_step hq).effect he).isConsuming htid)
  | begin | exited | running | exchange | pushed | join => exact hl.taker tid htid

theorem Move.giver (h : Move l e r) (hl : l.Inv) : ∀ tid event,
    (r.m_queue.threads tid).carried = some (some event) →
      r.destructor = .outside ∧ ∃ k : Fin n, tid = producer k := by
  intro tid event hcarried
  cases h with
  | @log k _ _ hd hq =>
    rcases ConcurrentQueue.carried_of_call hq hcarried with ⟨rfl, -⟩ | hcarried
    · exact ⟨hd, k, rfl⟩
    · exact hl.giver tid event hcarried
  | pop _ _ hq =>
    rcases ConcurrentQueue.carried_of_call hq hcarried with ⟨-, hc⟩ | hcarried
    · cases hc
    · exact hl.giver tid event hcarried
  | push hd hq =>
    rcases ConcurrentQueue.carried_of_call hq hcarried with ⟨-, hc⟩ | hcarried
    · cases hc
    · have hout := (hl.giver tid event hcarried).1
      rw [hd] at hout
      cases hout
  | begin hd hidle =>
    obtain ⟨-, k, rfl⟩ := hl.giver tid event hcarried
    have hnone := ConcurrentQueue.Pc.carried_of_isIdle (hidle k)
    cases hnone.symm.trans hcarried
  | exited hd | running hd | exchange hd | pushed hd | join hd =>
    have hout := (hl.giver tid event hcarried).1
    rw [hd] at hout
    cases hout
  | queue he hq =>
    exact hl.giver tid event (((ConcurrentQueue.move_of_step hq).effect he).carried hcarried)
  | leave | null | got | skip | append | next => exact hl.giver tid event hcarried

theorem Move.carriedNull (h : Move l e r) (hl : l.Inv) : ∀ tid,
    (r.m_queue.threads tid).carried = some none → r.m_isExit = true := by
  intro tid hcarried
  cases h with
  | log _ hq | pop _ _ hq =>
    rcases ConcurrentQueue.carried_of_call hq hcarried with ⟨-, hc⟩ | hcarried
    · cases hc
    · exact hl.carriedNull tid hcarried
  | push hd hq => exact hl.exit.mpr (by rw [hd]; rfl)
  | queue he hq =>
    exact hl.carriedNull tid (((ConcurrentQueue.move_of_step hq).effect he).carried hcarried)
  | null | exchange => rfl
  | _ => exact hl.carriedNull tid hcarried

theorem Move.pushedNull (h : Move l e r) (hl : l.Inv) (hmem : none ∈ r.m_queue.pushed) :
    r.m_isExit = true := by
  cases h with
  | log _ hq | pop _ _ hq | push _ hq =>
    obtain ⟨-, rfl⟩ := ConcurrentQueue.call_eq hq
    exact hl.pushedNull hmem
  | queue he hq =>
    cases (ConcurrentQueue.move_of_step hq).effect he with
    | quiet hpushed | answered _ hpushed =>
      rw [hpushed] at hmem
      exact hl.pushedNull hmem
    | @linked tid v hpc hpushed =>
      rw [hpushed, List.mem_append, List.mem_singleton] at hmem
      rcases hmem with hmem | rfl
      · exact hl.pushedNull hmem
      · exact hl.carriedNull tid (by rw [hpc]; rfl)
  | null | exchange => rfl
  | _ => exact hl.pushedNull hmem

theorem producer_inj {k k' : Fin n} (h : producer k = producer k') : k = k' := by
  simp only [producer, Nat.add_right_cancel_iff] at h
  exact Fin.ext h

variable [DecidableEq α] {q : ConcurrentQueue (Option (LogEvent α))}
  (pc : ConcurrentQueue.Pc (Option (LogEvent α)))

/-- One of the threads that log goes on. -/
theorem sum_carried_producer (k : Fin n) (event : LogEvent α) :
    (∑ j : Fin n, (Function.update q.threads (producer k) pc (producer j)).carried.toList.count
        (some event)) + (q.threads (producer k)).carried.toList.count (some event) =
      (∑ j : Fin n, (q.threads (producer j)).carried.toList.count (some event)) +
        pc.carried.toList.count (some event) := by
  have h := Bag.sum_change
    (f := fun j : Fin n => (Function.update q.threads (producer k) pc
      (producer j)).carried.toList.count (some event))
    (g := fun j => (q.threads (producer j)).carried.toList.count (some event)) k fun j hj => by
      simp only [Function.update_of_ne fun h => hj (producer_inj h)]
  simpa only [Function.update_self] using h

/-- A thread goes on, and what it carries of this event stays the same. -/
theorem sum_carried_update (tid : Tid) {event : LogEvent α}
    (h : pc.carried.toList.count (some event) =
      (q.threads tid).carried.toList.count (some event)) :
    (∑ j : Fin n, (Function.update q.threads tid pc (producer j)).carried.toList.count
        (some event)) = ∑ j : Fin n, (q.threads (producer j)).carried.toList.count (some event) :=
  Finset.sum_congr rfl fun j _ =>
    Threads.map_update (f := fun pc : ConcurrentQueue.Pc (Option (LogEvent α)) =>
      pc.carried.toList.count (some event)) h (producer j)

theorem Move.accounted (h : Move l e r) (hl : l.Inv) (haccounted : l.Accounted) :
    r.Accounted := by
  intro event
  have hevent := haccounted event
  cases h with
  | @log k event' _ _ hq =>
    obtain ⟨hidle, rfl⟩ := ConcurrentQueue.call_eq hq
    have hsum := sum_carried_producer (q := l.m_queue)
      (ConcurrentQueue.enter (.push (some event'))) k event
    rw [ConcurrentQueue.Pc.carried_of_isIdle hidle] at hsum
    change _ + (∑ j : Fin n, (Function.update l.m_queue.threads (producer k) _
      (producer j)).carried.toList.count (some event)) = (l.logged ++ [event']).count event
    have hcarried : (ConcurrentQueue.enter (.push (some event'))).carried.toList.count
        (some event) = [event'].count event := by
      simp [ConcurrentQueue.enter, ConcurrentQueue.Pc.carried, List.count_singleton]
    rw [List.count_append, ← hevent, ← hcarried]
    simp only [Option.toList_none, List.count_nil] at hsum
    rw [Nat.add_assoc, ← hsum]
    rfl
  | pop _ _ hq =>
    obtain ⟨hidle, rfl⟩ := ConcurrentQueue.call_eq hq
    have hnone := ConcurrentQueue.Pc.carried_of_isIdle hidle
    rw [← sum_carried_update (ConcurrentQueue.enter (.pop .waitAndPop)) 0
      (by rw [hnone]; rfl)] at hevent
    exact hevent
  | push _ hq =>
    obtain ⟨hidle, rfl⟩ := ConcurrentQueue.call_eq hq
    have hnone := ConcurrentQueue.Pc.carried_of_isIdle hidle
    rw [← sum_carried_update (ConcurrentQueue.enter (.push none)) 1
      (by rw [hnone]; rfl)] at hevent
    exact hevent
  | @queue _ q he hq =>
    change q.pushed.count _ + (∑ j : Fin n, (q.threads (producer j)).carried.toList.count _) = _
    cases (ConcurrentQueue.move_of_step hq).effect he with
    | quiet hpushed _ hthreads =>
      simp only [hpushed, hthreads.carried]
      exact hevent
    | @answered tid v hconsuming hpushed _ hthreads =>
      have hnone := ConcurrentQueue.Pc.carried_of_isConsuming hconsuming
      rw [hpushed, hthreads, sum_carried_update _ _ (by rw [hnone]; rfl)]
      exact hevent
    | @linked tid v hpc hpushed _ hthreads =>
      rw [hpushed, hthreads, List.count_append]
      cases v with
      | none =>
        rw [sum_carried_update _ _ (by rw [hpc]; rfl)]
        exact hevent
      | some event' =>
        obtain ⟨-, k, rfl⟩ := hl.giver tid event' (by rw [hpc]; rfl)
        have hsum := sum_carried_producer (q := l.m_queue) .pushUnlock k event
        rw [hpc] at hsum
        change _ + [some event'].count (some event) = _ + 0 at hsum
        rw [← hevent]
        omega
  | _ => exact hevent

end

section

variable {l r : AsyncLogger n m α} {e : Event n α}

/-! ### What the worker has taken -/

theorem Move.popped (h : Move l e r) (hl : l.Inv) (hw : r.worker = .popping) :
    ∀ v, (r.m_queue.threads 0).value = some v → v ∈ r.m_queue.taken := by
  intro v hv
  cases h with
  | @log k _ q _ hq =>
    have hvalue := ConcurrentQueue.value_of_call hq (producer_ne_zero k).symm
    obtain ⟨-, rfl⟩ := ConcurrentQueue.call_eq hq
    exact hl.popped hw v (hvalue.symm.trans hv)
  | push _ hq =>
    have hvalue := ConcurrentQueue.value_of_call hq (t := 0) nofun
    obtain ⟨-, rfl⟩ := ConcurrentQueue.call_eq hq
    exact hl.popped hw v (hvalue.symm.trans hv)
  | pop _ _ hq => cases (ConcurrentQueue.value_of_pop hq).symm.trans hv
  | leave | null | got | append | next => cases hw
  | skip => cases hw
  | begin | exited | running | exchange | pushed | join => exact hl.popped hw v hv
  | queue he hq =>
    cases (ConcurrentQueue.move_of_step hq).effect he with
    | quiet _ htaken hthreads =>
      rw [htaken]
      exact hl.popped hw v ((hthreads.value 0).symm.trans hv)
    | linked hpc _ htaken hthreads =>
      rw [htaken]
      exact hl.popped hw v ((ConcurrentQueue.value_of_linked hpc hthreads 0).symm.trans hv)
    | @answered tid v' hconsuming _ htaken hthreads =>
      obtain ⟨rfl, -⟩ := hl.taker tid hconsuming
      rw [htaken]
      apply List.mem_append_right
      simp only [hthreads, Function.update_self] at hv
      rw [Option.mem_toList]
      exact hv

theorem owed_congr (hworker : r.worker = l.worker) (hlevel : r.m_level = l.m_level)
    (hvalue : (r.m_queue.threads 0).value = (l.m_queue.threads 0).value) : r.owed = l.owed := by
  funext i
  simp only [owed, hworker, hlevel, hvalue]

theorem Move.appended (h : Move l e r) (hl : l.Inv) :
    ∀ i, r.appended i ++ r.owed i = loggable r.m_level r.m_queue.taken := by
  intro i
  have happended := hl.appended i
  cases h with
  | @log k _ q _ hq =>
    have hvalue := ConcurrentQueue.value_of_call hq (producer_ne_zero k).symm
    obtain ⟨-, rfl⟩ := ConcurrentQueue.call_eq hq
    exact (congrArg (l.appended i ++ · i) (owed_congr rfl rfl hvalue)).trans happended
  | push _ hq =>
    have hvalue := ConcurrentQueue.value_of_call hq (t := 0) nofun
    obtain ⟨-, rfl⟩ := ConcurrentQueue.call_eq hq
    exact (congrArg (l.appended i ++ · i) (owed_congr rfl rfl hvalue)).trans happended
  | pop hw _ hq =>
    have hvalue := ConcurrentQueue.value_of_pop hq
    obtain ⟨-, rfl⟩ := ConcurrentQueue.call_eq hq
    simp only [owed, hw] at happended
    simp only [owed, hvalue]
    exact happended
  | leave hw | null hw hpc | got hw hpc hlevel | skip hw hpc hlevel =>
    simp_all [owed, loggable, ConcurrentQueue.Pc.value]
  | @append event j hw =>
    simp only [owed, hw] at happended
    simp only [owed]
    by_cases hi : i = j
    · subst hi
      rw [if_pos (Nat.le_refl _)] at happended
      rw [Function.update_self, if_neg (Nat.not_succ_le_self _), List.append_nil]
      exact happended
    · have hne : (i : Nat) ≠ j := fun h => hi (Fin.ext h)
      rw [Function.update_of_ne hi, ← happended]
      congr 2
      simp only [eq_iff_iff]
      omega
  | @next event j hw hj =>
    have hlt := i.isLt
    simp only [owed, hw] at happended
    rw [if_neg (by omega)] at happended
    exact happended
  | begin | exited | running | exchange | pushed | join => exact happended
  | @queue e q he hq =>
    cases (ConcurrentQueue.move_of_step hq).effect he with
    | quiet _ htaken hthreads =>
      have howed : owed { l with m_queue := q } = l.owed := owed_congr rfl rfl (hthreads.value 0)
      rw [howed, htaken]
      exact happended
    | linked hpc _ htaken hthreads =>
      have howed : owed { l with m_queue := q } = l.owed :=
        owed_congr rfl rfl (ConcurrentQueue.value_of_linked hpc hthreads 0)
      rw [howed, htaken]
      exact happended
    | @answered tid v hconsuming _ htaken hthreads =>
      obtain ⟨rfl, hw⟩ := hl.taker tid hconsuming
      have hnone := ConcurrentQueue.Pc.value_of_isConsuming hconsuming
      simp only [owed, hw, hnone, Option.toList_none] at happended
      simp only [owed, hw, htaken, hthreads, Function.update_self, loggable_append, ← happended,
        ConcurrentQueue.Pc.value]
      simp [loggable]

theorem Move.inv (h : Move l e r) (hl : l.Inv) : r.Inv where
  sound := h.sound hl
  inOrder := h.inOrder hl
  taker := h.taker hl
  giver := h.giver hl
  carriedNull := h.carriedNull hl
  pushedNull := h.pushedNull hl
  popped := h.popped hl
  exit := h.exit hl
  joined := h.joined hl
  appended := h.appended hl

/-! ### What the worker reaches -/

theorem withinReach_congr (hlevel : r.m_level = l.m_level)
    (hpushed : r.m_queue.pushed = l.m_queue.pushed) (htaken : r.m_queue.taken = l.m_queue.taken)
    (hreach : r.reach = l.reach) : r.WithinReach ↔ l.WithinReach := by
  simp only [WithinReach, contents, hlevel, hpushed, htaken, hreach]

theorem reach_congr (hworker : r.worker = l.worker)
    (hvalue : (r.m_queue.threads 0).value = (l.m_queue.threads 0).value) : r.reach = l.reach := by
  simp only [reach, hworker, hvalue]

/-- Outside `wait_and_pop` the worker takes no more. -/
theorem reach_of_ne_popping (hw : l.worker ≠ .popping) : l.reach = 0 := by
  unfold reach
  split
  · contradiction
  · rfl

theorem reach_of_returned {v : Option (LogEvent α)}
    (hpc : l.m_queue.threads 0 = .returned (some v)) : l.reach = 0 := by
  unfold reach
  rw [hpc]
  cases l.worker <;> rfl

/-- The destructor pushes a null pointer behind what is in the queue. -/
theorem withinReach_pushNull (hl : l.Inv) (hlevel : r.m_level = l.m_level)
    (hpushed : r.m_queue.pushed = l.m_queue.pushed ++ [none])
    (htaken : r.m_queue.taken = l.m_queue.taken) (hreach : r.reach = l.reach) :
    r.WithinReach ↔ l.WithinReach := by
  have hlen : l.m_queue.taken.length ≤ l.m_queue.pushed.length := by
    rw [hl.pushed_eq, List.length_append]
    omega
  have hcontents : r.contents = l.contents ++ [none] := by
    rw [contents, hpushed, htaken, List.drop_append_of_le_length hlen]
    rfl
  simp only [WithinReach, hlevel, hreach, hcontents, List.drop_append, List.mem_append]
  constructor
  · intro h event hevent
    exact h event (.inl hevent)
  · rintro h event (hevent | hevent)
    · exact h event hevent
    · cases List.mem_singleton.mp (List.mem_of_mem_drop hevent)

/-- What the worker is given is what it was to take. -/
theorem withinReach_answered {v : Option (Option (LogEvent α))} (hw : l.worker = .popping)
    (hnone : (l.m_queue.threads 0).value = none) (hlevel : r.m_level = l.m_level)
    (hworker : r.worker = l.worker) (hvalue : (r.m_queue.threads 0).value = v)
    (hpushed : r.m_queue.pushed = l.m_queue.pushed)
    (htaken : r.m_queue.taken = l.m_queue.taken ++ v.toList) :
    r.WithinReach ↔ l.WithinReach := by
  cases v with
  | none =>
    rw [Option.toList_none, List.append_nil] at htaken
    exact withinReach_congr hlevel hpushed htaken (reach_congr hworker (hvalue.trans hnone.symm))
  | some v =>
    have hbefore : l.reach = 1 := by simp only [reach, hw, hnone]
    have hafter : r.reach = 0 := by simp only [reach, hworker, hw, hvalue]
    have hcontents : r.contents = l.contents.drop 1 := by
      rw [contents, contents, hpushed, htaken, List.drop_drop, List.length_append]
      rfl
    simp only [WithinReach, hlevel, hbefore, hafter, hcontents, List.drop_zero]

/-- Once `m_isExit` is set, what is within reach stays so, and what is not comes no nearer. -/
theorem Move.withinReach_iff (h : Move l e r) (hl : l.Inv) (hexit : l.m_isExit = true) :
    r.WithinReach ↔ l.WithinReach := by
  have hset := hl.exit.mp hexit
  cases h with
  | log hd =>
    rw [hd] at hset
    cases hset
  | pop _ hopen =>
    rw [hopen] at hexit
    cases hexit
  | leave hw | append hw | next hw =>
    have hbefore : l.reach = 0 := reach_of_ne_popping (by rw [hw]; nofun)
    exact withinReach_congr rfl rfl rfl hbefore.symm
  | null _ hpc | got _ hpc | skip _ hpc =>
    have hbefore : l.reach = 0 := reach_of_returned hpc
    exact withinReach_congr rfl rfl rfl hbefore.symm
  | begin | exited | running | exchange | pushed | join => exact Iff.rfl
  | push _ hq =>
    have hvalue := ConcurrentQueue.value_of_call hq (t := 0) nofun
    obtain ⟨-, rfl⟩ := ConcurrentQueue.call_eq hq
    exact withinReach_congr rfl rfl rfl (reach_congr rfl hvalue)
  | queue he hq =>
    cases (ConcurrentQueue.move_of_step hq).effect he with
    | quiet hpushed htaken hthreads =>
      exact withinReach_congr rfl hpushed htaken (reach_congr rfl (hthreads.value 0))
    | @linked tid v hpc hpushed htaken hthreads =>
      cases v with
      | none =>
        exact withinReach_pushNull hl rfl hpushed htaken
          (reach_congr rfl (ConcurrentQueue.value_of_linked hpc hthreads 0))
      | some event =>
        have hd := (hl.giver tid event (by rw [hpc]; rfl)).1
        rw [hd] at hset
        cases hset
    | @answered tid v hconsuming hpushed htaken hthreads =>
      obtain ⟨rfl, hw⟩ := hl.taker tid hconsuming
      have hnone := ConcurrentQueue.Pc.value_of_isConsuming hconsuming
      refine withinReach_answered hw hnone rfl rfl ?_ hpushed htaken
      simp only [hthreads, Function.update_self]
      rfl

theorem exitsInTime_of_withinReach (hreach : 0 < m → l.WithinReach) : l.ExitsInTime e := by
  cases e with
  | destructor => exact fun _ => hreach
  | _ => trivial

/-- Only the destructor sets `m_isExit` first. -/
theorem Move.exitsInTime_iff (h : Move l e r) (hl : l.Inv) (hexit : ¬ l.m_isExit = true) :
    (r.m_isExit = true → 0 < m → r.WithinReach) ↔ l.ExitsInTime e := by
  cases h with
  | exchange hd => exact ⟨fun hr _ => hr rfl, fun hr _ => hr hd⟩
  | null hw hpc => exact absurd (hl.m_isExit_of_null hw hpc) hexit
  | begin hd | exited hd | running hd | push hd | pushed hd | join hd =>
    refine iff_of_true (fun hr => absurd hr hexit) fun hd' => ?_
    rw [hd] at hd'
    cases hd'
  | _ => exact iff_of_true (fun hr => absurd hr hexit) trivial

end

theorem accounted_initial [DecidableEq α] {level : Level} :
    ({ m_level := level } : AsyncLogger n m α).Accounted := by
  intro event
  simp [ConcurrentQueue.pushed, Deque.pushed, ConcurrentQueue.Pc.carried]

/-- When the destructor has begun, every logged event has entered the queue. -/
theorem Accounted.perm [DecidableEq α] {l : AsyncLogger n m α} (h : l.Accounted) (hl : l.Inv)
    (hd : l.destructor ≠ .outside) : (l.m_queue.pushed.filterMap id).Perm l.logged := by
  rw [List.perm_iff_count]
  intro event
  have hzero : ∀ k : Fin n,
      (l.m_queue.threads (producer k)).carried.toList.count (some event) = 0 := by
    intro k
    refine List.count_eq_zero.mpr fun hmem => ?_
    exact hd (hl.giver _ event (Option.mem_toList.mp hmem)).1
  rw [← h event, Finset.sum_eq_zero fun k _ => hzero k, Nat.add_zero]
  exact List.count_filterMap

/-- When the destructor has returned, the appenders lack the events that are still in the
queue. -/
theorem appended_iff_withinReach {l : AsyncLogger n m α} (hl : l.Inv)
    (hreturned : l.destructor = .returned) :
    (∀ i, l.appended i = loggable l.m_level l.m_queue.pushed) ↔ (0 < m → l.WithinReach) := by
  have hw := hl.joined hreturned
  have happended : ∀ i, l.appended i = loggable l.m_level l.m_queue.taken := by
    intro i
    rw [← hl.appended i, owed, hw, List.append_nil]
  have hrest : l.WithinReach ↔ loggable l.m_level l.contents = [] := by
    rw [loggable_eq_nil_iff, WithinReach, reach_of_ne_popping (by rw [hw]; nofun), List.drop_zero]
  have hpushed : ∀ i, l.appended i = loggable l.m_level l.m_queue.pushed ↔ l.WithinReach := by
    intro i
    rw [hrest, happended i, hl.pushed_eq, loggable_append, List.self_eq_append_right]
  constructor
  · intro hall hm
    exact (hpushed ⟨0, hm⟩).mp (hall ⟨0, hm⟩)
  · intro hreach i
    exact (hpushed i).mpr (hreach i.pos)

/-- When the destructor has returned, every appender has been passed every logged event up to
`m_level`, once and in the order of the queue, exactly if the worker reached them all when
`m_isExit` was set. -/
theorem passedOn_iff (level : Level) (es : List (Event n α)) (l : AsyncLogger n m α)
    (h : run step { m_level := level } es = some l) (hreturned : l.destructor = .returned) :
    l.PassedOn ↔ Along step ExitsInTime ({ m_level := level } : AsyncLogger n m α) es := by
  classical
  obtain ⟨hl, haccounted⟩ : l.Inv ∧ l.Accounted :=
    run_preserves (I := fun l => l.Inv ∧ l.Accounted)
      (fun _ _ _ hst hl => ⟨(move_of_step hst).inv hl.1, (move_of_step hst).accounted hl.1 hl.2⟩)
      h ⟨inv_initial, accounted_initial⟩
  have hexit : l.m_isExit = true := hl.exit.mpr (by rw [hreturned]; rfl)
  have hperm := haccounted.perm hl (by rw [hreturned]; nofun)
  rw [PassedOn, and_iff_right hperm, appended_iff_withinReach hl hreturned]
  refine run_iff_of_latch (I := Inv) (L := fun l => l.m_isExit = true)
    (W := fun l => 0 < m → l.WithinReach) (C := ExitsInTime)
    (fun _ _ _ hst => (move_of_step hst).inv) ?_
    (fun _ _ => exitsInTime_of_withinReach) ?_ h inv_initial Bool.false_ne_true hexit
  · intro l e r hst hl hset
    have hmove := move_of_step hst
    exact ⟨hmove.m_isExit_mono hset, imp_congr_right fun _ => hmove.withinReach_iff hl hset⟩
  · intro l e r hst hl hset
    exact (move_of_step hst).exitsInTime_iff hl hset

/-- A push from its first step to its last, while nobody waits. -/
def pushAlone (tid : Tid) (addr : Addr) : List (Event 1 Nat) :=
  [.queue (.advance tid), .queue (.link tid addr), .queue (.advance tid), .queue (.advance tid),
    .queue (.notify tid none)]

/-- The worker's steps in `wait_and_pop` when the queue is not empty. -/
def popAlone : List (Event 1 Nat) :=
  [.queue (.advance 0), .queue (.advance 0), .queue (.advance 0), .queue (.advance 0)]

/-- The worker is in `wait_and_pop` and the queue is empty when `m_isExit` is set. -/
def exitWhileWaiting : List (Event 1 Nat) :=
  .log 0 ⟨.WARN, 7⟩ :: pushAlone 2 10 ++ .worker :: popAlone ++
    [.worker, .worker, .worker, .worker, .destructor, .destructor, .destructor, .destructor] ++
    pushAlone 1 11 ++ .destructor :: popAlone ++ [.worker, .destructor]

theorem passedOn_iff_exitWhileWaiting :
    ∃ l : AsyncLogger 1 1 Nat, run step { m_level := .INFO } exitWhileWaiting = some l ∧
      l.destructor = .returned ∧ l.appended 0 = [⟨.WARN, 7⟩] ∧
      (l.PassedOn ↔ Along step ExitsInTime ({ m_level := .INFO } : AsyncLogger 1 1 Nat)
        exitWhileWaiting) := by
  have h : run step ({ m_level := .INFO } : AsyncLogger 1 1 Nat) exitWhileWaiting = some _ := rfl
  exact ⟨_, h, rfl, rfl, passedOn_iff .INFO exitWhileWaiting _ h rfl⟩

/-- The worker passes the first event on, and the second one is in the queue, when `m_isExit` is
set. -/
def exitWhileLogging : List (Event 1 Nat) :=
  .log 0 ⟨.WARN, 7⟩ :: pushAlone 2 10 ++ .worker :: popAlone ++ [.worker, .log 0 ⟨.ERRO, 8⟩] ++
    pushAlone 2 11 ++ [.destructor, .destructor, .destructor, .worker, .worker, .worker,
    .destructor] ++ pushAlone 1 12 ++ [.destructor, .destructor]

/-- The second event stays in the queue. -/
theorem event_lost_at_exit :
    ∃ l : AsyncLogger 1 1 Nat, run step { m_level := .INFO } exitWhileLogging = some l ∧
      l.destructor = .returned ∧ l.m_queue.pushed = [some ⟨.WARN, 7⟩, some ⟨.ERRO, 8⟩, none] ∧
      l.appended 0 = [⟨.WARN, 7⟩] ∧ ¬ l.PassedOn := by
  have h : run step ({ m_level := .INFO } : AsyncLogger 1 1 Nat) exitWhileLogging = some _ := rfl
  refine ⟨_, h, rfl, rfl, rfl, fun hall => ?_⟩
  have hpassed := hall.2 0
  cases hpassed

end NBRaft.Log.AsyncLogger
