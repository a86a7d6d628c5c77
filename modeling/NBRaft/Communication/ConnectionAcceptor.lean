import NBRaft.Communication.Session

/-!
# Stopping the acceptor

`ConnectionAcceptor` keeps one `async_accept` outstanding by issuing the next one from the handler
of the last. `stopAccept` closes the acceptor, which aborts what is outstanding, and the handler of
an accept that has been aborted is the same as that of any other.
-/

namespace NBRaft.Communication

open Transition

/-- An `async_accept` whose handler has not run yet. -/
inductive Accept where
  | waiting
  /-- The handler is to run, with an error or with a connection. -/
  | completed (failed : Bool)
  deriving DecidableEq, Repr

/-- What closing the acceptor does to it. -/
def Accept.abort : Accept → Accept
  | .waiting => .completed true
  | .completed failed => .completed failed

/-- `sessions` and `accepts` are histories: the sessions that a handler has started or closed, and
the number of calls of `async_accept`. -/
structure ConnectionAcceptor where
  m_accepting : Bool := false
  /-- `m_acceptor.is_open()`. -/
  isOpen : Bool := true
  pending : List Accept := []
  accepts : Nat := 0
  sessions : List Session := []
  /-- How many accepts had been issued when the user stopped the acceptor, if it has not been
  started by the user since. -/
  stoppedAt : Option Nat := none

namespace ConnectionAcceptor

/-- On an acceptor that is closed, the handler gets an error. -/
def asyncAccept (a : ConnectionAcceptor) : ConnectionAcceptor :=
  { a with
    pending := a.pending ++ [if a.isOpen then .waiting else .completed true]
    accepts := a.accepts + 1 }

def startAccept (a : ConnectionAcceptor) : ConnectionAcceptor :=
  { a with m_accepting := true }.asyncAccept

/-- `m_acceptor.close()`. -/
def closeAcceptor (a : ConnectionAcceptor) : ConnectionAcceptor :=
  { a with
    isOpen := false
    pending := a.pending.map Accept.abort }

def stopAccept (a : ConnectionAcceptor) : ConnectionAcceptor :=
  if a.m_accepting then { a with m_accepting := false }.closeAcceptor else a

def handleAccept (failed sessionsFull : Bool) (a : ConnectionAcceptor) : ConnectionAcceptor :=
  let new_session := if failed then Session.close {} else Session.start sessionsFull {}
  { a with sessions := a.sessions ++ [new_session] }.startAccept

inductive Event where
  | startAccept
  | stopAccept
  /-- asio has a connection for the `i`-th outstanding accept, or an error. -/
  | accepted (i : Nat) (failed : Bool)
  /-- The `io_context` runs the handler of the `i`-th outstanding accept. -/
  | handleAccept (i : Nat) (sessionsFull : Bool)
  deriving DecidableEq, Repr

def step (a : ConnectionAcceptor) : Event → Option ConnectionAcceptor
  | .startAccept => some { a.startAccept with stoppedAt := none }
  | .stopAccept => some { a.stopAccept with stoppedAt := some a.stopAccept.accepts }
  | .accepted i failed =>
    match a.pending[i]? with
    | some .waiting => some { a with pending := a.pending.set i (.completed failed) }
    | _ => none
  | .handleAccept i sessionsFull =>
    match a.pending[i]? with
    | some (.completed failed) =>
      some ({ a with pending := a.pending.eraseIdx i }.handleAccept failed sessionsFull)
    | _ => none

/-! ## What one step can do -/

theorem step_cases {a b : ConnectionAcceptor} {e : Event} (h : a.step e = some b) :
    (e = .startAccept ∧ b = { a.startAccept with stoppedAt := none }) ∨
    (e = .stopAccept ∧ b = { a.stopAccept with stoppedAt := some a.stopAccept.accepts }) ∨
    (∃ i failed, e = .accepted i failed ∧ a.pending[i]? = some .waiting ∧
      b = { a with pending := a.pending.set i (.completed failed) }) ∨
    (∃ i sessionsFull failed, e = .handleAccept i sessionsFull ∧
      a.pending[i]? = some (.completed failed) ∧
      b = { a with pending := a.pending.eraseIdx i }.handleAccept failed sessionsFull) := by
  cases e with
  | startAccept => exact .inl ⟨rfl, (Option.some.inj h).symm⟩
  | stopAccept => exact .inr (.inl ⟨rfl, (Option.some.inj h).symm⟩)
  | accepted i failed =>
    simp only [step] at h
    split at h
    · rename_i hi
      exact .inr (.inr (.inl ⟨i, failed, rfl, hi, (Option.some.inj h).symm⟩))
    · cases h
  | handleAccept i sessionsFull =>
    simp only [step] at h
    split at h
    · rename_i failed hi
      exact .inr (.inr (.inr ⟨i, sessionsFull, failed, rfl, hi, (Option.some.inj h).symm⟩))
    · cases h

theorem m_accepting_stopAccept (a : ConnectionAcceptor) :
    a.stopAccept.m_accepting = false := by
  unfold stopAccept
  split
  · rfl
  · rename_i h
    exact Bool.eq_false_iff.mpr h

/-! ## The acceptor stays stopped -/

/-- Nothing has been issued since the user stopped the acceptor. -/
def StaysStopped (a : ConnectionAcceptor) : Prop :=
  ∀ n, a.stoppedAt = some n → a.accepts = n ∧ a.m_accepting = false

/-- The handler of an accept is about to run. -/
def Delivers (a : ConnectionAcceptor) (e : Event) : Prop :=
  ∃ i sessionsFull failed, e = .handleAccept i sessionsFull ∧
    a.pending[i]? = some (.completed failed)

theorem not_delivers_of_refused {a : ConnectionAcceptor} {e : Event} (h : a.step e = none) :
    ¬ a.Delivers e := by
  rintro ⟨i, sessionsFull, failed, rfl, hi⟩
  simp [step, hi] at h

theorem staysStopped_step {a b : ConnectionAcceptor} {e : Event} (h : a.step e = some b)
    (ha : a.StaysStopped) :
    b.StaysStopped ↔ (a.stoppedAt.isSome = true → ¬ a.Delivers e) := by
  obtain ⟨rfl, rfl⟩ | ⟨rfl, rfl⟩ | ⟨i, failed, rfl, -, rfl⟩ |
    ⟨i, sessionsFull, failed, rfl, hi, rfl⟩ := step_cases h
  · apply iff_of_true
    · intro n hn
      cases hn
    · simp [Delivers]
  · apply iff_of_true
    · intro n hn
      exact ⟨Option.some.inj hn, m_accepting_stopAccept a⟩
    · simp [Delivers]
  · apply iff_of_true ha
    simp [Delivers]
  · cases hstopped : a.stoppedAt with
    | none =>
      apply iff_of_true
      · intro n hn
        cases hn
      · intro h
        cases h
    | some n =>
      apply iff_of_false
      · intro hb
        have haccepting := (hb n rfl).2
        cases haccepting
      · intro hno
        exact hno rfl ⟨i, sessionsFull, failed, rfl, hi⟩

/-- The acceptor stays stopped exactly as long as no handler of an accept runs after the stop. -/
theorem staysStopped_iff (es : List Event) :
    Throughout step StaysStopped {} es ↔
      Along step (fun a e => a.stoppedAt.isSome = true → ¬ a.Delivers e) {} es := by
  apply throughout_iff_along_of_refused
  · intro a e b h ha
    exact staysStopped_step h ha
  · intro a e h _ _
    exact not_delivers_of_refused h
  · intro n hn
    cases hn

/-- The accept that the stop itself has aborted makes for the next one. -/
theorem aborted_accept_restarts :
    run step {} [.startAccept, .stopAccept, .handleAccept 0 false] =
        some { m_accepting := true, isOpen := false, pending := [.completed true], accepts := 2,
               sessions := [Session.close {}], stoppedAt := some 1 } ∧
      ¬ Throughout step StaysStopped {} [.startAccept, .stopAccept, .handleAccept 0 false] := by
  have hrun : run step {} [.startAccept, .stopAccept, .handleAccept 0 false] =
      some { m_accepting := true, isOpen := false, pending := [.completed true], accepts := 2,
             sessions := [Session.close {}], stoppedAt := some 1 } := rfl
  refine ⟨hrun, fun h => ?_⟩
  obtain ⟨haccepts, -⟩ := h.last hrun 1 rfl
  cases haccepts

/-! ## There is always such a handler -/

/-- As long as the acceptor is accepting, an accept is outstanding. -/
def Outstanding (a : ConnectionAcceptor) : Prop := a.m_accepting = true → a.pending ≠ []

theorem outstanding_step {a b : ConnectionAcceptor} {e : Event} (h : a.step e = some b)
    (ha : a.Outstanding) : b.Outstanding := by
  obtain ⟨rfl, rfl⟩ | ⟨rfl, rfl⟩ | ⟨i, failed, rfl, -, rfl⟩ |
    ⟨i, sessionsFull, failed, rfl, -, rfl⟩ := step_cases h
  · intro _
    simp [startAccept, asyncAccept]
  · intro haccepting
    cases (m_accepting_stopAccept a).symm.trans haccepting
  · intro haccepting
    simpa using ha haccepting
  · intro _
    simp [handleAccept, startAccept, asyncAccept]

/-- The acceptor is closed, and there are handlers of accepts to run. -/
structure Spinning (a : ConnectionAcceptor) : Prop where
  closed : a.isOpen = false
  completed : ∀ p ∈ a.pending, ∃ failed, p = .completed failed
  nonempty : a.pending ≠ []

/-- Every handler leaves the acceptor with another one to run. -/
theorem spinning_step {a : ConnectionAcceptor} (h : a.Spinning) :
    ∃ b, a.step (.handleAccept 0 false) = some b ∧ b.Spinning ∧ b.accepts = a.accepts + 1 := by
  obtain ⟨p, pending, hpending⟩ := List.exists_cons_of_ne_nil h.nonempty
  obtain ⟨hp, hrest⟩ := List.forall_mem_cons.mp (hpending ▸ h.completed)
  obtain ⟨failed, rfl⟩ := hp
  refine ⟨_, by simp only [step, hpending, List.getElem?_cons_zero]; rfl, ?_, rfl⟩
  constructor
  · exact h.closed
  · intro q hq
    simp only [handleAccept, startAccept, asyncAccept, h.closed, List.eraseIdx_cons_zero,
      Bool.false_eq_true, if_false, List.mem_append, List.mem_singleton] at hq
    obtain hq | rfl := hq
    · exact hrest q hq
    · exact ⟨true, rfl⟩
  · simp [handleAccept, startAccept, asyncAccept]

theorem spinning_stopAccept {a : ConnectionAcceptor} (haccepting : a.m_accepting = true)
    (h : a.Outstanding) : a.stopAccept.Spinning := by
  have hstop : a.stopAccept = { a with m_accepting := false }.closeAcceptor := if_pos haccepting
  rw [hstop]
  constructor
  · rfl
  · intro p hp
    obtain ⟨q, -, rfl⟩ := List.mem_map.mp hp
    cases q with
    | waiting => exact ⟨true, rfl⟩
    | completed failed => exact ⟨failed, rfl⟩
  · simpa [closeAcceptor] using h haccepting

/-- From any state in which the acceptor is accepting, stopping it makes for a run of handlers of
whatever length, each of which issues another accept. -/
theorem spins_after_stop {es : List Event} {a : ConnectionAcceptor} (h : run step {} es = some a)
    (haccepting : a.m_accepting = true) (n : Nat) :
    ∃ b, run step a (.stopAccept :: List.replicate n (.handleAccept 0 false)) = some b ∧
      b.accepts = a.accepts + n := by
  have hspins : ∀ n (b : ConnectionAcceptor), b.Spinning →
      ∃ c, run step b (List.replicate n (.handleAccept 0 false)) = some c ∧
        c.accepts = b.accepts + n := by
    intro n
    induction n with
    | zero =>
      intro b _
      exact ⟨b, rfl, rfl⟩
    | succ n ih =>
      intro b hb
      obtain ⟨c, hc, hspinning, haccepts⟩ := spinning_step hb
      obtain ⟨d, hd, hissued⟩ := ih c hspinning
      exact ⟨d, run_cons_eq_some.mpr ⟨c, hc, hd⟩, by omega⟩
  have hout : a.Outstanding :=
    run_preserves (fun _ _ _ => outstanding_step) h fun haccepting => by cases haccepting
  obtain ⟨hclosed, hcompleted, hnonempty⟩ := spinning_stopAccept haccepting hout
  obtain ⟨b, hrun, hissued⟩ :=
    hspins n { a.stopAccept with stoppedAt := some a.stopAccept.accepts }
      ⟨hclosed, hcompleted, hnonempty⟩
  have hkept : a.stopAccept.accepts = a.accepts := by
    unfold stopAccept
    split <;> rfl
  exact ⟨b, run_cons_eq_some.mpr ⟨_, rfl, hrun⟩, hissued.trans (congrArg (· + n) hkept)⟩

end ConnectionAcceptor

end NBRaft.Communication
