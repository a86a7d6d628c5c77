import NBRaft.BehaviorTree.Preempt

/-!
# Parallel from tick to tick

A `Parallel` ticks every child until the child has a result, and the result stays in the child.
The policies say how many results of a kind make one of the whole: with `RequireOne` the loop
returns with the first, with `RequireAll` the results are counted after it. Nothing takes the
results away from the children again.
-/

namespace NBRaft.BehaviorTree

open Transition

def EStatus.IsTerminated (s : EStatus) : Prop := s = .success ∨ s = .failure

instance (s : EStatus) : Decidable s.IsTerminated :=
  inferInstanceAs (Decidable (s = .success ∨ s = .failure))

theorem Behavior.isTerminated_iff {b : Behavior} :
    b.isTerminated = true ↔ b.m_status.IsTerminated := by
  simp [isTerminated, isSuccess, isFailure, EStatus.IsTerminated]

theorem Parallel.isTerminated_of_stops {m_successPolicy m_failurePolicy : Policy} {s : EStatus}
    (h : Parallel.stops m_successPolicy m_failurePolicy s = true) : s.IsTerminated := by
  simp only [Parallel.stops, decide_eq_true_eq] at h
  exact h.imp And.left And.left

section

variable {W : Type} {f : Tick W} {m_successPolicy m_failurePolicy : Policy}
  {p successCount failureCount successCount' failureCount' : Nat}
  {early : Option EStatus} {cs cs' : List Behavior} {w w' : World W}

/-- What the loop does, by the children that it comes to: these stand one behind the other, those
that have terminated are passed over, and only the last of them stops the loop. -/
structure ParallelPass (m_successPolicy m_failurePolicy : Policy) (p : Nat)
    (cs cs' : List Behavior) (vs : List Visit) (early : Option EStatus) : Prop where
  positions : vs.map Visit.position = List.range' p vs.length
  before : ∀ (i : Nat) (v : Visit), vs[i]? = some v → ∃ c, cs[i]? = some c ∧ (v.ticked = true ↔
    ¬ c.m_status.IsTerminated) ∧ (v.ticked = false → v.status = c.m_status)
  after : statuses cs' = vs.map Visit.status ++ statuses (cs.drop vs.length)
  untilStop : ∀ pre v post, vs = pre ++ v :: post →
    Parallel.stops m_successPolicy m_failurePolicy v.status = true → post = []
  early : early =
    (vs.find? fun v => Parallel.stops m_successPolicy m_failurePolicy v.status).map Visit.status
  complete : (∀ v ∈ vs, Parallel.stops m_successPolicy m_failurePolicy v.status = false) →
    vs.length = cs.length

theorem tickUnterminated_eq_some {c c' : Behavior} (h : tickUnterminated f c w = some (c', w')) :
    c.m_status.IsTerminated ∧ c' = c ∧ w' = w ∨
      ¬ c.m_status.IsTerminated ∧ f c w = some (c', w') := by
  unfold tickUnterminated at h
  split_ifs at h with hterminated
  · cases h
    exact .inl ⟨Behavior.isTerminated_iff.mp hterminated, rfl, rfl⟩
  · exact .inr ⟨fun h => hterminated (Behavior.isTerminated_iff.mpr h), h⟩

theorem parallelPass (h : parallelLoop f m_successPolicy m_failurePolicy cs successCount
    failureCount w = some (early, cs', successCount', failureCount', w')) :
    ParallelPass m_successPolicy m_failurePolicy p cs cs'
      (visitsParallel f m_successPolicy m_failurePolicy p cs w) early := by
  induction cs generalizing p cs' successCount failureCount w with
  | nil =>
    cases h
    exact ⟨rfl, nofun, rfl, fun pre v post h => by simp [visitsParallel] at h, rfl,
      fun _ => rfl⟩
  | cons c cs ih =>
    obtain ⟨c', u, hc, hrest⟩ := parallelLoop_turn h
    have hhere : (!c.isTerminated) = true ↔ ¬ c.m_status.IsTerminated := by
      rw [← Behavior.isTerminated_iff]
      simp
    have hkept : (!c.isTerminated) = false → c'.m_status = c.m_status := by
      intro hnot
      obtain ⟨-, rfl, -⟩ | ⟨hnot', -⟩ := tickUnterminated_eq_some hc
      · rfl
      · rw [hhere.mpr hnot'] at hnot
        cases hnot
    obtain ⟨hstops, rfl, rfl, rfl⟩ | ⟨hstops, rest, rfl, hrest⟩ := hrest
    · have hvisits : visitsParallel f m_successPolicy m_failurePolicy p (c :: cs) w =
          [{ position := p, ticked := !c.isTerminated, status := c'.m_status }] := by
        simp [visitsParallel, hc, hstops]
      rw [hvisits]
      refine ⟨rfl, ?_, rfl, ?_, by simp [hstops], fun hnone => ?_⟩
      · intro i v hv
        obtain ⟨rfl, rfl⟩ : i = 0 ∧ _ = v := by simpa [List.getElem?_singleton] using hv
        exact ⟨c, rfl, hhere, hkept⟩
      · intro pre v post hsplit _
        cases pre with
        | nil => exact (List.cons.inj hsplit).2.symm
        | cons v' pre => simp at hsplit
      · cases hstops.symm.trans (hnone _ List.mem_cons_self)
    · have hvisits : visitsParallel f m_successPolicy m_failurePolicy p (c :: cs) w =
          { position := p, ticked := !c.isTerminated, status := c'.m_status } ::
            visitsParallel f m_successPolicy m_failurePolicy (p + 1) cs u := by
        simp [visitsParallel, hc, hstops]
      have hpass := ih (p := p + 1) hrest
      rw [hvisits]
      refine ⟨?_, ?_, ?_, ?_, ?_, fun hnone => ?_⟩
      · simp [hpass.positions, List.range'_succ]
      · intro i v hv
        cases i with
        | zero =>
          obtain rfl : _ = v := by simpa using hv
          exact ⟨c, rfl, hhere, hkept⟩
        | succ i => simpa using hpass.before i v (by simpa using hv)
      · simpa [statuses] using hpass.after
      · intro pre v post hsplit hv
        cases pre with
        | nil =>
          obtain ⟨rfl, -⟩ := List.cons.inj hsplit
          cases hstops.symm.trans hv
        | cons v' pre => exact hpass.untilStop pre v post (List.cons.inj hsplit).2 hv
      · simp [hpass.early, hstops]
      · have hlength := hpass.complete fun v hv => hnone v (List.mem_cons_of_mem _ hv)
        simp [hlength]

/-- If the loop is not stopped, it has counted all results. -/
theorem parallelLoop_counts (h : parallelLoop f m_successPolicy m_failurePolicy cs successCount
    failureCount w = some (none, cs', successCount', failureCount', w')) :
    successCount' = successCount + (statuses cs').count .success ∧
      failureCount' = failureCount + (statuses cs').count .failure := by
  induction cs generalizing cs' successCount failureCount w with
  | nil =>
    cases h
    exact ⟨rfl, rfl⟩
  | cons c cs ih =>
    obtain ⟨c', u, hc, ⟨-, -, -, hnone⟩ | ⟨-, rest, rfl, hrest⟩⟩ := parallelLoop_turn h
    · cases hnone
    · obtain ⟨hsuccess, hfailure⟩ := ih hrest
      simp only [Behavior.isSuccess, Behavior.isFailure, decide_eq_true_eq] at hsuccess hfailure
      simp only [statuses, List.map_cons, List.count_cons] at hsuccess hfailure ⊢
      grind

end

/-! ## The result over an activation -/

/-- What a tick returns that has come to these children. -/
def Parallel.turnResult (m_successPolicy m_failurePolicy : Policy) (vs : List Visit) : EStatus :=
  match vs.find? fun v => Parallel.stops m_successPolicy m_failurePolicy v.status with
  | some v => v.status
  | none =>
    if m_failurePolicy = .requireAll ∧ ∀ v ∈ vs, v.status = .failure then .failure
    else if m_successPolicy = .requireAll ∧ ∀ v ∈ vs, v.status = .success then .success
    else .running

/-- A tick of a `Parallel`: in their order, and up to the first that stops it, the children that
have not terminated are ticked. -/
structure ParallelTurn (m_successPolicy m_failurePolicy : Policy) (t : Turn) : Prop where
  inOrder : t.visits.map Visit.position = List.range t.visits.length
  ticked : ∀ v ∈ t.visits, ∃ s, t.before[v.position]? = some s ∧
    (v.ticked = true ↔ ¬ s.IsTerminated) ∧ (v.ticked = false → v.status = s)
  untilStop : ∀ pre v post, t.visits = pre ++ v :: post →
    Parallel.stops m_successPolicy m_failurePolicy v.status = true → post = []
  complete : (∀ v ∈ t.visits, Parallel.stops m_successPolicy m_failurePolicy v.status = false) →
    t.visits.length = t.before.length
  returned : t.returned = Parallel.turnResult m_successPolicy m_failurePolicy t.visits
  stopped : t.returned ≠ .running → .running ∉ t.after

/-- The ticks of an activation, in none of which a child is ticked that has terminated in it. -/
structure ParallelActivation (m_successPolicy m_failurePolicy : Policy) (a : List Turn) :
    Prop where
  turns : ∀ t ∈ a, ParallelTurn m_successPolicy m_failurePolicy t
  once : (visitsOf a).Pairwise fun v v' =>
    v.status.IsTerminated → v'.position = v.position → v'.ticked = false

/-- The status that `onTerminate` leaves a child with. -/
def EStatus.terminated (s : EStatus) : EStatus := if s = .running then .aborted else s

theorem statuses_abortRunning (cs : List Behavior) :
    statuses (Behavior.abortRunning cs) = (statuses cs).map EStatus.terminated := by
  induction cs with
  | nil => rfl
  | cons c cs ih =>
    have hhead : (if c.isRunning then c.onTerminate.setStatus .aborted else c).m_status =
        c.m_status.terminated := by
      obtain ⟨n, ds⟩ := c
      by_cases h : n.m_status = .running
      · simp [Behavior.isRunning, EStatus.terminated, Behavior.onTerminate, Behavior.setStatus, h]
      · simp [Behavior.isRunning, EStatus.terminated, h]
    simpa [Behavior.abortRunning, statuses, hhead] using ih

section

variable {W : Type} {act : String → W → EStatus × W} {f : Tick W} {fuel : Nat}
  {m_successPolicy m_failurePolicy : Policy} {isMonitor : Bool} {b b' : Behavior}
  {w w' : World W}

theorem entered_kind_parallel
    (hkind : b.self.kind = .parallel isMonitor m_successPolicy m_failurePolicy) :
    b.entered.kind = .parallel isMonitor m_successPolicy m_failurePolicy := by
  simp [kind_entered, hkind, Kind.onInitialize]

theorem visits_parallel
    (hkind : b.self.kind = .parallel isMonitor m_successPolicy m_failurePolicy) :
    visits f fuel b.entered b.m_children w =
      visitsParallel f m_successPolicy m_failurePolicy 0 b.m_children w := by
  simp only [visits, entered_kind_parallel hkind]

/-- The tick of a `Parallel` in terms of its loop. -/
theorem tickNode_parallel
    (hkind : b.self.kind = .parallel isMonitor m_successPolicy m_failurePolicy)
    (h : tickNode act f fuel b w = some (b', w')) :
    ∃ cs early successCount failureCount u,
      parallelLoop f m_successPolicy m_failurePolicy b.m_children 0 0 w =
        some (early, cs, successCount, failureCount, u) ∧
      b'.m_status = early.getD
        (parallelResult m_successPolicy m_failurePolicy cs.length successCount failureCount) ∧
      b'.self.kind = .parallel isMonitor m_successPolicy m_failurePolicy ∧
      statuses b'.m_children =
        if b'.m_status = .running then statuses cs else (statuses cs).map EStatus.terminated := by
  obtain ⟨n, cs, u, hupdate, hnode, -, hcs⟩ := tickNode_update h
  have hentered := entered_kind_parallel hkind
  simp only [onUpdate, hentered] at hupdate
  obtain ⟨⟨early, cs', sc, fc, u'⟩, hloop, hresult⟩ := Option.bind_eq_some_iff.mp hupdate
  simp only [Option.some.injEq, Prod.mk.injEq] at hresult
  obtain ⟨hstatus, rfl, rfl, rfl⟩ := hresult
  refine ⟨_, early, sc, fc, _, hloop, hstatus.symm, hnode.trans hentered, ?_⟩
  have hparallel : b.entered.kind.isParallel = true := by rw [hentered]; rfl
  rw [hcs, hparallel]
  split_ifs with hnot hrunning hrunning
  · exact absurd hrunning hnot.1
  · exact statuses_abortRunning _
  · rfl
  · exact absurd ⟨hrunning, rfl⟩ hnot

/-- The counters agree with the children that the loop has come to. -/
theorem count_statuses {cs : List Behavior} (s : EStatus) :
    0 + (statuses cs).count s = cs.length ↔ ∀ r ∈ statuses cs, r = s := by
  have hsize : cs.length = (statuses cs).length := by simp [statuses]
  rw [Nat.zero_add, hsize, List.count_eq_length]
  exact forall₂_congr fun r _ => eq_comm

theorem turnResult_eq {cs cs' : List Behavior} {early : Option EStatus}
    {successCount failureCount : Nat}
    (h : parallelLoop f m_successPolicy m_failurePolicy cs 0 0 w =
      some (early, cs', successCount, failureCount, w')) :
    Parallel.turnResult m_successPolicy m_failurePolicy
        (visitsParallel f m_successPolicy m_failurePolicy 0 cs w) =
      early.getD
        (parallelResult m_successPolicy m_failurePolicy cs'.length successCount failureCount) := by
  have hpass := parallelPass (p := 0) h
  have hearly := hpass.early
  unfold Parallel.turnResult
  cases hfind : (visitsParallel f m_successPolicy m_failurePolicy 0 cs w).find? fun v =>
      Parallel.stops m_successPolicy m_failurePolicy v.status with
  | some v =>
    rw [hfind] at hearly
    rw [hearly]
    rfl
  | none =>
    rw [hfind] at hearly
    obtain rfl : early = none := hearly
    have hlength := hpass.complete fun v hv => by simpa using List.find?_eq_none.mp hfind v hv
    have hafter := hpass.after
    rw [hlength, List.drop_length, statuses, statuses, List.map_nil, List.append_nil] at hafter
    obtain ⟨rfl, rfl⟩ := parallelLoop_counts h
    have hall : ∀ s, 0 + (statuses cs').count s = cs'.length ↔
        ∀ v ∈ visitsParallel f m_successPolicy m_failurePolicy 0 cs w, v.status = s := by
      intro s
      rw [count_statuses, statuses, hafter, List.forall_mem_map]
    simp only [parallelResult, hall, Option.getD_none]

/-- Where the positions are in order, a visit stands at its own. -/
theorem getElem?_position {vs : List Visit} {v : Visit}
    (h : vs.map Visit.position = List.range vs.length) (hv : v ∈ vs) :
    vs[v.position]? = some v := by
  obtain ⟨i, hi⟩ := List.getElem?_of_mem hv
  have hposition : v.position = i := by
    have hmap := congrArg (·[i]?) h
    simp only [List.getElem?_map, hi, Option.map_some] at hmap
    rw [List.getElem?_range (List.getElem?_eq_some_iff.mp hi).1] at hmap
    simpa using hmap
  rw [hposition, hi]

theorem parallelTurn {s : Watched W}
    (hkind : s.node.self.kind = .parallel isMonitor m_successPolicy m_failurePolicy)
    (h : tickNode act f fuel s.node s.world = some (b', w')) :
    ParallelTurn m_successPolicy m_failurePolicy (s.turn f fuel b') := by
  obtain ⟨cs, early, sc, fc, u, hloop, hstatus, -, hafter⟩ := tickNode_parallel hkind h
  have hpass := parallelPass (p := 0) hloop
  have hvisits : (s.turn f fuel b').visits = _ := visits_parallel hkind
  have hin := hpass.positions.trans List.range_eq_range'.symm
  refine ⟨?_, fun v hv => ?_, ?_, fun hnone => ?_, ?_, fun hnot => ?_⟩
  · rw [hvisits, hin]
  · rw [hvisits] at hv
    obtain ⟨c, hc, hticked, hkept⟩ := hpass.before _ v (getElem?_position hin hv)
    exact ⟨c.m_status, by simp [Watched.turn, statuses, hc], hticked, hkept⟩
  · rw [hvisits]
    exact hpass.untilStop
  · rw [hvisits] at hnone ⊢
    simp [hpass.complete hnone, Watched.turn, statuses]
  · rw [hvisits, turnResult_eq hloop]
    exact hstatus
  · change b'.m_status ≠ .running at hnot
    change .running ∉ statuses b'.m_children
    rw [hafter, if_neg hnot, List.mem_map]
    rintro ⟨s, -, hs⟩
    unfold EStatus.terminated at hs
    split_ifs at hs with hrunning
    exact hrunning hs

/-- A result stays in its child, one that has been there as well as a new one. -/
theorem results_stay {s : Watched W}
    (hkind : s.node.self.kind = .parallel isMonitor m_successPolicy m_failurePolicy)
    (h : tickNode act f fuel s.node s.world = some (b', w')) {r : EStatus}
    (hr : r.IsTerminated) :
    (∀ i : Nat, (statuses s.node.m_children)[i]? = some r →
      (statuses b'.m_children)[i]? = some r) ∧
    ∀ v ∈ (s.turn f fuel b').visits, v.status = r →
      (statuses b'.m_children)[v.position]? = some r := by
  obtain ⟨cs, early, sc, fc, u, hloop, -, -, hafter⟩ := tickNode_parallel hkind h
  have hpass := parallelPass (p := 0) hloop
  have hvisits : (s.turn f fuel b').visits = _ := visits_parallel hkind
  have hstays : ∀ i : Nat, (statuses cs)[i]? = some r →
      (statuses b'.m_children)[i]? = some r := by
    intro i hi
    rw [hafter]
    split_ifs
    · exact hi
    · have hnot : r ≠ .running := by rcases hr with rfl | rfl <;> nofun
      simp [hi, EStatus.terminated, hnot]
  constructor
  · intro i hi
    refine hstays i ?_
    rw [hpass.after]
    cases hv : (visitsParallel f m_successPolicy m_failurePolicy 0 s.node.m_children
        s.world)[i]? with
    | some v =>
      obtain ⟨c, hc, hticked, hkept⟩ := hpass.before i v hv
      have hcr : c.m_status = r := by simpa [statuses, hc] using hi
      have hnot : v.ticked = false := Bool.eq_false_iff.mpr fun h => hticked.mp h (hcr ▸ hr)
      rw [List.getElem?_append_left (by simpa using (List.getElem?_eq_some_iff.mp hv).1)]
      simp [hv, hkept hnot, hcr]
    | none =>
      have hle := List.getElem?_eq_none_iff.mp hv
      rw [List.getElem?_append_right (by simpa using hle)]
      simpa [statuses, Nat.add_sub_cancel' hle] using hi
  · intro v hv hvr
    have hi := getElem?_position (parallelTurn hkind h).inOrder hv
    rw [hvisits] at hi
    refine hstays v.position ?_
    rw [hpass.after, List.getElem?_append_left (by
      simpa using (List.getElem?_eq_some_iff.mp hi).1)]
    simp [hi, hvr]

/-- What the runs of a `Parallel` keep: as long as the activation goes on, the results that it has
come to are in the children. -/
structure ParallelRun (m_successPolicy m_failurePolicy : Policy) (s : Watched W) : Prop where
  kind : ∃ isMonitor, s.node.self.kind = .parallel isMonitor m_successPolicy m_failurePolicy
  recorded : ∀ a ∈ s.activations, ParallelActivation m_successPolicy m_failurePolicy a
  going : s.node.isRunning = true → ∃ a as, s.activations = a :: as ∧
    ∀ v ∈ visitsOf a, v.status.IsTerminated →
      (statuses s.node.m_children)[v.position]? = some v.status

theorem ParallelActivation.append {a : List Turn} {t : Turn}
    (ha : ParallelActivation m_successPolicy m_failurePolicy a)
    (ht : ParallelTurn m_successPolicy m_failurePolicy t)
    (hkept : ∀ v ∈ visitsOf a, v.status.IsTerminated → t.before[v.position]? = some v.status) :
    ParallelActivation m_successPolicy m_failurePolicy (a ++ [t]) := by
  refine ⟨List.forall_mem_append.mpr ⟨ha.turns, List.forall_mem_singleton.mpr ht⟩, ?_⟩
  rw [visitsOf_append, List.pairwise_append]
  refine ⟨ha.once, ?_, fun v hv v' hv' hterminated hposition => ?_⟩
  · have hnodup : (t.visits.map Visit.position).Nodup := by
      rw [ht.inOrder]
      exact List.nodup_range
    refine (List.pairwise_map.mp hnodup).imp fun hne _ heq => ?_
    exact absurd heq.symm hne
  · obtain ⟨r, hr, hticked, -⟩ := ht.ticked v' hv'
    rw [hposition, hkept v hv hterminated] at hr
    obtain rfl := Option.some.inj hr
    exact Bool.eq_false_iff.mpr fun h => hticked.mp h hterminated

theorem ParallelRun.step {s t : Watched W} {e : Watched.Event W}
    (h : Watched.step act s e = some t)
    (hs : ParallelRun m_successPolicy m_failurePolicy s) :
    ParallelRun m_successPolicy m_failurePolicy t := by
  cases e with
  | passes env =>
    cases h
    exact ⟨hs.kind, hs.recorded, hs.going⟩
  | tick f fuel =>
    obtain ⟨htick, hrecord⟩ := Watched.step_tick.mp h
    obtain ⟨isMonitor, hkind⟩ := hs.kind
    obtain ⟨-, -, -, -, -, -, -, hkind', -⟩ := tickNode_parallel hkind htick
    have hturn := parallelTurn hkind htick
    obtain ⟨a, rest, hrecorded, hkept, hmem, hrest⟩ :=
      exists_record hs.going (by simp [visitsOf]) (s.turn f fuel t.node)
    rw [← hrecord] at hrecorded
    have ha : ParallelActivation m_successPolicy m_failurePolicy a := by
      rcases hmem with rfl | hmem
      · exact ⟨by simp, .nil⟩
      · exact hs.recorded a hmem
    refine ⟨⟨isMonitor, hkind'⟩, ?_, fun _ => ⟨_, rest, hrecorded, fun v hv hr => ?_⟩⟩
    · rw [hrecorded]
      exact List.forall_mem_cons.mpr
        ⟨ha.append hturn hkept, fun a' ha' => hs.recorded a' (hrest a' ha')⟩
    · rw [visitsOf_append] at hv
      rcases List.mem_append.mp hv with hv | hv
      · exact (results_stay hkind htick hr).1 _ (hkept v hv hr)
      · exact (results_stay hkind htick hr).2 v hv rfl

end

/-- Where a tick returns `Running`, there is a child to wait for. -/
def NotStuck (t : Turn) : Prop := t.returned = .running → .running ∈ t.after

/-- What the children come to if all of them have their turn, where those that have terminated
keep their result. -/
def results {W : Type} (f : Tick W) : List Behavior → World W → Option (List EStatus)
  | [], _ => some []
  | c :: cs, w => do
    let (c, w) ← tickUnterminated f c w
    let rest ← results f cs w
    some (c.m_status :: rest)

/-- Unless both policies require all children, the node is not ticked when some of its children
have succeeded, the others have failed, and none is running. -/
def ResultsAgree {W : Type} (m_successPolicy m_failurePolicy : Policy) (s : Watched W) :
    Watched.Event W → Prop
  | .tick f _ => m_successPolicy = .requireAll → m_failurePolicy = .requireAll →
    ∀ rs, results f s.node.m_children s.world = some rs →
      .success ∈ rs → .failure ∈ rs → .running ∈ rs
  | .passes _ => True

section

variable {W : Type} {act : String → W → EStatus × W} {f : Tick W} {fuel : Nat}
  {m_successPolicy m_failurePolicy : Policy} {isMonitor : Bool} {b b' : Behavior}
  {w w' : World W}

/-- With `RequireAll` for both nothing stops the loop. -/
theorem results_eq {cs cs' : List Behavior} {early : Option EStatus}
    {successCount failureCount successCount' failureCount' : Nat}
    (h : parallelLoop f .requireAll .requireAll cs successCount failureCount w =
      some (early, cs', successCount', failureCount', w')) :
    results f cs w = some (statuses cs') := by
  induction cs generalizing cs' successCount failureCount w with
  | nil =>
    cases h
    rfl
  | cons c cs ih =>
    obtain ⟨c', u, hc, ⟨hstops, -⟩ | ⟨-, rest, rfl, hrest⟩⟩ := parallelLoop_turn h
    · simp [Parallel.stops] at hstops
    · simp [results, hc, ih hrest, statuses]

/-- The children that a tick comes to have a result then, or are running. -/
theorem isOutcome_parallelLoop {cs cs' : List Behavior} {early : Option EStatus}
    {successCount failureCount successCount' failureCount' : Nat} (hf : ReturnsOutcomes f)
    (h : parallelLoop f m_successPolicy m_failurePolicy cs successCount failureCount w =
      some (early, cs', successCount', failureCount', w')) (hearly : early = none) :
    ∀ s ∈ statuses cs', s.IsOutcome := by
  induction cs generalizing cs' successCount failureCount w with
  | nil =>
    cases h
    exact nofun
  | cons c cs ih =>
    obtain ⟨c', u, hc, ⟨-, -, -, rfl⟩ | ⟨-, rest, rfl, hrest⟩⟩ := parallelLoop_turn h
    · cases hearly
    · refine List.forall_mem_cons.mpr ⟨?_, ih hrest⟩
      obtain ⟨hterminated, rfl, -⟩ | ⟨-, htick⟩ := tickUnterminated_eq_some hc
      · exact hterminated.imp id .inl
      · exact hf _ _ _ _ htick

/-- None of the children stops a loop that has come to its end. -/
theorem not_stops_of_parallelLoop {cs cs' : List Behavior} {early : Option EStatus}
    {successCount failureCount successCount' failureCount' : Nat}
    (h : parallelLoop f m_successPolicy m_failurePolicy cs successCount failureCount w =
      some (early, cs', successCount', failureCount', w')) (hearly : early = none) :
    ∀ s ∈ statuses cs', Parallel.stops m_successPolicy m_failurePolicy s = false := by
  induction cs generalizing cs' successCount failureCount w with
  | nil =>
    cases h
    exact nofun
  | cons c cs ih =>
    obtain ⟨c', u, hc, ⟨-, -, -, rfl⟩ | ⟨hstops, rest, rfl, hrest⟩⟩ := parallelLoop_turn h
    · cases hearly
    · exact List.forall_mem_cons.mpr ⟨hstops, ih hrest⟩

theorem isTerminated_of_parallelLoop {cs cs' : List Behavior} {s : EStatus}
    {successCount failureCount successCount' failureCount' : Nat}
    (h : parallelLoop f m_successPolicy m_failurePolicy cs successCount failureCount w =
      some (some s, cs', successCount', failureCount', w')) : s.IsTerminated := by
  obtain ⟨v, hfind, rfl⟩ := Option.map_eq_some_iff.mp (parallelPass (p := 0) h).early.symm
  have hstops := List.find?_some hfind
  exact Parallel.isTerminated_of_stops hstops

/-- The result is `Running` unless all children have come to one that is counted. -/
theorem parallelResult_eq_running {cs' : List Behavior} :
    parallelResult m_successPolicy m_failurePolicy cs'.length
        (0 + (statuses cs').count .success) (0 + (statuses cs').count .failure) = .running ↔
      ¬ (m_failurePolicy = .requireAll ∧ ∀ s ∈ statuses cs', s = .failure) ∧
        ¬ (m_successPolicy = .requireAll ∧ ∀ s ∈ statuses cs', s = .success) := by
  simp only [parallelResult, count_statuses]
  split_ifs with hfailure hsuccess
  · exact iff_of_false (by decide) fun h => h.1 hfailure
  · exact iff_of_false (by decide) fun h => h.2 hsuccess
  · exact iff_of_true rfl ⟨hfailure, hsuccess⟩

theorem notStuck_iff {s : Watched W}
    (hkind : s.node.self.kind = .parallel isMonitor m_successPolicy m_failurePolicy)
    (hsome : s.node.m_children ≠ []) (hf : ReturnsOutcomes f)
    (h : tickNode act f fuel s.node s.world = some (b', w')) :
    NotStuck (s.turn f fuel b') ↔
      ResultsAgree m_successPolicy m_failurePolicy s (.tick f fuel) := by
  obtain ⟨cs, early, sc, fc, u, hloop, hstatus, -, hafter⟩ := tickNode_parallel hkind h
  have hlength : cs.length = _ := (visited_visitsParallel [] hloop).length_eq
  change (b'.m_status = .running → .running ∈ statuses b'.m_children) ↔ _
  constructor
  · rintro hnot rfl rfl rs hrs hsuccess hfailure
    rw [results_eq hloop] at hrs
    obtain rfl := Option.some.inj hrs
    obtain rfl : early = none := by
      simp [(parallelPass (p := 0) hloop).early, Parallel.stops]
    obtain ⟨rfl, rfl⟩ := parallelLoop_counts hloop
    have hrunning : b'.m_status = .running := by
      refine hstatus.trans (parallelResult_eq_running.mpr ⟨fun h => ?_, fun h => ?_⟩)
      · cases h.2 _ hsuccess
      · cases h.2 _ hfailure
    simpa [hafter, hrunning] using hnot hrunning
  · intro hagree hrunning
    rw [hafter, if_pos hrunning]
    obtain rfl : early = none := by
      cases early with
      | none => rfl
      | some r =>
        rcases isTerminated_of_parallelLoop hloop with rfl | rfl <;>
          cases hrunning.symm.trans hstatus
    obtain ⟨rfl, rfl⟩ := parallelLoop_counts hloop
    have hstops := not_stops_of_parallelLoop hloop rfl
    have houtcome := isOutcome_parallelLoop hf hloop rfl
    rw [hrunning, Option.getD_none, eq_comm, parallelResult_eq_running] at hstatus
    obtain ⟨hfailure, hsuccess⟩ := hstatus
    refine Classical.byContradiction fun hnone => ?_
    have hresult : ∀ s ∈ statuses cs, s = .success ∨ s = .failure := fun s hs =>
      (houtcome s hs).imp id fun h => h.resolve_right fun hr => hnone (hr ▸ hs)
    have hsp : .success ∈ statuses cs → m_successPolicy = .requireAll := fun h => by
      have := hstops _ h
      cases m_successPolicy <;> simp_all [Parallel.stops]
    have hfp : .failure ∈ statuses cs → m_failurePolicy = .requireAll := fun h => by
      have := hstops _ h
      cases m_failurePolicy <;> simp_all [Parallel.stops]
    obtain ⟨r, hr⟩ : ∃ r, r ∈ statuses cs := by
      refine List.exists_mem_of_ne_nil _ fun hnil => hsome ?_
      rw [List.nil_append] at hlength
      rw [← List.length_eq_zero_iff, ← hlength]
      simpa [statuses] using hnil
    by_cases hs : .success ∈ statuses cs
    · by_cases hf' : .failure ∈ statuses cs
      · obtain rfl := hsp hs
        obtain rfl := hfp hf'
        exact hnone (hagree rfl rfl _ (results_eq hloop) hs hf')
      · exact hsuccess ⟨hsp hs, fun s h => (hresult s h).resolve_right fun h' => hf' (h' ▸ h)⟩
    · have hall : ∀ s ∈ statuses cs, s = .failure := fun s h =>
        (hresult s h).resolve_left fun h' => hs (h' ▸ h)
      exact hfailure ⟨hfp (hall r hr ▸ hr), hall⟩

theorem parallel_children_ne_nil
    (hkind : b.self.kind = .parallel isMonitor m_successPolicy m_failurePolicy)
    (h : tickNode act f fuel b w = some (b', w')) (hsome : b.m_children ≠ []) :
    b'.m_children ≠ [] := by
  obtain ⟨cs, early, sc, fc, u, hloop, -, -, hafter⟩ := tickNode_parallel hkind h
  have hlength : cs.length = b.m_children.length := (visited_visitsParallel [] hloop).length_eq
  have hsize : b'.m_children.length = cs.length := by
    have := congrArg List.length hafter
    split_ifs at this <;> simpa [statuses] using this
  intro hnil
  rw [hnil, List.length_nil, hlength, eq_comm, List.length_eq_zero_iff] at hsize
  exact hsome hsize

end

/-- A `Parallel` with children never waits for nothing in exactly those runs in which, where both
policies require all children, it is not ticked to a mixed result. -/
theorem parallel_not_stuck_iff {W : Type} (act : String → W → EStatus × W) (b : Behavior)
    (isMonitor : Bool) (m_successPolicy m_failurePolicy : Policy)
    (hkind : b.self.kind = .parallel isMonitor m_successPolicy m_failurePolicy)
    (hsome : b.m_children ≠ []) (world : World W) (es : List (Watched.Event W))
    (hes : ∀ e ∈ es, e.ReturnsOutcomes) (t : Watched W)
    (h : run (Watched.step act) ⟨b, world, []⟩ es = some t) :
    (∀ a ∈ t.activations, ∀ u ∈ a, NotStuck u) ↔
      Along (Watched.step act) (ResultsAgree m_successPolicy m_failurePolicy)
        ⟨b, world, []⟩ es := by
  refine Watched.turns_iff_along (I := fun s : Watched W => s.node.m_children ≠ [] ∧
    s.node.self.kind = .parallel isMonitor m_successPolicy m_failurePolicy) ?_ ?_
    (fun _ _ => trivial) h hes ⟨hsome, hkind⟩ rfl
  · intro s e t hst _ hs
    cases e with
    | tick f fuel =>
      obtain ⟨htick, -⟩ := Watched.step_tick.mp hst
      obtain ⟨-, -, -, -, -, -, -, hkind', -⟩ := tickNode_parallel hs.2 htick
      exact ⟨parallel_children_ne_nil hs.2 htick hs.1, hkind'⟩
    | passes env =>
      cases hst
      exact hs
  · exact fun s f fuel b' w' htick hf hs => notStuck_iff hs.2 hs.1 hf htick

open Watched in
/-- The search is still running when the scan has failed. -/
theorem parallel_not_stuck_iff_search : ∃ t, run (Watched.step scripted)
      ⟨Behavior.ofActions (.parallel false .requireAll .requireAll) ["scan", "search"],
        { env := [.failure, .running] }, []⟩ (ticks 1) = some t ∧
    ((∀ a ∈ t.activations, ∀ u ∈ a, NotStuck u) ↔
      Along (Watched.step scripted) (ResultsAgree .requireAll .requireAll)
        ⟨Behavior.ofActions (.parallel false .requireAll .requireAll) ["scan", "search"],
          { env := [.failure, .running] }, []⟩ (ticks 1)) := by
  have h : run (Watched.step scripted)
    ⟨Behavior.ofActions (.parallel false .requireAll .requireAll) ["scan", "search"],
      { env := [.failure, .running] }, []⟩ (ticks 1) = some _ := rfl
  exact ⟨_, h, parallel_not_stuck_iff scripted _ false _ _ rfl
    (by simp [Behavior.ofActions]) _ _
    returnsOutcomes_ticks _ h⟩

open Watched in
/-- One child has failed, the other has succeeded, and the node goes on running. -/
theorem parallel_stuck : ∃ t, run (Watched.step scripted)
      ⟨Behavior.ofActions (.parallel false .requireAll .requireAll) ["scan", "search"],
        { env := [.failure, .success] }, []⟩ (ticks 1) = some t ∧
    (∀ e ∈ ticks 1, e.ReturnsOutcomes) ∧ ¬ ∀ a ∈ t.activations, ∀ u ∈ a, NotStuck u := by
  have h : run (Watched.step scripted)
    ⟨Behavior.ofActions (.parallel false .requireAll .requireAll) ["scan", "search"],
      { env := [.failure, .success] }, []⟩ (ticks 1) = some _ := rfl
  refine ⟨_, h, returnsOutcomes_ticks, fun hall => ?_⟩
  have hnot := hall _ List.mem_cons_self _ List.mem_cons_self rfl
  revert hnot
  decide

/-! ## A new activation -/

/-- Every child that the update has come to, it has ticked. -/
def AllTicked (t : Turn) : Prop := ∀ v ∈ t.visits, v.ticked = true

/-- A child that has terminated stands behind one whose tick stops the loop. -/
def Anew {W : Type} (f : Tick W) (m_successPolicy m_failurePolicy : Policy) :
    List Behavior → World W → Prop
  | [], _ => True
  | c :: cs, w => ¬ c.m_status.IsTerminated ∧ ∀ c' w', f c w = some (c', w') →
    Parallel.stops m_successPolicy m_failurePolicy c'.m_status = false →
      Anew f m_successPolicy m_failurePolicy cs w'

/-- The node is not entered with a child that has terminated before, unless it comes to a result
in front of that child. -/
def EntersAnew {W : Type} (m_successPolicy m_failurePolicy : Policy) (s : Watched W) :
    Watched.Event W → Prop
  | .tick f _ => s.node.isRunning = false →
    Anew f m_successPolicy m_failurePolicy s.node.m_children s.world
  | .passes _ => True

theorem anew_iff {W : Type} {f : Tick W} {m_successPolicy m_failurePolicy : Policy}
    {p successCount failureCount successCount' failureCount' : Nat}
    {early : Option EStatus} {cs cs' : List Behavior} {w w' : World W}
    (h : parallelLoop f m_successPolicy m_failurePolicy cs successCount failureCount w =
      some (early, cs', successCount', failureCount', w')) :
    (∀ v ∈ visitsParallel f m_successPolicy m_failurePolicy p cs w, v.ticked = true) ↔
      Anew f m_successPolicy m_failurePolicy cs w := by
  induction cs generalizing p cs' successCount failureCount w with
  | nil => simp [visitsParallel, Anew]
  | cons c cs ih =>
    obtain ⟨c', u, hc, hrest⟩ := parallelLoop_turn h
    have hhere : (!c.isTerminated) = true ↔ ¬ c.m_status.IsTerminated := by
      rw [← Behavior.isTerminated_iff]
      simp
    simp only [visitsParallel, hc, Anew, List.forall_mem_cons, hhere]
    refine and_congr_right fun hnot => ?_
    obtain ⟨hterminated, -⟩ | ⟨-, htick⟩ := tickUnterminated_eq_some hc
    · exact absurd hterminated hnot
    · obtain ⟨hstops, -⟩ | ⟨hstops, rest, rfl, hrest⟩ := hrest
      · simp [hstops, htick]
      · simp [hstops, htick, ih (p := p + 1) hrest]

/-- The tick that begins an activation. -/
def BeginsAnew (as : List (List Turn)) : Prop := ∀ a ∈ as, ∀ u ∈ a.head?, AllTicked u

/-- What the runs of a `Parallel` keep, whether or not its activations begin anew. -/
structure ParallelEntered (m_successPolicy m_failurePolicy : Policy) {W : Type} (s : Watched W) :
    Prop where
  kind : ∃ isMonitor, s.node.self.kind = .parallel isMonitor m_successPolicy m_failurePolicy
  going : s.node.isRunning = true → ∃ t a as, s.activations = (t :: a) :: as

theorem ParallelEntered.step {W : Type} {act : String → W → EStatus × W}
    {m_successPolicy m_failurePolicy : Policy} {s t : Watched W} {e : Watched.Event W}
    (h : Watched.step act s e = some t) (hs : ParallelEntered m_successPolicy m_failurePolicy s) :
    ParallelEntered m_successPolicy m_failurePolicy t ∧
      (BeginsAnew t.activations ↔
        BeginsAnew s.activations ∧ EntersAnew m_successPolicy m_failurePolicy s e) := by
  cases e with
  | passes env =>
    cases h
    exact ⟨⟨hs.kind, hs.going⟩, (and_iff_left trivial).symm⟩
  | tick f fuel =>
    obtain ⟨htick, hrecord⟩ := Watched.step_tick.mp h
    obtain ⟨isMonitor, hkind⟩ := hs.kind
    obtain ⟨cs, early, sc, fc, u, hloop, -, hkind', -⟩ := tickNode_parallel hkind htick
    cases hrunning : s.node.isRunning with
    | true =>
      obtain ⟨t₀, a, as, has⟩ := hs.going hrunning
      rw [hrunning, has] at hrecord
      refine ⟨⟨⟨isMonitor, hkind'⟩, fun _ => ⟨t₀, _, as, hrecord⟩⟩, ?_⟩
      rw [hrecord, has]
      have hfree : EntersAnew m_successPolicy m_failurePolicy s (.tick f fuel) := fun h => by
        cases hrunning.symm.trans h
      rw [and_iff_left hfree]
      simp [BeginsAnew, record]
    | false =>
      rw [hrunning, record_entered] at hrecord
      refine ⟨⟨⟨isMonitor, hkind'⟩, fun _ => ⟨_, _, _, hrecord⟩⟩, ?_⟩
      have hfirst : AllTicked (s.turn f fuel t.node) ↔
          EntersAnew m_successPolicy m_failurePolicy s (.tick f fuel) := by
        unfold AllTicked EntersAnew
        change (∀ v ∈ visits f fuel s.node.entered s.node.m_children s.world, _) ↔ _
        rw [visits_parallel hkind, anew_iff hloop]
        exact ⟨fun h _ => h, fun h => h hrunning⟩
      rw [hrecord, ← hfirst, BeginsAnew, List.forall_mem_cons, and_comm]
      simp [BeginsAnew]

theorem beginsAnew_iff_along {W : Type} {act : String → W → EStatus × W}
    {m_successPolicy m_failurePolicy : Policy} {s t : Watched W} {es : List (Watched.Event W)}
    (h : run (Watched.step act) s es = some t)
    (hs : ParallelEntered m_successPolicy m_failurePolicy s) (hnone : s.activations = []) :
    BeginsAnew t.activations ↔
      Along (Watched.step act) (EntersAnew m_successPolicy m_failurePolicy) s es := by
  refine run_iff_along (I := ParallelEntered m_successPolicy m_failurePolicy)
    (P := fun s => BeginsAnew s.activations) (fun _ _ _ h hs => (hs.step h).1)
    (fun _ _ _ h hs ht => ((hs.step h).2.mp ht).1)
    (fun _ _ _ h hs hP => (hs.step h).2.trans (and_iff_right hP)) h hs ?_
  rw [hnone]
  exact nofun

/-- The loop of a `Repeat` is a run of ticks of its child. -/
theorem run_repeatLoop {W : Type} {act : String → W → EStatus × W} {f : Tick W}
    {m_limit m_conunter m_conunter' : Int} {fuel k : Nat} {s : EStatus} {c c' : Behavior}
    {w w' : World W} (as : List (List Turn))
    (h : repeatLoop (tickNode act f k) m_limit fuel m_conunter c w =
      some (s, m_conunter', c', w')) :
    ∃ as', run (Watched.step act) ⟨c, w, as⟩ (List.replicate
      (visitsRepeat (tickNode act f k) m_limit fuel m_conunter c w).length (.tick f k)) =
        some ⟨c', w', as'⟩ := by
  induction fuel generalizing m_conunter c w as with
  | zero => cases h
  | succ fuel ih =>
    obtain ⟨hdone, rfl, rfl, rfl, rfl⟩ | ⟨hmore, c'', u, hc, ⟨hs, hstatus, rfl, rfl, rfl⟩ |
      ⟨hrunning, hfailure, hrest⟩⟩ := repeatLoop_succ h
    · have hvisits : visitsRepeat (tickNode act f k) m_limit (fuel + 1) m_conunter' c' w' = [] :=
        if_neg hdone
      rw [hvisits]
      exact ⟨as, rfl⟩
    · have hvisits : visitsRepeat (tickNode act f k) m_limit (fuel + 1) m_conunter' c w =
          [{ position := 0, status := c'.m_status }] := by
        simp [visitsRepeat, hmore, hc, hstatus, hs]
      rw [hvisits]
      exact ⟨_, run_cons_eq_some.mpr ⟨_, Option.map_eq_some_iff.mpr ⟨_, hc, rfl⟩, rfl⟩⟩
    · have hvisits : visitsRepeat (tickNode act f k) m_limit (fuel + 1) m_conunter c w =
          { position := 0, status := c''.m_status } ::
            visitsRepeat (tickNode act f k) m_limit fuel (m_conunter + 1) c'' u := by
        simp [visitsRepeat, hmore, hc, hrunning, hfailure]
      rw [hvisits]
      obtain ⟨as', hrun⟩ := ih _ hrest
      exact ⟨as', run_cons_eq_some.mpr ⟨_, Option.map_eq_some_iff.mpr ⟨_, hc, rfl⟩, hrun⟩⟩

/-- A `Parallel` begins its activations anew in exactly those runs in which it is not entered
with a child that has kept its result, or comes to its own result in front of that child. So it
is in the repetitions of a `Repeat`, which are such a run. -/
theorem parallel_anew_iff {W : Type} (act : String → W → EStatus × W) (b : Behavior)
    (isMonitor : Bool) (m_successPolicy m_failurePolicy : Policy)
    (hkind : b.self.kind = .parallel isMonitor m_successPolicy m_failurePolicy)
    (hb : b.isRunning = false) (world : World W) :
    (∀ es t, run (Watched.step act) ⟨b, world, []⟩ es = some t →
      (BeginsAnew t.activations ↔ Along (Watched.step act)
        (EntersAnew m_successPolicy m_failurePolicy) ⟨b, world, []⟩ es)) ∧
    ∀ f k m_limit fuel m_conunter s m_conunter' b' w',
      repeatLoop (tickNode act f k) m_limit fuel m_conunter b world =
        some (s, m_conunter', b', w') →
      ∃ es as, es = List.replicate
          (visitsRepeat (tickNode act f k) m_limit fuel m_conunter b world).length (.tick f k) ∧
        run (Watched.step act) ⟨b, world, []⟩ es = some ⟨b', w', as⟩ ∧
        (BeginsAnew as ↔ Along (Watched.step act)
          (EntersAnew m_successPolicy m_failurePolicy) ⟨b, world, []⟩ es) := by
  have hstart : ParallelEntered m_successPolicy m_failurePolicy (⟨b, world, []⟩ : Watched W) :=
    ⟨⟨isMonitor, hkind⟩, fun hrunning => by cases hb.symm.trans hrunning⟩
  refine ⟨fun es t h => beginsAnew_iff_along h hstart rfl, ?_⟩
  intro f k m_limit fuel m_conunter s m_conunter' b' w' h
  obtain ⟨as, hrun⟩ := run_repeatLoop [] h
  exact ⟨_, as, rfl, hrun, beginsAnew_iff_along hrun hstart rfl⟩

open Watched in
/-- The search has succeeded while the scan has been running, and in the next activation the scan
succeeds in front of it. -/
theorem parallel_anew_iff_search : ∃ t, run (Watched.step scripted)
      ⟨Behavior.ofActions (.parallel false .requireOne .requireAll) ["scan", "search"],
        { env := [.running, .success, .success] }, []⟩ (ticks 2) = some t ∧
    (BeginsAnew t.activations ↔ Along (Watched.step scripted) (EntersAnew .requireOne .requireAll)
      ⟨Behavior.ofActions (.parallel false .requireOne .requireAll) ["scan", "search"],
        { env := [.running, .success, .success] }, []⟩ (ticks 2)) := by
  have h : run (Watched.step scripted)
    ⟨Behavior.ofActions (.parallel false .requireOne .requireAll) ["scan", "search"],
      { env := [.running, .success, .success] }, []⟩ (ticks 2) = some _ := rfl
  exact ⟨_, h, (parallel_anew_iff scripted _ false _ _ rfl (by decide) _).1 _ _ h⟩

open Watched in
/-- The second activation counts the success of the first one, and so does the second repetition
of a `Repeat`: of the two results that are written down it uses one. -/
theorem scan_not_repeated :
    (∃ t, run (Watched.step scripted)
        ⟨Behavior.ofActions (.parallel false .requireAll .requireOne) ["scan"],
          { env := [.success, .success] }, []⟩ (ticks 2) = some t ∧
      ¬ BeginsAnew t.activations) ∧
    ∃ b w, tick scripted 4 (.mk { m_uid := "again", kind := .repeats 0 2 }
        [Behavior.ofActions (.parallel false .requireAll .requireOne) ["scan"]])
        { env := [.success, .success] } = some (b, w) ∧
      b.m_status = .success ∧ w.env = [.success] := by
  have h : run (Watched.step scripted)
    ⟨Behavior.ofActions (.parallel false .requireAll .requireOne) ["scan"],
      { env := [.success, .success] }, []⟩ (ticks 2) = some _ := rfl
  have hrepeat : tick scripted 4 (.mk { m_uid := "again", kind := .repeats 0 2 }
    [Behavior.ofActions (.parallel false .requireAll .requireOne) ["scan"]])
    { env := [.success, .success] } = some _ := rfl
  refine ⟨⟨_, h, fun hall => ?_⟩, _, _, hrepeat, rfl, rfl⟩
  cases hall _ List.mem_cons_self _ rfl _ List.mem_cons_self

end NBRaft.BehaviorTree
