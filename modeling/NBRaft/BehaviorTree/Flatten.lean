import NBRaft.BehaviorTree.Returns

/-!
# Sequences of sequences, selectors of selectors

A `Sequence` over `Sequence`s ticks the same children, in the same order and with the same results,
as the one `Sequence` over all of them, and so does a `Selector` over `Selector`s. The one keeps a
cursor for every level and the other a single one; the two agree when the single one counts all the
children in front of the inner node that is running, and those that this node has behind it.
-/

namespace NBRaft.BehaviorTree

open Transition

/-! ## The nodes that tick their children in order -/

/-- A `Sequence` goes on after success, and a `Selector` after failure. -/
def InOrder (go : EStatus) (b : Behavior) : Prop :=
  (∃ isFilter m_currentChild, b.self.kind = .sequence isFilter m_currentChild ∧ go = .success) ∨
    ∃ m_currentChild, b.self.kind = .selector m_currentChild ∧ go = .failure

namespace Behavior

/-- The child from which on the next tick ticks them. -/
def start (b : Behavior) : Nat :=
  match b.entered.kind with
  | .sequence _ m_currentChild => m_currentChild
  | _ => 0

/-- The children that the next tick is still to tick. -/
def pending (b : Behavior) : List Behavior := b.m_children.drop b.start

/-- Those that are behind it. -/
def passed (b : Behavior) : List Behavior := b.m_children.take b.start

theorem passed_append_pending (b : Behavior) : b.passed ++ b.pending = b.m_children :=
  List.take_append_drop _ _

theorem pending_of_start {b : Behavior} (h : b.start = 0) : b.pending = b.m_children := by
  simp [pending, h]

theorem passed_of_start {b : Behavior} (h : b.start = 0) : b.passed = [] := by
  simp [passed, h]

end Behavior

open Behavior

section

variable {W : Type} {act : String → W → EStatus × W} {fuel : Nat} {go s : EStatus} {k : Nat}
  {b b' : Behavior} {cs : List Behavior} {w w' u : World W}

theorem start_sequence {isFilter : Bool} {m : Nat} (h : b.self.kind = .sequence isFilter m) :
    b.entered.kind = .sequence isFilter b.start := by
  unfold start
  rw [kind_entered, h]
  split <;> rfl

theorem start_selector {m : Nat} (h : b.self.kind = .selector m) :
    b.start = 0 ∧ ∃ m, b.entered.kind = .selector m := by
  have hentered : ∃ m, b.entered.kind = .selector m := by
    rw [kind_entered, h]
    split
    · exact ⟨m, rfl⟩
    · exact ⟨0, rfl⟩
  obtain ⟨m, hentered⟩ := hentered
  exact ⟨by simp [start, hentered], m, hentered⟩

/-- A node that is not running starts anew. -/
theorem InOrder.start_of_ne (hb : InOrder go b) (h : b.m_status ≠ .running) : b.start = 0 := by
  have hrunning : b.isRunning = false := decide_eq_false h
  obtain ⟨isFilter, m, hkind, -⟩ | ⟨m, hkind, -⟩ := hb
  · simp [start, kind_entered, hrunning, hkind, Kind.onInitialize]
  · exact (start_selector hkind).1

/-- What a tick makes of the result of its update. -/
theorem exists_tick_of_onUpdate {n : Node}
    (h : onUpdate act (tick act fuel) fuel b.entered b.m_children w = some (s, n, cs, u))
    (hn : n.kind.isParallel = false) :
    ∃ b' w', tick act (fuel + 1) b w = some (b', w') ∧ SameEnv u w' ∧ b'.self.kind = n.kind ∧
      b'.m_status = s ∧ b'.m_children = cs := by
  obtain ⟨b', w', htick⟩ := exists_tickNode (Option.isSome_of_eq_some h)
  obtain ⟨n', cs', u', h', hnode, henv, hchildren⟩ := tickNode_update htick
  rw [h, Option.some.injEq, Prod.mk.injEq, Prod.mk.injEq, Prod.mk.injEq] at h'
  obtain ⟨hs, rfl, rfl, rfl⟩ := h'
  rw [if_neg (by simp [hn])] at hchildren
  exact ⟨b', w', htick, henv.symm, hnode, hs.symm, hchildren⟩

/-- The next tick goes through the children that are pending. -/
theorem exists_tick_inOrder (hb : InOrder go b)
    (h : tickWhile (tick act fuel) go b.pending w = some (s, cs, k, u)) :
    ∃ b' w', tick act (fuel + 1) b w = some (b', w') ∧ SameEnv u w' ∧ InOrder go b' ∧
      b'.m_status = s ∧ b'.m_children = b.passed ++ cs ∧
      (s = .running → go = .success → b'.start = b.start + k) := by
  obtain ⟨isFilter, m, hkind, rfl⟩ | ⟨m, hkind, rfl⟩ := hb
  · have hupdate : onUpdate act (tick act fuel) fuel b.entered b.m_children w =
        some (s, { b.entered with kind := .sequence isFilter (b.start + k) },
          b.passed ++ cs, u) := by
      unfold pending at h
      simp [onUpdate, start_sequence hkind, h, passed]
    obtain ⟨b', w', htick, hu, hkind', hs, hcs⟩ := exists_tick_of_onUpdate hupdate rfl
    refine ⟨b', w', htick, hu, .inl ⟨_, _, hkind', rfl⟩, hs, hcs, fun hrunning _ => ?_⟩
    have hisRunning : b'.isRunning = true := decide_eq_true (hs.trans hrunning)
    simp [start, kind_entered, hisRunning, hkind']
  · obtain ⟨hstart, m, hentered⟩ := start_selector hkind
    rw [pending_of_start hstart] at h
    have hupdate : onUpdate act (tick act fuel) fuel b.entered b.m_children w =
        some (s, b.entered, cs, Selector.stopsAt k s cs u) := by
      simp [onUpdate, hentered, h]
    obtain ⟨b', w', htick, hu, hkind', hs, hcs⟩ :=
      exists_tick_of_onUpdate hupdate (by rw [hentered]; rfl)
    refine ⟨b', w', htick, ?_, .inr ⟨_, hkind'.trans hentered, rfl⟩, hs, ?_, by simp⟩
    · simpa [SameEnv, Selector.stopsAt] using hu
    · rw [passed_of_start hstart, hcs, List.nil_append]

/-- A tick that returns has gone through the children that were pending. -/
theorem exists_tickWhile_of_tick (hb : InOrder go b) (h : tick act (fuel + 1) b w = some (b', w')) :
    ∃ s cs k u, tickWhile (tick act fuel) go b.pending w = some (s, cs, k, u) := by
  obtain ⟨n, cs, u, hupdate, -⟩ := tickNode_update h
  obtain ⟨isFilter, m, hkind, rfl⟩ | ⟨m, hkind, rfl⟩ := hb
  · simp only [onUpdate, start_sequence hkind] at hupdate
    obtain ⟨⟨s, rest, k, u⟩, hloop, -⟩ := Option.bind_eq_some_iff.mp hupdate
    exact ⟨s, rest, k, u, hloop⟩
  · obtain ⟨hstart, m, hentered⟩ := start_selector hkind
    simp only [onUpdate, hentered] at hupdate
    obtain ⟨⟨s, rest, k, u⟩, hloop, -⟩ := Option.bind_eq_some_iff.mp hupdate
    exact ⟨s, rest, k, u, by rwa [pending_of_start hstart]⟩

/-! ## One loop through two lists -/

theorem length_tickWhile {f : Tick W} {cs' : List Behavior}
    (h : tickWhile f go cs w = some (s, cs', k, w')) :
    cs'.length = cs.length ∧ k ≤ cs.length ∧ (s = go → k = cs.length) := by
  induction cs generalizing cs' k w with
  | nil =>
    cases h
    exact ⟨rfl, Nat.le_refl _, fun _ => rfl⟩
  | cons c cs ih =>
    obtain ⟨c', u, -, ⟨hgo, rfl, rfl, rfl, rfl⟩ | ⟨rest, k', hgo, hrest, rfl, rfl⟩⟩ :=
      tickWhile_cons h
    · exact ⟨rfl, Nat.zero_le _, fun hs => absurd hs hgo⟩
    · obtain ⟨hlength, hle, hall⟩ := ih hrest
      simp only [List.length_cons]
      exact ⟨by omega, by omega, fun hs => by rw [hall hs]⟩

/-- The loop stops in the first list, or goes on into the second. -/
theorem tickWhile_append {f : Tick W} {xs ys zs : List Behavior}
    (h : tickWhile f go (xs ++ ys) w = some (s, zs, k, w')) :
    ∃ s₁ xs' k₁ w₁, tickWhile f go xs w = some (s₁, xs', k₁, w₁) ∧
      ((s₁ ≠ go ∧ s = s₁ ∧ zs = xs' ++ ys ∧ k = k₁ ∧ w' = w₁) ∨
        (s₁ = go ∧ ∃ ys' k₂, tickWhile f go ys w₁ = some (s, ys', k₂, w') ∧ zs = xs' ++ ys' ∧
          k = k₁ + k₂)) := by
  induction xs generalizing zs k w with
  | nil => exact ⟨go, [], 0, w, rfl, .inr ⟨rfl, zs, k, h, rfl, (Nat.zero_add k).symm⟩⟩
  | cons x xs ih =>
    obtain ⟨x', u, hx, ⟨hgo, rfl, rfl, rfl, rfl⟩ | ⟨rest, k', hgo, hrest, rfl, rfl⟩⟩ :=
      tickWhile_cons h
    · refine ⟨_, x' :: xs, 0, _, ?_, .inl ⟨hgo, rfl, rfl, rfl, rfl⟩⟩
      simp [tickWhile, hx, hgo]
    · obtain ⟨s₁, xs', k₁, w₁, hxs, hcases⟩ := ih hrest
      refine ⟨s₁, x' :: xs', k₁ + 1, w₁, by simp [tickWhile, hx, hgo, hxs], ?_⟩
      obtain ⟨hs, rfl, rfl, rfl, rfl⟩ | ⟨hs, ys', k₂, hys, rfl, rfl⟩ := hcases
      · exact .inl ⟨hs, rfl, rfl, rfl, rfl⟩
      · exact .inr ⟨hs, ys', k₂, hys, rfl, Nat.add_right_comm k₁ k₂ 1⟩

/-! ## The loop over the inner nodes -/

/-- What the first of the nodes has behind it. -/
def passedFirst : List Behavior → List Behavior
  | [] => []
  | b :: _ => b.passed

theorem passedFirst_eq_nil {bs : List Behavior} (h : ∀ b ∈ bs, b.start = 0) :
    passedFirst bs = [] := by
  cases bs with
  | nil => rfl
  | cons b bs => exact passed_of_start (h b List.mem_cons_self)

/-- The children of all nodes: those the first has behind it, and those that are pending. -/
theorem flatMap_pending {bs : List Behavior} (h : ∀ b ∈ bs.tail, b.start = 0) :
    passedFirst bs ++ bs.flatMap pending = bs.flatMap m_children := by
  cases bs with
  | nil => rfl
  | cons b bs =>
    have htail : bs.flatMap pending = bs.flatMap m_children :=
      List.flatMap_congr fun c hc => pending_of_start (h c hc)
    simp [passedFirst, htail, ← List.append_assoc, passed_append_pending]

/-- The inner nodes have been ticked as one node over the children that are pending would have
ticked these: of the nodes `bs'` that the loop leaves the first `m` have been passed, of the
children `cs` the first `k`. -/
structure Advanced (go : EStatus) (bs : List Behavior) (s : EStatus) (cs : List Behavior) (k : Nat)
    (bs' : List Behavior) (m : Nat) : Prop where
  inOrder : ∀ b ∈ bs', InOrder go b
  children : bs'.flatMap m_children = passedFirst bs ++ cs
  front : ∀ b ∈ bs'.take m, b.start = 0
  behind : ∀ b ∈ bs'.drop (m + 1), b.start = 0
  finished : s ≠ .running ∨ go ≠ .success → ∀ b ∈ bs', b.start = 0
  position : s = .running → go = .success →
    ((bs'.take m).flatMap m_children).length + (passedFirst (bs'.drop m)).length =
      (passedFirst bs).length + k

theorem start_selector_go (hb : InOrder go b) (h : go ≠ .success) : b.start = 0 := by
  obtain ⟨_, _, -, rfl⟩ | ⟨m, hkind, -⟩ := hb
  · exact absurd rfl h
  · exact (start_selector hkind).1

/-- Inner nodes of which at most the first has begun are ticked as their children are. -/
theorem exists_tickWhile_inner {v v' : World W} {bs xs : List Behavior}
    (hbs : ∀ b ∈ bs, InOrder go b) (htail : ∀ b ∈ bs.tail, b.start = 0) (hv : SameEnv v w)
    (h : tickWhile (tick act fuel) go (bs.flatMap pending) v = some (s, xs, k, v'))
    (hgo : go ≠ .running) :
    ∃ bs' m w', tickWhile (tick act (fuel + 1)) go bs w = some (s, bs', m, w') ∧
      SameEnv v' w' ∧ Advanced go bs s xs k bs' m := by
  induction bs generalizing xs k v w with
  | nil =>
    cases h
    refine ⟨[], 0, w, rfl, hv, ?_⟩
    constructor
    · simp
    · rfl
    · simp
    · simp
    · simp
    · exact fun hs => absurd hs hgo
  | cons b bs ih =>
    obtain ⟨hb, hbs⟩ := List.forall_mem_cons.mp hbs
    rw [List.flatMap_cons] at h
    obtain ⟨s₁, xs', k₁, v₁, hfirst, hcases⟩ := tickWhile_append h
    obtain ⟨w₁, hfirst', hw₁⟩ := (refines_tick indistinct_sameEnv (Nat.le_refl fuel)).tickWhile
      hv hfirst
    obtain ⟨b', w₂, htick, hw₂, hb', hs, hchildren, hstart⟩ := exists_tick_inOrder hb hfirst'
    have hw : SameEnv v₁ w₂ := hw₁.trans hw₂
    obtain ⟨hlength, hle, hall⟩ := length_tickWhile hfirst
    have hrest : bs.flatMap pending = bs.flatMap m_children :=
      List.flatMap_congr fun c hc => pending_of_start (htail c hc)
    obtain ⟨hstop, rfl, rfl, rfl, rfl⟩ | ⟨hgo', ys', k₂, hsecond, rfl, rfl⟩ := hcases
    · refine ⟨b' :: bs, 0, w₂, by simp [tickWhile, htick, hs, hstop], hw, ?_⟩
      refine ⟨List.forall_mem_cons.mpr ⟨hb', hbs⟩, ?_, by simp, htail, ?_, ?_⟩
      · rw [List.flatMap_cons, hchildren, hrest, passedFirst, List.append_assoc]
      · intro hfin
        refine List.forall_mem_cons.mpr ⟨?_, htail⟩
        rcases hfin with hne | hne
        · exact hb'.start_of_ne (by rwa [hs])
        · exact start_selector_go hb' hne
      · intro hrunning hsuccess
        have hmin : b.passed.length = min b.start b.m_children.length := List.length_take
        have hmin' : b'.passed.length = min b'.start b'.m_children.length := List.length_take
        have hpending : b.pending.length = b.m_children.length - b.start := List.length_drop
        rw [hchildren, List.length_append, hstart hrunning hsuccess] at hmin'
        simp only [List.take_zero, List.flatMap_nil, List.length_nil, List.drop_zero, passedFirst]
        omega
    · have hbegin : b'.start = 0 := hb'.start_of_ne (by rw [hs, hgo']; exact hgo)
      obtain ⟨bs', m, w', hloop, hw', hrun⟩ :=
        ih hbs (fun c hc => htail c (List.mem_of_mem_tail hc)) hw hsecond
      have hnil : passedFirst bs = [] := passedFirst_eq_nil htail
      refine ⟨b' :: bs', m + 1, w', by simp [tickWhile, htick, hs, hgo', hloop], hw', ?_⟩
      refine ⟨List.forall_mem_cons.mpr ⟨hb', hrun.inOrder⟩, ?_, ?_, hrun.behind, ?_, ?_⟩
      · rw [List.flatMap_cons, hchildren, hrun.children, hnil, passedFirst, List.nil_append,
          List.append_assoc]
      · exact List.forall_mem_cons.mpr ⟨hbegin, hrun.front⟩
      · exact fun hfin => List.forall_mem_cons.mpr ⟨hbegin, hrun.finished hfin⟩
      · intro hrunning hsuccess
        have hposition := hrun.position hrunning hsuccess
        rw [hnil, List.length_nil] at hposition
        rw [List.take_succ_cons, List.flatMap_cons, List.drop_succ_cons, hchildren, passedFirst]
        simp only [List.length_append]
        have hk : k₁ = b.pending.length := hall hgo'
        omega

/-! ## The nested node and the flat one -/

/-- `b` is a node over inner nodes, and `flat` one over the children of these; both have come to
the same child. -/
structure Flattens (go : EStatus) (b flat : Behavior) : Prop where
  outer : InOrder go b
  single : InOrder go flat
  inner : ∀ c ∈ b.m_children, InOrder go c
  status : b.m_status = flat.m_status
  children : flat.m_children = b.m_children.flatMap m_children
  bound : b.start ≤ b.m_children.length
  front : ∀ c ∈ b.passed, c.start = 0
  behind : ∀ c ∈ b.pending.tail, c.start = 0
  start : flat.start = (b.passed.flatMap m_children).length + (passedFirst b.pending).length

section

variable {flat flat' : Behavior} {v v' : World W}

theorem Flattens.split (h : Flattens go b flat) :
    flat.passed = b.passed.flatMap m_children ++ passedFirst b.pending ∧
      flat.pending = b.pending.flatMap pending := by
  have hchildren : flat.m_children =
      (b.passed.flatMap m_children ++ passedFirst b.pending) ++ b.pending.flatMap pending := by
    rw [h.children, ← passed_append_pending b, List.flatMap_append, List.append_assoc,
      flatMap_pending h.behind]
  unfold passed pending
  rw [hchildren, h.start, ← List.length_append]
  exact ⟨List.take_left, List.drop_left⟩

/-- Where all nodes start anew there is nothing behind any of them. -/
theorem flattens_of_start (hb : InOrder go b) (hflat : InOrder go flat)
    (hinner : ∀ c ∈ b.m_children, InOrder go c ∧ c.start = 0) (hstatus : b.m_status = flat.m_status)
    (hchildren : flat.m_children = b.m_children.flatMap m_children) (hstart : b.start = 0)
    (hstart' : flat.start = 0) : Flattens go b flat := by
  have hnil : passedFirst b.m_children = [] := passedFirst_eq_nil fun c hc => (hinner c hc).2
  refine ⟨hb, hflat, fun c hc => (hinner c hc).1, hstatus, hchildren, ?_, ?_, ?_, ?_⟩
  · rw [hstart]
    exact Nat.zero_le _
  · simp [passed_of_start hstart]
  · rw [pending_of_start hstart]
    exact fun c hc => (hinner c (List.mem_of_mem_tail hc)).2
  · rw [hstart', passed_of_start hstart, pending_of_start hstart, hnil]
    rfl

/-- A tick of the one does what a tick of the other does. -/
theorem Flattens.tick (h : Flattens go b flat) (hgo : go ≠ .running) (hv : SameEnv v w)
    (htick : tick act (fuel + 1) flat v = some (flat', v')) :
    ∃ b' w', tick act (fuel + 2) b w = some (b', w') ∧ SameEnv v' w' ∧ Flattens go b' flat' := by
  obtain ⟨hpassed, hpending⟩ := h.split
  obtain ⟨s, cs, k, u, hloop⟩ := exists_tickWhile_of_tick h.single htick
  obtain ⟨_, _, htick', hu, hflat, hs, hcs, hstart⟩ := exists_tick_inOrder h.single hloop
  cases htick.symm.trans htick'
  rw [hpending] at hloop
  have hmem : ∀ c ∈ b.pending, InOrder go c := fun c hc => h.inner c (List.mem_of_mem_drop hc)
  obtain ⟨bs, m, u', hloop', hu', hrun⟩ :=
    exists_tickWhile_inner hmem h.behind hv hloop hgo
  obtain ⟨b', w', hb, hw', hb', hs', hbs, hstart'⟩ := exists_tick_inOrder h.outer hloop'
  obtain ⟨hlength, hle, -⟩ := length_tickWhile hloop'
  refine ⟨b', w', hb, (hu.symm.trans hu').trans hw', ?_⟩
  have hinner : ∀ c ∈ b'.m_children, InOrder go c := by
    rw [hbs]
    refine List.forall_mem_append.mpr ⟨fun c hc => ?_, hrun.inOrder⟩
    exact h.inner c (List.mem_of_mem_take hc)
  have hchildren : flat'.m_children = b'.m_children.flatMap m_children := by
    rw [hcs, hbs, hpassed, List.flatMap_append, hrun.children, List.append_assoc]
  by_cases hrunning : s = .running ∧ go = .success
  · -- both have stopped at the child that is running
    obtain ⟨hs₁, hsuccess⟩ := hrunning
    have hlengthPassed : b.passed.length = b.start := by
      rw [passed, List.length_take, Nat.min_eq_left h.bound]
    have hpassed' : b'.passed = b.passed ++ bs.take m := by
      rw [passed, hbs, hstart' hs₁ hsuccess, ← hlengthPassed, List.take_length_add_append]
    have hpending' : b'.pending = bs.drop m := by
      rw [pending, hbs, hstart' hs₁ hsuccess, ← hlengthPassed, List.drop_length_add_append]
    refine ⟨hb', hflat, hinner, hs'.trans hs.symm, hchildren, ?_, ?_, ?_, ?_⟩
    · rw [hbs, List.length_append, hstart' hs₁ hsuccess, hlengthPassed]
      omega
    · rw [hpassed']
      exact List.forall_mem_append.mpr ⟨h.front, hrun.front⟩
    · rw [hpending', List.tail_drop]
      exact hrun.behind
    · have hposition := hrun.position hs₁ hsuccess
      rw [hstart hs₁ hsuccess, h.start, hpassed', hpending', List.flatMap_append,
        List.length_append]
      omega
  · -- both start anew
    have hall : ∀ c ∈ bs, c.start = 0 := hrun.finished (not_and_or.mp hrunning)
    have hanew : ∀ c, InOrder go c → c.m_status = s → c.start = 0 := by
      intro c hc hcs
      by_cases hs₁ : s = .running
      · exact start_selector_go hc fun hsuccess => hrunning ⟨hs₁, hsuccess⟩
      · exact hc.start_of_ne (by rwa [hcs])
    have hcs' : ∀ c ∈ b'.m_children, c.start = 0 := by
      rw [hbs]
      exact List.forall_mem_append.mpr ⟨h.front, hall⟩
    exact flattens_of_start hb' hflat (fun c hc => ⟨hinner c hc, hcs' c hc⟩) (hs'.trans hs.symm)
      hchildren (hanew b' hb' hs') (hanew _ hflat hs)

end

end

/-! ## What a run shows -/

/-- The actions, with a record of the order in which they have been ticked. -/
def logged {W : Type} (act : String → W → EStatus × W) (uid : String) (env : W × List String) :
    EStatus × (W × List String) :=
  ((act uid env.1).1, ((act uid env.1).2, env.2 ++ [uid]))

/-- What the ticks of a root show, one for each change of the world: the status of the root after
the tick, the world that it leaves, and all actions that have been ticked until then, in their
order. -/
inductive Transcript {W : Type} (act : String → W → EStatus × W) :
    Behavior → World (W × List String) → List (W → W) → List (EStatus × W × List String) →
      Prop where
  | done {b : Behavior} {w : World (W × List String)} : Transcript act b w [] []
  | tick {b b' : Behavior} {w w' : World (W × List String)} {change : W → W}
    {changes : List (W → W)} {shown : List (EStatus × W × List String)}
    (htick : Ticks (logged act) b { w with env := (change w.env.1, w.env.2) } b' w')
    (hrest : Transcript act b' w' changes shown) :
    Transcript act b w (change :: changes) ((b'.m_status, w'.env) :: shown)

/-- What a run shows in which this fuel is enough for every tick. -/
def transcript {W : Type} (act : String → W → EStatus × W) (fuel : Nat) :
    Behavior → World (W × List String) → List (W → W) → Option (List (EStatus × W × List String))
  | _, _, [] => some []
  | b, w, change :: changes => do
    let (b', w') ← tick (logged act) fuel b { w with env := (change w.env.1, w.env.2) }
    let shown ← transcript act fuel b' w' changes
    some ((b'.m_status, w'.env) :: shown)

/-- A node over the children, as the constructor and their arrival leave it. -/
def CompositeClass.over (c : CompositeClass) (uid : String) (cs : List Behavior) : Behavior :=
  .mk (c.node uid cs.length) cs

section

variable {W : Type} {act : String → W → EStatus × W} {b flat : Behavior} {go : EStatus}
  {w v : World (W × List String)} {changes : List (W → W)}
  {shown shown' : List (EStatus × W × List String)}

theorem Transcript.of_eq_some {fuel : Nat} (h : transcript act fuel b w changes = some shown) :
    Transcript act b w changes shown := by
  induction changes generalizing b w shown with
  | nil =>
    cases h
    exact .done
  | cons change changes ih =>
    simp only [transcript, Option.bind_eq_bind, Option.bind_eq_some_iff, Option.some.injEq] at h
    obtain ⟨⟨b', w'⟩, htick, rest, hrest, rfl⟩ := h
    exact .tick ⟨fuel, htick⟩ (ih hrest)

theorem Transcript.unique (h : Transcript act b w changes shown)
    (h' : Transcript act b w changes shown') : shown = shown' := by
  induction h generalizing shown' with
  | done =>
    cases h'
    rfl
  | tick htick hrest ih =>
    cases h' with
    | tick htick' hrest' =>
      obtain ⟨rfl, rfl⟩ := htick.unique htick'
      rw [ih hrest']

/-- A node that keeps up with one whose ticks return shows the same as that in every run. -/
theorem exists_transcript_of_simulates {R : Behavior → Behavior → Prop}
    (hR : ∀ {b b' c : Behavior} {v v' w : World (W × List String)}, R b c → SameEnv v w →
      Ticks (logged act) b v b' v' → ∃ c' w', Ticks (logged act) c w c' w' ∧ SameEnv v' w' ∧
        c'.m_status = b'.m_status ∧ R b' c')
    {height : Nat} (h : R flat b) (hv : SameEnv v w) (hbuilt : Built (0 ≤ ·) height flat)
    (changes : List (W → W)) :
    ∃ shown, Transcript act b w changes shown ∧ Transcript act flat v changes shown := by
  induction changes generalizing b flat w v with
  | nil => exact ⟨[], .done, .done⟩
  | cons change changes ih =>
    obtain ⟨flat', v', fuel, hflat⟩ :
        Returns (logged act) flat { v with env := (change v.env.1, v.env.2) } :=
      hbuilt.returns_of_limited
    have hchanged : SameEnv { v with env := (change v.env.1, v.env.2) }
        { w with env := (change w.env.1, w.env.2) } := by
      simp only [SameEnv] at hv ⊢
      rw [hv]
    obtain ⟨b', w', hb, hv', hstatus, h'⟩ := hR h hchanged ⟨fuel, hflat⟩
    obtain ⟨shown, hshown, hshown'⟩ := ih h' hv' (hbuilt.of_tick hflat)
    refine ⟨(b'.m_status, w'.env) :: shown, .tick hb hshown, ?_⟩
    rw [hstatus, ← hv']
    exact .tick ⟨fuel, hflat⟩ hshown'

/-- What the two show in common is all that they show. -/
theorem transcript_iff_of_common (h : Transcript act b w changes shown)
    (h' : Transcript act flat v changes shown) (shown' : List (EStatus × W × List String)) :
    Transcript act b w changes shown' ↔ Transcript act flat v changes shown' := by
  constructor
  · intro hb
    obtain rfl := h.unique hb
    exact h'
  · intro hflat
    obtain rfl := h'.unique hflat
    exact h

/-- The two nodes show the same in every run. -/
theorem Flattens.transcript {height : Nat} (h : Flattens go b flat) (hgo : go ≠ .running)
    (hv : SameEnv v w) (hbuilt : Built (0 ≤ ·) height flat) (act : String → W → EStatus × W)
    (changes : List (W → W)) :
    ∃ shown, Transcript act b w changes shown ∧ Transcript act flat v changes shown := by
  refine exists_transcript_of_simulates (R := fun flat b => Flattens go b flat) ?_ h hv hbuilt
    changes
  intro flat flat' b v v' w h hv hticks
  obtain ⟨fuel, hflat⟩ := hticks
  cases fuel with
  | zero => cases hflat
  | succ fuel =>
    obtain ⟨b', w', hb, hv', h'⟩ := h.tick hgo hv hflat
    exact ⟨b', w', ⟨_, hb⟩, hv', h'.status, h'⟩

end

/-- Before the first tick all nodes start anew. -/
theorem flattens_over {c : CompositeClass} {go : EStatus}
    (hc : (c = .sequence ∧ go = .success) ∨ (c = .selector ∧ go = .failure)) (uid uid' : String)
    (inner : List (String × List Behavior)) :
    Flattens go (c.over uid (inner.map fun i => c.over i.1 i.2))
      (c.over uid' (inner.flatMap (·.2))) := by
  have hnode : ∀ uid cs, InOrder go (c.over uid cs) := by
    intro uid cs
    obtain ⟨rfl, rfl⟩ | ⟨rfl, rfl⟩ := hc
    · exact .inl ⟨_, _, rfl, rfl⟩
    · exact .inr ⟨_, rfl, rfl⟩
  have hstart : ∀ uid cs, (c.over uid cs).start = 0 := fun uid cs =>
    (hnode uid cs).start_of_ne (by simp [CompositeClass.over, CompositeClass.node])
  have hinner : ∀ d ∈ inner.map fun i => c.over i.1 i.2, InOrder go d ∧ d.start = 0 := by
    intro d hd
    obtain ⟨i, -, rfl⟩ := List.mem_map.mp hd
    exact ⟨hnode _ _, hstart _ _⟩
  refine flattens_of_start (hnode _ _) (hnode _ _) hinner rfl ?_ (hstart _ _) (hstart _ _)
  simp [CompositeClass.over, List.flatMap_map]

/-- A root over inner nodes of its own class and the root over all their children show the same
in every run, for sequences and for selectors. -/
theorem nested_flattens {W : Type} (act : String → W → EStatus × W) (uid uid' : String)
    (inner : List (String × List Behavior))
    (hinner : ∀ i ∈ inner, ∀ d ∈ i.2, d.Decorated ∧ d.Limited) (env : W) (changes : List (W → W))
    (c : CompositeClass) (hc : c = .sequence ∨ c = .selector) :
    (∃ shown, Transcript act (c.over uid (inner.map fun i => c.over i.1 i.2)) { env := (env, []) }
      changes shown) ∧
    ∀ shown, Transcript act (c.over uid (inner.map fun i => c.over i.1 i.2)) { env := (env, []) }
        changes shown ↔
      Transcript act (c.over uid' (inner.flatMap (·.2))) { env := (env, []) } changes shown := by
  obtain ⟨go, hgo, hclass⟩ : ∃ go : EStatus, go ≠ .running ∧
      ((c = .sequence ∧ go = .success) ∨ (c = .selector ∧ go = .failure)) := by
    rcases hc with rfl | rfl
    · exact ⟨.success, by decide, .inl ⟨rfl, rfl⟩⟩
    · exact ⟨.failure, by decide, .inr ⟨rfl, rfl⟩⟩
  have hchildren : ∀ d ∈ inner.flatMap (·.2), d.Decorated ∧ d.Limited := by
    intro d hd
    obtain ⟨i, hi, hd⟩ := List.mem_flatMap.mp hd
    exact hinner i hi d hd
  have hdecorated : (c.over uid' (inner.flatMap (·.2))).Decorated := by
    refine everywhere_iff.mpr ⟨fun h => ?_, fun d hd => (hchildren d hd).1⟩
    rcases hc with rfl | rfl <;> cases h
  have hlimited : (c.over uid' (inner.flatMap (·.2))).Limited := by
    refine everywhere_iff.mpr ⟨fun _ _ h => ?_, fun d hd => (hchildren d hd).2⟩
    rcases hc with rfl | rfl <;> cases h
  obtain ⟨height, hbuilt⟩ := exists_built _ hdecorated hlimited
  have hstart : SameEnv (W := W × List String) { env := (env, []) } { env := (env, []) } := rfl
  obtain ⟨shown, hnested, hflat⟩ :=
    (flattens_over hclass uid uid' inner).transcript hgo hstart hbuilt act changes
  exact ⟨⟨shown, hnested⟩, transcript_iff_of_common hnested hflat⟩

/-- The hall is searched until that fails, then the cellar. -/
theorem nested_flattens_search : ∃ shown,
    Transcript Watched.scripted (CompositeClass.selector.over "search"
        [CompositeClass.selector.over "rooms"
          [(Tree.action "hall").toBehavior, (Tree.action "cellar").toBehavior],
        CompositeClass.selector.over "nowhere" []])
      { env := ([.running, .failure, .success], []) } [id, id] shown ∧
    Transcript Watched.scripted (CompositeClass.selector.over "search"
        [(Tree.action "hall").toBehavior, (Tree.action "cellar").toBehavior])
      { env := ([.running, .failure, .success], []) } [id, id] shown ∧
    shown = [(.running, [.failure, .success], ["hall"]),
      (.success, [], ["hall", "hall", "cellar"])] := by
  have haction : ∀ uid, (Tree.action uid).toBehavior.Decorated ∧
      (Tree.action uid).toBehavior.Limited := by
    intro uid
    constructor
    · simp [Decorated, Everywhere, Tree.toBehavior, nodes, nodesBelow, Kind.getType]
    · simp [Limited, Everywhere, Tree.toBehavior, nodes, nodesBelow]
  have hflat : transcript Watched.scripted 2 (CompositeClass.selector.over "search"
      [(Tree.action "hall").toBehavior, (Tree.action "cellar").toBehavior])
    { env := ([.running, .failure, .success], []) } [id, id] = some _ := rfl
  obtain ⟨-, hiff⟩ := nested_flattens Watched.scripted "search" "search"
    [("rooms", [(Tree.action "hall").toBehavior, (Tree.action "cellar").toBehavior]),
      ("nowhere", [])]
    (by simp [haction]) [.running, .failure, .success] [id, id] .selector (.inr rfl)
  exact ⟨_, (hiff _).mpr (.of_eq_some hflat), .of_eq_some hflat, rfl⟩

end NBRaft.BehaviorTree
