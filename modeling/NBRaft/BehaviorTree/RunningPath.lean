import NBRaft.BehaviorTree.Loops

/-!
# The running nodes

A tick goes from the root to what is running, so what is running has to hang together: below a
node that is not running, nothing may run. The invariant says this of a node and its children,
and for a node that is running what its next update relies on. It is lost where a `Selector`
comes to a result in front of a child that still runs, and where `abort` stops a node other than
a `Parallel` and not what runs below it.
-/

namespace NBRaft.BehaviorTree

open Transition

def EStatus.IsOutcome (s : EStatus) : Prop := s = .success ∨ s = .failure ∨ s = .running

/-- No child but the one at this position is running. -/
def OnlyAt (position : Nat) (cs : List Behavior) : Prop :=
  ∃ before after, cs = before ++ after ∧ before.length = position ∧
    (∀ c ∈ before, c.m_status ≠ .running) ∧ ∀ c ∈ after.tail, c.m_status ≠ .running

/-- What an update relies on. -/
def Kind.Ready : Kind → List Behavior → Prop
  | .action, cs => cs = []
  | .sequence _ m_currentChild, cs => OnlyAt m_currentChild cs
  | .activeSelector m_currentChild, _ => m_currentChild = 0
  | .repeats m_conunter m_limit, cs =>
    (∃ c ∈ cs, c.m_status = .running) → m_limit < 0 ∨ m_conunter < m_limit
  | _, _ => True

structure PathOk (n : Node) (cs : List Behavior) : Prop where
  stopped : n.m_status ≠ .running → ∀ c ∈ cs, c.m_status ≠ .running
  ready : n.m_status = .running → n.kind.Ready cs
  leaf : n.kind = .action → cs = []

/-- The branches that leave something running. -/
def leaks : List Note := [.leftRunning, .abortedAbove]

namespace Behavior

def RunningPath (b : Behavior) : Prop := b.Everywhere PathOk

mutual

/-- A node is terminated, with whatever runs below it. -/
theorem runningPath_onTerminate : (b : Behavior) → (s : EStatus) → s ≠ .running →
    b.clears = true → (b.self.kind = .action → b.m_children = []) →
      (∀ c ∈ b.m_children, c.RunningPath) → (b.onTerminate.setStatus s).RunningPath
  | mk n cs, s, hs, hclears, hleaf, hcs => by
    rw [clears] at hclears
    rw [onTerminate, setStatus, RunningPath, everywhere_iff]
    split at hclears
    · rename_i hparallel
      have hall := runningPath_abortRunning cs hclears hcs
      rw [if_pos hparallel]
      refine ⟨⟨fun _ c hc => (hall c hc).2, fun h => absurd h hs, fun hkind => ?_⟩,
        fun c hc => (hall c hc).1⟩
      change n.kind = .action at hkind
      rw [hkind] at hparallel
      cases hparallel
    · rename_i hparallel
      rw [if_neg hparallel]
      refine ⟨⟨fun _ c hc hrunning => ?_, fun h => absurd h hs, hleaf⟩, hcs⟩
      rw [Bool.not_eq_true', List.any_eq_false] at hclears
      exact hclears c hc (isRunning_iff.mpr hrunning)

theorem runningPath_abortRunning : (cs : List Behavior) → allClear cs = true →
    (∀ c ∈ cs, c.RunningPath) →
      ∀ c ∈ abortRunning cs, c.RunningPath ∧ c.m_status ≠ .running
  | [], _, _ => nofun
  | c :: cs, hclear, hcs => by
    rw [allClear, Bool.and_eq_true, Bool.or_eq_true, Bool.not_eq_true'] at hclear
    obtain ⟨hc, hcs⟩ := List.forall_mem_cons.mp hcs
    obtain ⟨hself, hbelow⟩ := everywhere_iff.mp hc
    rw [abortRunning, List.forall_mem_cons]
    refine ⟨?_, runningPath_abortRunning cs hclear.2 hcs⟩
    split
    · rename_i hrunning
      have hclears : c.clears = true := hclear.1.resolve_left (by simp [hrunning])
      refine ⟨runningPath_onTerminate c .aborted nofun hclears hself.leaf hbelow, ?_⟩
      cases c
      simp [onTerminate, setStatus]
    · rename_i hrunning
      exact ⟨hc, fun h => hrunning (isRunning_iff.mpr h)⟩

end

mutual

/-- Below a node that is not running nothing is. -/
theorem RunningPath.below : (b : Behavior) → b.RunningPath → b.self.m_status ≠ .running →
    ∀ c ∈ b.nodes, c.m_status ≠ .running
  | mk n cs, hb, hn => by
    obtain ⟨hself, hcs⟩ := everywhere_iff.mp hb
    rw [nodes, List.forall_mem_cons]
    exact ⟨hn, RunningPath.belowAll cs hcs (hself.stopped hn)⟩

theorem RunningPath.belowAll : (cs : List Behavior) → (∀ c ∈ cs, c.RunningPath) →
    (∀ c ∈ cs, c.m_status ≠ .running) → ∀ c ∈ nodesBelow cs, c.m_status ≠ .running
  | [], _, _ => nofun
  | c :: cs, hpath, hnot => by
    obtain ⟨hc, hcs⟩ := List.forall_mem_cons.mp hpath
    obtain ⟨hnotc, hnotcs⟩ := List.forall_mem_cons.mp hnot
    rw [nodesBelow, List.forall_mem_append]
    exact ⟨RunningPath.below c hc hnotc, RunningPath.belowAll cs hcs hnotcs⟩

end

end Behavior

section

variable {W : Type} {act : String → W → EStatus × W} {f : Tick W} {fuel : Nat} {n n' : Node}
  {s : EStatus} {w w' : World W} {cs cs' : List Behavior} {b b' : Behavior}

/-- What is running is ready for its next update, and what is entered becomes so. -/
theorem ready_self (hb : b.RunningPath) :
    (if b.isRunning then b.self else b.self.onInitialize).kind.Ready b.m_children := by
  have hself := (Behavior.everywhere_iff.mp hb).1
  split
  · rename_i hrunning
    exact hself.ready (Behavior.isRunning_iff.mp hrunning)
  · rename_i hrunning
    have hstopped := hself.stopped fun h => hrunning (Behavior.isRunning_iff.mpr h)
    have hleaf := hself.leaf
    change (Kind.onInitialize b.self.kind).Ready b.m_children
    cases hkind : b.self.kind with
    | action => exact hleaf hkind
    | sequence isFilter m_currentChild =>
      exact ⟨[], b.m_children, rfl, rfl, nofun, fun c hc => hstopped c (List.mem_of_mem_tail hc)⟩
    | activeSelector m_currentChild => exact rfl
    | repeats m_conunter m_limit => exact fun ⟨c, hc, hr⟩ => absurd hr (hstopped c hc)
    | selector | parallel | inverter => exact trivial

/-- What an update leaves behind, in whatever state it found the children. -/
structure Updated (s : EStatus) (n : Node) (cs : List Behavior) : Prop where
  outcome : s.IsOutcome
  ready : s = .running → n.kind.Ready cs
  stopped : s ≠ .running → n.kind.isParallel = false → ∀ c ∈ cs, c.m_status ≠ .running
  leaf : n.kind = .action → cs = []

theorem isOutcome_parallelResult {m_successPolicy m_failurePolicy : Policy}
    {childCount successCount failureCount : Nat} :
    (parallelResult m_successPolicy m_failurePolicy childCount successCount
      failureCount).IsOutcome := by
  unfold parallelResult EStatus.IsOutcome
  split_ifs <;> simp

/-- A `Sequence` goes on from the child at its cursor, and leaves none before it running. -/
theorem updated_sequence {isFilter : Bool} {m_currentChild k : Nat} {rest : List Behavior}
    (hf : Keeps leaks Behavior.RunningPath (fun c => c.m_status.IsOutcome) f)
    (hloop : tickWhile f .success (cs.drop m_currentChild) w = some (s, rest, k, w'))
    (hw : w'.Clean leaks) (hready : OnlyAt m_currentChild cs) (hcs : ∀ c ∈ cs, c.RunningPath) :
    Updated s { n with kind := .sequence isFilter (m_currentChild + k) }
      (cs.take m_currentChild ++ rest) := by
  obtain ⟨before, after, rfl, rfl, hbefore, hafter⟩ := hready
  rw [List.drop_left] at hloop
  rw [List.take_left]
  obtain ⟨-, done, rest, rfl, rfl, hdone, hend⟩ :=
    hf.tickWhile hloop hw fun c hc => hcs c (List.mem_append_right _ hc)
  have hstopped : ∀ c ∈ before ++ done, c.m_status ≠ .running := by
    intro c hc
    rcases List.mem_append.mp hc with hc | hc
    · exact hbefore c hc
    · rw [hdone c hc]
      nofun
  rcases hend with ⟨rfl, rfl⟩ | ⟨c, rfl, houtcome, rfl, -⟩
  · rw [List.append_nil]
    exact ⟨.inl rfl, nofun, fun _ _ => hstopped, nofun⟩
  · have hdrop : ∀ d ∈ after.drop (done.length + 1), d.m_status ≠ .running := by
      intro d hd
      rw [← List.drop_tail] at hd
      exact hafter d (List.mem_of_mem_drop hd)
    rw [← List.append_assoc]
    refine ⟨houtcome, fun _ => ?_, fun hne _ d hd => ?_, nofun⟩
    · exact ⟨before ++ done, _, rfl, List.length_append, hstopped, hdrop⟩
    · rcases List.mem_append.mp hd with hd | hd
      · exact hstopped d hd
      · rcases List.mem_cons.mp hd with rfl | hd
        · exact hne
        · exact hdrop d hd

/-- A `Selector` begins with its first child, and may stop before one that is running. -/
theorem updated_selector {k : Nat} {u : World W}
    (hf : Keeps leaks Behavior.RunningPath (fun c => c.m_status.IsOutcome) f)
    (hloop : tickWhile f .failure cs w = some (s, cs', k, u))
    (hw : (Selector.stopsAt k s cs' u).Clean leaks) (hcs : ∀ c ∈ cs, c.RunningPath)
    (hready : n.kind.Ready cs') (hleaf : n.kind ≠ .action) : Updated s n cs' := by
  have hnote := hw.eq_false (by simp [leaks])
  obtain ⟨-, done, rest, rfl, rfl, hdone, hend⟩ := hf.tickWhile hloop hw.of_noteIf hcs
  have hstopped : ∀ c ∈ done, c.m_status ≠ .running := by
    intro c hc
    rw [hdone c hc]
    nofun
  rcases hend with ⟨rfl, rfl⟩ | ⟨c, rfl, houtcome, rfl, hgo⟩
  · rw [List.append_nil] at hready ⊢
    exact ⟨.inr (.inl rfl), nofun, fun _ _ => hstopped, fun h => absurd h hleaf⟩
  · refine ⟨houtcome, fun _ => hready, fun hne _ d hd => ?_, fun h => absurd h hleaf⟩
    have hsuccess : c.m_status = .success :=
      houtcome.resolve_right fun h => h.elim hgo hne
    rcases List.mem_append.mp hd with hd | hd
    · exact hstopped d hd
    · rcases List.mem_cons.mp hd with rfl | hd
      · exact hne
      · intro hrunning
        have hafter : ((done ++ c :: cs.drop (done.length + 1)).drop (done.length + 1)) =
            cs.drop (done.length + 1) := by
          rw [List.drop_append, List.drop_of_length_le (Nat.le_succ _)]
          simp
        rw [hafter, hsuccess, decide_eq_true rfl, Bool.true_and] at hnote
        exact List.any_eq_false.mp hnote d hd (Behavior.isRunning_iff.mpr hrunning)

theorem updated_inverter {c : Behavior} (hkind : n.kind = .inverter)
    (houtcome : c.m_status.IsOutcome) :
    Updated (if c.isFailure then .success else if c.isSuccess then .failure else .running)
      n [c] := by
  refine ⟨?_, fun _ => by rw [hkind]; trivial, fun hne _ d hd => ?_, fun h => ?_⟩
  · unfold EStatus.IsOutcome
    split_ifs <;> simp
  · obtain rfl := List.mem_singleton.mp hd
    intro hr
    simp [Behavior.isFailure, Behavior.isSuccess, hr] at hne
  · cases hkind.symm.trans h

theorem updated_onUpdate (hact : ∀ uid env, (act uid env).1.IsOutcome)
    (hf : Keeps leaks Behavior.RunningPath (fun c => c.m_status.IsOutcome) f)
    (h : onUpdate act f fuel n cs w = some (s, n', cs', w')) (hw : w'.Clean leaks)
    (hready : n.kind.Ready cs) (hpath : ∀ c ∈ cs, c.RunningPath) : Updated s n' cs' := by
  cases update_of_onUpdate h with
  | action hkind =>
    rw [hkind] at hready
    obtain rfl : cs = [] := hready
    exact ⟨hact .., fun _ => by rw [hkind]; rfl, fun _ _ => nofun, fun _ => rfl⟩
  | sequence hkind hloop =>
    rw [hkind] at hready
    exact updated_sequence hf hloop hw hready hpath
  | selector hkind hloop =>
    exact updated_selector hf hloop hw hpath (by rw [hkind]; trivial) (by rw [hkind]; nofun)
  | activeSelector hkind hloop hprev =>
    rw [hkind] at hready
    -- `prev` is where `onInitialize` points to, and nothing is aborted
    obtain rfl := hprev.resolve_right fun hne => hne.1 hready
    have hkind' : n.onInitialize.kind = .activeSelector 0 := by
      rw [Node.onInitialize, hkind]
      rfl
    exact updated_selector hf hloop hw.of_noteIf hpath (by rw [hkind']; rfl)
      (by rw [hkind']; nofun)
  | parallel hkind hloop =>
    refine ⟨?_, fun _ => by rw [hkind]; trivial, fun _ hnot => ?_, fun hleaf => ?_⟩
    · rcases (hf.parallelLoop hloop hw hpath).2 with rfl | rfl | rfl
      · exact isOutcome_parallelResult ..
      · exact .inl rfl
      · exact .inr (.inl rfl)
    · rw [hkind] at hnot
      cases hnot
    · cases hkind.symm.trans hleaf
  | inverter hkind hcs hc =>
    subst hcs
    exact updated_inverter hkind (hf.keeps hc hw (hpath _ (List.mem_singleton.mpr rfl))).2
  | repeats hkind hcs hloop =>
    subst hcs
    rw [hkind] at hready
    obtain ⟨hrunning, hstopped⟩ := repeatLoop_running hloop fun hr =>
      hready ⟨_, List.mem_singleton.mpr rfl, hr⟩
    refine ⟨?_, fun h _ => hrunning h, fun hne _ c hc => ?_, nofun⟩
    · rcases repeatLoop_outcome hloop with rfl | rfl | rfl
      · exact .inr (.inr rfl)
      · exact .inr (.inl rfl)
      · exact .inl rfl
    · obtain rfl := List.mem_singleton.mp hc
      exact hstopped hne

theorem runningPath_tick (hact : ∀ uid env, (act uid env).1.IsOutcome)
    (h : tick act fuel b w = some (b', w')) (hw : w'.Clean leaks) (hb : b.RunningPath) :
    b'.RunningPath ∧ b'.m_status.IsOutcome := by
  induction fuel generalizing b b' w w' with
  | zero => cases h
  | succ fuel ih =>
    have hf : Keeps leaks Behavior.RunningPath (fun c => c.m_status.IsOutcome)
        (tick act fuel) := ⟨clean_tick, fun h hw hb => ih h hw hb⟩
    obtain ⟨hself, hbelow⟩ := Behavior.everywhere_iff.mp hb
    have hready := ready_self hb
    obtain ⟨s, n, cs, u, hupdate, hresult⟩ := tick_succ h
    have hu : u.Clean leaks := by
      obtain ⟨-, -, rfl⟩ | ⟨-, -, rfl⟩ := hresult
      · exact hw
      · exact hw.of_noteIf
    have hupdated := updated_onUpdate hact hf hupdate hu hready hbelow
    have hcs := (hf.onUpdate hupdate hu hbelow fun prev hkind hprev => by
      rw [hkind] at hready
      exact absurd hready hprev).1
    obtain ⟨rfl, rfl, -⟩ | ⟨hs, rfl, rfl⟩ := hresult
    · refine ⟨Behavior.everywhere_iff.mpr ⟨⟨fun h => absurd rfl h, hupdated.ready,
        hupdated.leaf⟩, hcs⟩, hupdated.outcome⟩
    · have hclears : (Behavior.mk { n with m_status := s } cs).clears = true := by
        cases hparallel : n.kind.isParallel with
        | true =>
          have hnote := hw.eq_false (by simp [leaks])
          simpa [hparallel] using hnote
        | false =>
          have hnone : cs.any Behavior.isRunning = false := List.any_eq_false.mpr fun c hc hr =>
            hupdated.stopped hs hparallel c hc (Behavior.isRunning_iff.mp hr)
          simp [Behavior.clears, hparallel, hnone]
      refine ⟨Behavior.runningPath_onTerminate (.mk n cs) s hs hclears hupdated.leaf hcs, ?_⟩
      exact hupdated.outcome

/-- Nothing in a fresh tree is running. -/
theorem runningPath_of_fresh (hb : b.Fresh) : b.RunningPath := by
  intro c hc
  obtain ⟨⟨hstatus, -, hleaf⟩, hbelow⟩ := Behavior.everywhere_iff.mp (hb.of_mem hc)
  refine ⟨fun _ d hd => ?_, fun h => ?_, hleaf⟩
  · have hd' := (Behavior.everywhere_iff.mp (hbelow d hd)).1.1
    rw [Behavior.m_status, hd']
    nofun
  · cases hstatus.symm.trans h

end

/-- In every run of root ticks that take none of the branches that leave something running,
nothing runs below a node that is not running. -/
theorem running_connected {W : Type} (act : String → W → EStatus × W)
    (hact : ∀ uid env, (act uid env).1.IsOutcome) (b : Behavior) (hb : b.Fresh) (env : W)
    (es : List (Event W)) (t : BehaviorTree W)
    (h : run (step act) ⟨b, { env := env }⟩ es = some t)
    (hleft : .leftRunning ∉ t.world.notes) (haborted : .abortedAbove ∉ t.world.notes) :
    ∀ c ∈ t.m_root.nodes, c.m_status ≠ .running → ∀ d ∈ c.nodes, d.m_status ≠ .running := by
  have hclean : t.world.Clean leaks := by
    simp [World.Clean, leaks, hleft, haborted]
  have hpath : t.world.Clean leaks → t.m_root.RunningPath := by
    refine run_preserves (I := fun t => t.world.Clean leaks → t.m_root.RunningPath) ?_ h
      fun _ => runningPath_of_fresh hb
    intro t e t' hstep ht hclean'
    cases e with
    | tick fuel =>
      obtain ⟨⟨b', w'⟩, htick, hstep⟩ := Option.map_eq_some_iff.mp hstep
      obtain rfl := hstep
      exact (runningPath_tick hact htick hclean' (ht (clean_tick htick hclean'))).1
    | passes env =>
      cases hstep
      exact ht hclean'
  exact fun c hc => Behavior.RunningPath.below c ((hpath hclean).of_mem hc)

/-- `alarm` goes off at the second tick, `patrol` goes on for ever. -/
def alarmActs : String → Nat → EStatus × Nat
  | "alarm", n => (if n < 2 then .failure else .success, n + 1)
  | _, n => (.running, n + 1)

theorem isOutcome_alarmActs (uid : String) (n : Nat) : (alarmActs uid n).1.IsOutcome := by
  unfold alarmActs
  split
  · split_ifs
    · exact .inr (.inl rfl)
    · exact .inl rfl
  · exact .inr (.inr rfl)

/-- A `Parallel` that has succeeded with the alarm aborts the patrol. -/
theorem running_connected_parallel : ∃ t, run (step alarmActs)
      ⟨Behavior.ofActions (.parallel false .requireOne .requireAll) ["patrol", "alarm"],
        { env := 1 }⟩ [.tick 2] = some t ∧
    ∀ c ∈ t.m_root.nodes, c.m_status ≠ .running → ∀ d ∈ c.nodes, d.m_status ≠ .running := by
  have h : run (step alarmActs)
    ⟨Behavior.ofActions (.parallel false .requireOne .requireAll) ["patrol", "alarm"], { env := 1 }⟩
    [.tick 2] = some _ := rfl
  exact ⟨_, h, running_connected alarmActs isOutcome_alarmActs _ (by decide) 1 _ _ h (by decide)
    (by decide)⟩

/-- An `ActiveSelector` that has succeeded with the alarm leaves the patrol running. -/
theorem patrol_left_running : ∃ t, run (step alarmActs)
      ⟨Behavior.ofActions (.activeSelector 2) ["alarm", "patrol"], { env := 0 }⟩
      [.tick 2, .tick 2] = some t ∧
    (Behavior.ofActions (.activeSelector 2) ["alarm", "patrol"]).Fresh ∧
    (∀ uid n, (alarmActs uid n).1.IsOutcome) ∧
    ¬ ∀ c ∈ t.m_root.nodes, c.m_status ≠ .running → ∀ d ∈ c.nodes, d.m_status ≠ .running := by
  have h : run (step alarmActs)
    ⟨Behavior.ofActions (.activeSelector 2) ["alarm", "patrol"], { env := 0 }⟩
    [.tick 2, .tick 2] = some _ := rfl
  exact ⟨_, h, by decide, isOutcome_alarmActs, by decide⟩

end NBRaft.BehaviorTree
