import NBRaft.BehaviorTree.Resume
import NBRaft.BehaviorTree.RunningPath

/-!
# Pre-empting what is running

An `ActiveSelector` begins every tick with its first child, so that a child that has become
possible is preferred to the one that is running, which is to be aborted then. `onUpdate` compares
`m_currentChild` before and after the loop of `Selector`; that loop does not move it.
-/

namespace NBRaft.BehaviorTree

open Transition

/-- The children come to a result or go on running. -/
def ReturnsOutcomes {W : Type} (f : Tick W) : Prop :=
  ∀ c w c' w', f c w = some (c', w') → c'.m_status.IsOutcome

def Watched.Event.ReturnsOutcomes {W : Type} : Watched.Event W → Prop
  | .tick f _ => BehaviorTree.ReturnsOutcomes f
  | .passes _ => True

/-- Over such children every node comes to a result or goes on running. -/
theorem isOutcome_onUpdate {W : Type} {act : String → W → EStatus × W}
    (hact : ∀ uid env, (act uid env).1.IsOutcome) {f : Tick W} (hf : ReturnsOutcomes f)
    {fuel : Nat} {n n' : Node} {s : EStatus} {cs cs' : List Behavior} {w w' : World W}
    (h : onUpdate act f fuel n cs w = some (s, n', cs', w')) : s.IsOutcome := by
  have hkeeps : Keeps [] (fun _ => True) (fun c => c.m_status.IsOutcome) f :=
    ⟨fun _ _ => World.clean_nil _, fun h _ _ => ⟨trivial, hf _ _ _ _ h⟩⟩
  have hwhile : ∀ {go s cs cs' k} {w w' : World W}, go.IsOutcome →
      tickWhile f go cs w = some (s, cs', k, w') → s.IsOutcome := by
    intro go s cs cs' k w w' hgo hloop
    obtain ⟨-, done, rest, -, -, -, ⟨-, rfl⟩ | ⟨c, -, houtcome, rfl, -⟩⟩ :=
      hkeeps.tickWhile hloop (World.clean_nil _) (fun _ _ => trivial)
    · exact hgo
    · exact houtcome
  cases update_of_onUpdate h with
  | action => exact hact ..
  | sequence hkind hloop => exact hwhile (.inl rfl) hloop
  | selector hkind hloop => exact hwhile (.inr (.inl rfl)) hloop
  | activeSelector hkind hloop => exact hwhile (.inr (.inl rfl)) hloop
  | parallel hkind hloop =>
    rcases (hkeeps.parallelLoop hloop (World.clean_nil _) fun _ _ => trivial).2 with
      rfl | rfl | rfl
    · exact isOutcome_parallelResult
    · exact .inl rfl
    · exact .inr (.inl rfl)
  | inverter =>
    unfold EStatus.IsOutcome
    split_ifs <;> simp
  | repeats hkind hcs hloop =>
    rcases repeatLoop_outcome hloop with rfl | rfl | rfl
    · exact .inr (.inr rfl)
    · exact .inr (.inl rfl)
    · exact .inl rfl

theorem returnsOutcomes_tick {W : Type} {act : String → W → EStatus × W}
    (hact : ∀ uid env, (act uid env).1.IsOutcome) (fuel : Nat) :
    ReturnsOutcomes (tick act fuel) := by
  induction fuel with
  | zero => exact nofun
  | succ fuel ih =>
    intro b w b' w' h
    obtain ⟨s, n, cs, u, hupdate, ⟨rfl, rfl, -⟩ | ⟨-, rfl, -⟩⟩ := tick_succ h
    · exact isOutcome_onUpdate hact ih hupdate
    · exact isOutcome_onUpdate hact ih hupdate

/-- At most one child is left running, and a child that had been running behind one that the tick
has chosen is aborted. -/
structure Preempts (t : Turn) : Prop where
  atMostOne : t.after.count .running ≤ 1
  aborted : ∀ v ∈ t.visits, v.status = .success ∨ v.status = .running →
    ∀ i, v.position < i → t.before[i]? = some .running → t.after[i]? = some .aborted

section

variable {W : Type}

/-- Ticked one after the other, the children in front of one that is running all fail. -/
def FailInFront (f : Tick W) : List Behavior → World W → Prop
  | [], _ => True
  | c :: cs, w => (∃ d ∈ cs, d.isRunning = true) →
    ∃ c' w', f c w = some (c', w') ∧ c'.m_status = .failure ∧ FailInFront f cs w'

/-- No child in front of one that is running takes over in this tick. -/
def KeepsRunning (s : Watched W) : Watched.Event W → Prop
  | .tick f _ => FailInFront f s.node.m_children s.world
  | .passes _ => True

variable {act : String → W → EStatus × W} {f : Tick W} {fuel k : Nat} {s : EStatus}
  {b b' : Behavior} {cs cs' : List Behavior} {w w' : World W}

/-- The loop has not stopped in front of a running child. -/
theorem failInFront_iff (h : tickWhile f .failure cs w = some (s, cs', k, w')) :
    FailInFront f cs w ↔ ∀ d ∈ cs.drop (k + 1), d.m_status ≠ .running := by
  induction cs generalizing cs' k w with
  | nil => simp [FailInFront]
  | cons c cs ih =>
    obtain ⟨c', u, hc, ⟨hgo, rfl, rfl, rfl, rfl⟩ | ⟨rest, k', hgo, hrest, rfl, rfl⟩⟩ :=
      tickWhile_cons h
    · simp [FailInFront, hc, hgo, Behavior.isRunning]
    · have hiff := ih hrest
      simp only [FailInFront, hc, Option.some.injEq, Prod.mk.injEq, List.drop_succ_cons]
      constructor
      · intro hfront d hd hrunning
        obtain ⟨_, _, ⟨rfl, rfl⟩, -, hfront⟩ :=
          hfront ⟨d, List.mem_of_mem_drop hd, decide_eq_true hrunning⟩
        exact hiff.mp hfront d hd hrunning
      · exact fun hrunning _ => ⟨c', u, ⟨rfl, rfl⟩, hgo, hiff.mpr hrunning⟩

/-- The tick of an `ActiveSelector`: some children fail, one stops the loop, and the others stay
as they are. Nothing is aborted, as `prev` is where `onInitialize` points to. -/
theorem tickNode_activeSelector (hkind : b.entered.kind = .activeSelector 0)
    (hf : ReturnsOutcomes f) (h : tickNode act f fuel b w = some (b', w')) :
    ∃ k done rest, visits f fuel b.entered b.m_children w = passage .failure b'.m_status 0 k ∧
      b'.self.kind = .activeSelector 0 ∧ b'.m_children = done ++ rest ∧ done.length = k ∧
      (∀ c ∈ done, c.m_status = .failure) ∧
      ((rest = [] ∧ k = b.m_children.length) ∨
        ∃ c, rest = c :: b.m_children.drop (k + 1) ∧ c.m_status = b'.m_status ∧
          (b'.m_status = .success ∨ b'.m_status = .running)) ∧
      (FailInFront f b.m_children w ↔
        ∀ d ∈ b.m_children.drop (k + 1), d.m_status ≠ .running) := by
  obtain ⟨n, cs, u, hupdate, hnode, -, hcs⟩ := tickNode_update h
  have hvisits : visits f fuel b.entered b.m_children w =
      visitsWhile f .failure 0 b.m_children w := by
    simp only [visits, hkind]
  simp only [onUpdate, hkind] at hupdate
  obtain ⟨⟨s, rest, k, u'⟩, hloop, hresult⟩ := Option.bind_eq_some_iff.mp hupdate
  simp only [Option.some.injEq, Prod.mk.injEq] at hresult
  obtain ⟨rfl, rfl, rfl, -⟩ := hresult
  have hentered : b.entered.onInitialize.kind = .activeSelector 0 := by
    simp [Node.onInitialize, Kind.onInitialize, hkind]
  rw [if_neg (by simp [hentered, Kind.isParallel]), if_neg (by simp)] at hcs
  have hkeeps : Keeps [] (fun _ => True) (fun c => c.m_status.IsOutcome) f :=
    ⟨fun _ _ => World.clean_nil _, fun h _ _ => ⟨trivial, hf _ _ _ _ h⟩⟩
  obtain ⟨-, done, rest', hrest, hk, hdone, hlast⟩ :=
    hkeeps.tickWhile hloop (World.clean_nil _) (fun _ _ => trivial)
  obtain ⟨hpassage, hend⟩ := visitsWhile_eq_passage (p := 0) hloop
  refine ⟨k, done, rest', hvisits.trans hpassage, hnode.trans hentered, hcs.trans hrest, hk,
    hdone, ?_, failInFront_iff hloop⟩
  obtain ⟨hnil, hfailure⟩ | ⟨c, hcons, houtcome, hstatus, hne⟩ := hlast
  · exact .inl ⟨hnil, (hend.resolve_right fun h => h.1 hfailure).2⟩
  · refine .inr ⟨c, hcons, hstatus, ?_⟩
    rw [hstatus] at houtcome
    exact houtcome.imp id fun h => h.resolve_left hne

/-- A tick pre-empts exactly if there is nothing to be pre-empted. -/
theorem preempts_iff {a : Watched W} (hkind : a.node.entered.kind = .activeSelector 0)
    (hf : ReturnsOutcomes f) (h : tickNode act f fuel a.node a.world = some (b', w')) :
    Preempts (a.turn f fuel b') ↔ FailInFront f a.node.m_children a.world := by
  obtain ⟨k, done, rest, hvisits, -, hchildren, hk, hdone, hrest, hfront⟩ :=
    tickNode_activeSelector hkind hf h
  rw [hfront]
  constructor
  · intro hpreempts d hd hrunning
    obtain ⟨i, hi⟩ := List.getElem?_of_mem hd
    rw [List.getElem?_drop] at hi
    obtain ⟨-, hall⟩ | ⟨c, rfl, hstatus, hchosen⟩ := hrest
    · rw [List.drop_of_length_le (by omega)] at hd
      cases hd
    · have hvisit : { position := 0 + k, status := b'.m_status } ∈ (a.turn f fuel b').visits := by
        change _ ∈ visits ..
        rw [hvisits]
        exact List.mem_of_getLast? (last_passage (by rcases hchosen with h | h <;> simp [h]))
      have haborted := hpreempts.aborted _ hvisit hchosen (k + 1 + i) (by simp; omega)
        (by simp [Watched.turn, statuses, hi, hrunning])
      have hafter : (a.turn f fuel b').after[k + 1 + i]? = some .running := by
        simp only [Watched.turn, statuses, hchildren, List.getElem?_map]
        rw [List.getElem?_append_right (by omega), hk, show k + 1 + i - k = i + 1 by omega,
          List.getElem?_cons_succ, List.getElem?_drop, hi, Option.map_some, hrunning]
      cases hafter.symm.trans haborted
  · intro hnone
    have hdone' : (statuses done).count .running = 0 := by
      rw [List.count_eq_zero, statuses, List.mem_map]
      rintro ⟨c, hc, hrunning⟩
      cases (hdone c hc).symm.trans hrunning
    constructor
    · change (statuses b'.m_children).count .running ≤ 1
      rw [hchildren, statuses, List.map_append, List.count_append]
      change (statuses done).count _ + _ ≤ _
      obtain ⟨rfl, -⟩ | ⟨c, rfl, -, -⟩ := hrest
      · simp [hdone']
      · have hbehind : ((a.node.m_children.drop (k + 1)).map Behavior.m_status).count
            .running = 0 := by
          rw [List.count_eq_zero, List.mem_map]
          rintro ⟨d, hd, hrunning⟩
          exact hnone d hd hrunning
        rw [List.map_cons, List.count_cons, hdone', hbehind]
        split <;> omega
    · intro v hv hchosen i hi hrunning
      change v ∈ visits .. at hv
      rw [hvisits] at hv
      change (statuses _)[i]? = _ at hrunning
      simp only [statuses, List.getElem?_map, Option.map_eq_some_iff] at hrunning
      obtain ⟨d, hd, hd'⟩ := hrunning
      obtain ⟨-, ⟨hfailure, -, -⟩ | ⟨-, rfl⟩⟩ := mem_passage hv
      · simp [hfailure] at hchosen
      · refine absurd hd' (hnone d ?_)
        have hlt : k < i := by simpa using hi
        refine List.mem_of_getElem? (i := i - (k + 1)) ?_
        rw [List.getElem?_drop, show k + 1 + (i - (k + 1)) = i by omega, hd]

/-- A running `ActiveSelector` has its cursor where its last update has set it. -/
structure ActiveSelectorRun (s : Watched W) : Prop where
  kind : ∃ m, s.node.self.kind = .activeSelector m
  cursor : s.node.isRunning = true → s.node.self.kind = .activeSelector 0

theorem ActiveSelectorRun.entered {s : Watched W} (h : ActiveSelectorRun s) :
    s.node.entered.kind = .activeSelector 0 := by
  rw [kind_entered]
  split
  · rename_i hrunning
    exact h.cursor hrunning
  · obtain ⟨m, hkind⟩ := h.kind
    rw [hkind, Kind.onInitialize]

theorem ActiveSelectorRun.step {s t : Watched W} {e : Watched.Event W}
    (h : Watched.step act s e = some t) (he : e.ReturnsOutcomes) (hs : ActiveSelectorRun s) :
    ActiveSelectorRun t := by
  cases e with
  | tick f fuel =>
    obtain ⟨htick, -⟩ := Watched.step_tick.mp h
    obtain ⟨k, done, rest, -, hkind, -⟩ := tickNode_activeSelector hs.entered he htick
    exact ⟨⟨0, hkind⟩, fun _ => hkind⟩
  | passes env =>
    cases h
    exact ⟨hs.kind, hs.cursor⟩

end

/-- An `ActiveSelector` pre-empts in exactly those runs in which it never has to: in no tick a
child succeeds or starts running in front of one that is running. -/
theorem activeSelector_preempts_iff {W : Type} (act : String → W → EStatus × W) (b : Behavior)
    (m_currentChild : Nat) (hkind : b.self.kind = .activeSelector m_currentChild)
    (hb : b.isRunning = false) (world : World W) (es : List (Watched.Event W))
    (hes : ∀ e ∈ es, e.ReturnsOutcomes) (t : Watched W)
    (h : run (Watched.step act) ⟨b, world, []⟩ es = some t) :
    (∀ a ∈ t.activations, ∀ u ∈ a, Preempts u) ↔
      Along (Watched.step act) KeepsRunning ⟨b, world, []⟩ es := by
  have hstart : ActiveSelectorRun (⟨b, world, []⟩ : Watched W) :=
    ⟨⟨_, hkind⟩, fun hrunning => by cases hb.symm.trans hrunning⟩
  refine Watched.turns_iff_along (fun _ _ _ => ActiveSelectorRun.step) ?_ (fun _ _ => trivial)
    h hes hstart rfl
  intro s f fuel b' w' htick hf hs
  exact preempts_iff hs.entered hf htick

theorem Watched.isOutcome_scripted (uid : String) (script : List EStatus) :
    (scripted uid script).1.IsOutcome := by
  unfold scripted
  split
  · exact .inl rfl
  · exact .inr (.inl rfl)
  · exact .inr (.inr rfl)

theorem Watched.returnsOutcomes_ticks {k : Nat} :
    ∀ e ∈ Watched.ticks k, e.ReturnsOutcomes := by
  intro e he
  obtain rfl := List.eq_of_mem_replicate he
  exact returnsOutcomes_tick isOutcome_scripted 1

open Watched in
/-- The patrol has not been running yet when the alarm succeeds. -/
theorem activeSelector_preempts_iff_alarm : ∃ t, run (Watched.step scripted)
      ⟨Behavior.ofActions (.activeSelector 2) ["alarm", "patrol"],
        { env := [.failure, .success, .success] }, []⟩ (ticks 2) = some t ∧
    ((∀ a ∈ t.activations, ∀ u ∈ a, Preempts u) ↔
      Along (Watched.step scripted) KeepsRunning
        ⟨Behavior.ofActions (.activeSelector 2) ["alarm", "patrol"],
          { env := [.failure, .success, .success] }, []⟩ (ticks 2)) := by
  have h : run (Watched.step scripted)
    ⟨Behavior.ofActions (.activeSelector 2) ["alarm", "patrol"],
      { env := [.failure, .success, .success] }, []⟩ (ticks 2) = some _ := rfl
  exact ⟨_, h, activeSelector_preempts_iff scripted _ 2 rfl (by decide) _ _
    returnsOutcomes_ticks _ h⟩

open Watched in
/-- The patrol is running when the alarm succeeds, and is left so. -/
theorem patrol_not_aborted : ∃ t, run (Watched.step scripted)
      ⟨Behavior.ofActions (.activeSelector 2) ["alarm", "patrol"],
        { env := [.failure, .running, .success] }, []⟩ (ticks 2) = some t ∧
    (∀ e ∈ ticks 2, e.ReturnsOutcomes) ∧ ¬ ∀ a ∈ t.activations, ∀ u ∈ a, Preempts u := by
  have h : run (Watched.step scripted)
    ⟨Behavior.ofActions (.activeSelector 2) ["alarm", "patrol"],
      { env := [.failure, .running, .success] }, []⟩ (ticks 2) = some _ := rfl
  refine ⟨_, h, returnsOutcomes_ticks, fun hall => ?_⟩
  have hturn := hall _ List.mem_cons_self _ (List.mem_cons_of_mem _ List.mem_cons_self)
  cases hturn.aborted _ List.mem_cons_self (.inl rfl) 1 (by decide) rfl

end NBRaft.BehaviorTree
