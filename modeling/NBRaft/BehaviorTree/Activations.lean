import NBRaft.BehaviorTree.Loops
import Mathlib.Data.List.Chain

/-!
# What a node does from tick to tick

An activation of a node are its ticks from `onInitialize` until one returns something else than
`Running`. Here a single node is watched through any number of them. Its children are behaviours
of any kind: every tick comes with a function that tells how they tick. What is recorded of a tick
is the children that the update comes to, with what becomes of them, and what it returns.
-/

namespace NBRaft.BehaviorTree

open Transition

/-- An update has come to a child: where the child stands, whether the update has ticked it, and
the status that the update finds then. -/
structure Visit where
  position : Nat
  ticked : Bool := true
  status : EStatus
  deriving DecidableEq, Repr

section

variable {W : Type}

/-- The children that `tickWhile` comes to, of which the first stands at the position. -/
def visitsWhile (f : Tick W) (go : EStatus) : Nat → List Behavior → World W → List Visit
  | _, [], _ => []
  | position, c :: cs, w =>
    match f c w with
    | none => []
    | some (c, w) =>
      { position := position, status := c.m_status } ::
        if c.m_status ≠ go then [] else visitsWhile f go (position + 1) cs w

/-- The children that `parallelLoop` comes to. -/
def visitsParallel (f : Tick W) (m_successPolicy m_failurePolicy : Policy) :
    Nat → List Behavior → World W → List Visit
  | _, [], _ => []
  | position, c :: cs, w =>
    match tickUnterminated f c w with
    | none => []
    | some (c', w) =>
      { position := position, ticked := !c.isTerminated, status := c'.m_status } ::
        if Parallel.stops m_successPolicy m_failurePolicy c'.m_status then []
        else visitsParallel f m_successPolicy m_failurePolicy (position + 1) cs w

/-- `repeatLoop` comes to the one child again and again. -/
def visitsRepeat (f : Tick W) (m_limit : Int) : Nat → Int → Behavior → World W → List Visit
  | 0, _, _, _ => []
  | fuel + 1, m_conunter, c, w =>
    if m_limit < 0 ∨ m_conunter < m_limit then
      match f c w with
      | none => []
      | some (c, w) =>
        { position := 0, status := c.m_status } ::
          if c.m_status = .running ∨ c.m_status = .failure then []
          else visitsRepeat f m_limit fuel (m_conunter + 1) c w
    else []

/-- The children that `onUpdate` comes to. -/
def visits (f : Tick W) (fuel : Nat) (n : Node) (cs : List Behavior) (w : World W) :
    List Visit :=
  match n.kind with
  | .action => []
  | .sequence _ m_currentChild =>
    visitsWhile f .success m_currentChild (cs.drop m_currentChild) w
  | .selector _ | .activeSelector _ => visitsWhile f .failure 0 cs w
  | .parallel _ m_successPolicy m_failurePolicy =>
    visitsParallel f m_successPolicy m_failurePolicy 0 cs w
  | .inverter =>
    match cs with
    | [c] =>
      match f c w with
      | none => []
      | some (c, _) => [{ position := 0, status := c.m_status }]
    | _ => []
  | .repeats m_conunter m_limit =>
    match cs with
    | [c] => visitsRepeat f m_limit fuel m_conunter c w
    | _ => []

/-- From these children in this world the visits, in their order, lead to those. -/
inductive Visited (f : Tick W) :
    List Visit → List Behavior → World W → List Behavior → World W → Prop where
  | done {cs : List Behavior} {w : World W} : Visited f [] cs w cs w
  | ticks {cs cs' : List Behavior} {w u w' : World W} {position : Nat} {c c' : Behavior}
      {vs : List Visit} (hc : cs[position]? = some c) (htick : f c w = some (c', u))
      (hrest : Visited f vs (cs.set position c') u cs' w') :
      Visited f ({ position := position, status := c'.m_status } :: vs) cs w cs' w'
  | passes {cs cs' : List Behavior} {w w' : World W} {position : Nat} {c : Behavior}
      {vs : List Visit} (hc : cs[position]? = some c) (hrest : Visited f vs cs w cs' w') :
      Visited f ({ position := position, ticked := false, status := c.m_status } :: vs)
        cs w cs' w'

section

variable {f : Tick W} {vs us : List Visit} {cs cs' cs'' : List Behavior} {w u w' : World W}

/-- No child comes or goes. -/
theorem Visited.length_eq (h : Visited f vs cs w cs' w') : cs'.length = cs.length := by
  induction h with
  | done => rfl
  | ticks hc htick hrest ih => exact ih.trans (List.length_set ..)
  | passes hc hrest ih => exact ih

theorem visited_visitsWhile {go s : EStatus} {k : Nat} (pre : List Behavior)
    (h : tickWhile f go cs w = some (s, cs', k, w')) :
    Visited f (visitsWhile f go pre.length cs w) (pre ++ cs) w (pre ++ cs') w' := by
  induction cs generalizing pre cs' k w with
  | nil =>
    cases h
    exact .done
  | cons c cs ih =>
    have hhere : (pre ++ c :: cs)[pre.length]? = some c := by simp
    obtain ⟨c', u, hc, ⟨hgo, rfl, rfl, rfl, rfl⟩ | ⟨rest, k', hgo, hrest, rfl, rfl⟩⟩ :=
      tickWhile_cons h
    · have hvisits : visitsWhile f go pre.length (c :: cs) w =
          [{ position := pre.length, status := c'.m_status }] := by
        simp [visitsWhile, hc, hgo]
      rw [hvisits]
      refine .ticks hhere hc ?_
      simpa using Visited.done
    · have hvisits : visitsWhile f go pre.length (c :: cs) w =
          { position := pre.length, status := c'.m_status } ::
            visitsWhile f go (pre ++ [c']).length cs u := by
        simp [visitsWhile, hc, hgo]
      rw [hvisits]
      refine .ticks hhere hc ?_
      simpa using ih (pre ++ [c']) hrest

/-- The child of `Parallel` that is come to, whether or not it is ticked. -/
theorem Visited.unterminated {c c' : Behavior} {position : Nat} (hc : cs[position]? = some c)
    (htick : tickUnterminated f c w = some (c', u))
    (hrest : Visited f vs (cs.set position c') u cs' w') :
    Visited f ({ position := position, ticked := !c.isTerminated, status := c'.m_status } :: vs)
      cs w cs' w' := by
  unfold tickUnterminated at htick
  split_ifs at htick with hterminated
  · cases htick
    rw [hterminated]
    refine .passes hc ?_
    obtain ⟨hlt, rfl⟩ := List.getElem?_eq_some_iff.mp hc
    rwa [List.set_getElem_self] at hrest
  · rw [Bool.eq_false_iff.mpr hterminated]
    exact .ticks hc htick hrest

/-- The loop of `Parallel`, taken apart at its first child. -/
theorem parallelLoop_turn {m_successPolicy m_failurePolicy : Policy} {c : Behavior}
    {successCount failureCount successCount' failureCount' : Nat} {early : Option EStatus}
    (h : parallelLoop f m_successPolicy m_failurePolicy (c :: cs) successCount failureCount w =
      some (early, cs', successCount', failureCount', w')) :
    ∃ c' u, tickUnterminated f c w = some (c', u) ∧
      ((Parallel.stops m_successPolicy m_failurePolicy c'.m_status = true ∧ cs' = c' :: cs ∧
          w' = u ∧ early = some c'.m_status) ∨
        (Parallel.stops m_successPolicy m_failurePolicy c'.m_status = false ∧
          ∃ rest, cs' = c' :: rest ∧ parallelLoop f m_successPolicy m_failurePolicy cs
            (if c'.isSuccess then successCount + 1 else successCount)
            (if c'.isFailure then failureCount + 1 else failureCount) u =
              some (early, rest, successCount', failureCount', w'))) := by
  cases hc : tickUnterminated f c w with
  | none => simp [parallelLoop, hc] at h
  | some r =>
    obtain ⟨c', u⟩ := r
    refine ⟨c', u, rfl, ?_⟩
    rw [parallelLoop_eq hc] at h
    cases hstops : Parallel.stops m_successPolicy m_failurePolicy c'.m_status with
    | true =>
      rw [if_pos hstops] at h
      cases h
      exact .inl ⟨rfl, rfl, rfl, rfl⟩
    | false =>
      rw [if_neg (Bool.eq_false_iff.mp hstops)] at h
      obtain ⟨⟨early', rest, sc, fc, w''⟩, hrest, h⟩ := Option.map_eq_some_iff.mp h
      cases h
      exact .inr ⟨rfl, rest, rfl, hrest⟩

theorem visited_visitsParallel {m_successPolicy m_failurePolicy : Policy}
    {successCount failureCount successCount' failureCount' : Nat} {early : Option EStatus}
    (pre : List Behavior)
    (h : parallelLoop f m_successPolicy m_failurePolicy cs successCount failureCount w =
      some (early, cs', successCount', failureCount', w')) :
    Visited f (visitsParallel f m_successPolicy m_failurePolicy pre.length cs w) (pre ++ cs) w
      (pre ++ cs') w' := by
  induction cs generalizing pre cs' successCount failureCount w with
  | nil =>
    cases h
    exact .done
  | cons c cs ih =>
    have hhere : (pre ++ c :: cs)[pre.length]? = some c := by simp
    obtain ⟨c', u, hc, ⟨hstops, rfl, rfl, -⟩ | ⟨hstops, rest, rfl, hrest⟩⟩ := parallelLoop_turn h
    · have hvisits : visitsParallel f m_successPolicy m_failurePolicy pre.length (c :: cs) w =
          [{ position := pre.length, ticked := !c.isTerminated, status := c'.m_status }] := by
        simp [visitsParallel, hc, hstops]
      rw [hvisits]
      refine .unterminated hhere hc ?_
      simpa using Visited.done
    · have hvisits : visitsParallel f m_successPolicy m_failurePolicy pre.length (c :: cs) w =
          { position := pre.length, ticked := !c.isTerminated, status := c'.m_status } ::
            visitsParallel f m_successPolicy m_failurePolicy (pre ++ [c']).length cs u := by
        simp [visitsParallel, hc, hstops]
      rw [hvisits]
      refine .unterminated hhere hc ?_
      simpa using ih (pre ++ [c']) hrest

theorem visited_visitsRepeat {m_limit m_conunter m_conunter' : Int} {fuel : Nat} {s : EStatus}
    {c c' : Behavior}
    (h : repeatLoop f m_limit fuel m_conunter c w = some (s, m_conunter', c', w')) :
    Visited f (visitsRepeat f m_limit fuel m_conunter c w) [c] w [c'] w' := by
  induction fuel generalizing m_conunter c w with
  | zero => cases h
  | succ fuel ih =>
    obtain ⟨hdone, rfl, rfl, rfl, rfl⟩ | ⟨hmore, c'', u, hc, ⟨hs, hstatus, rfl, rfl, rfl⟩ |
      ⟨hrunning, hfailure, hrest⟩⟩ := repeatLoop_succ h
    · have hvisits : visitsRepeat f m_limit (fuel + 1) m_conunter' c' w' = [] := if_neg hdone
      rw [hvisits]
      exact .done
    · have hvisits : visitsRepeat f m_limit (fuel + 1) m_conunter' c w =
          [{ position := 0, status := c'.m_status }] := by
        simp [visitsRepeat, hmore, hc, hstatus, hs]
      rw [hvisits]
      exact .ticks rfl hc .done
    · have hvisits : visitsRepeat f m_limit (fuel + 1) m_conunter c w =
          { position := 0, status := c''.m_status } ::
            visitsRepeat f m_limit fuel (m_conunter + 1) c'' u := by
        simp [visitsRepeat, hmore, hc, hrunning, hfailure]
      rw [hvisits]
      exact .ticks rfl hc (ih hrest)

/-- The visits of an update account for what it does to the children and to the world. Only an
`ActiveSelector` might abort a child after them. -/
theorem visited_onUpdate {act : String → W → EStatus × W} {fuel : Nat} {n n' : Node}
    {s : EStatus} (h : onUpdate act f fuel n cs w = some (s, n', cs', w'))
    (hkind : n.kind ≠ .action) :
    ∃ rest u, Visited f (visits f fuel n cs w) cs w rest u ∧ u.env = w'.env ∧
      (cs' = rest ∨ ∃ prev, n.kind = .activeSelector prev ∧ prev ≠ 0 ∧
        cs' = rest.modify prev Behavior.abort) := by
  unfold visits
  cases update_of_onUpdate h with
  | action hact => exact absurd hact hkind
  | @sequence isFilter m_currentChild k s rest u hseq hloop =>
    simp only [hseq]
    refine ⟨_, _, ?_, rfl, .inl rfl⟩
    by_cases hle : m_currentChild ≤ cs.length
    · have hvisited := visited_visitsWhile (cs.take m_currentChild) hloop
      rwa [List.length_take, min_eq_left hle, List.take_append_drop] at hvisited
    · rw [List.drop_of_length_le (by omega)] at hloop ⊢
      cases hloop
      rw [List.append_nil, List.take_of_length_le (by omega)]
      exact .done
  | selector hsel hloop =>
    simp only [hsel]
    exact ⟨_, _, visited_visitsWhile [] hloop, (World.env_noteIf ..).symm, .inl rfl⟩
  | activeSelector hsel hloop hprev =>
    simp only [hsel]
    refine ⟨_, _, visited_visitsWhile [] hloop, by simp [Selector.stopsAt], ?_⟩
    exact hprev.imp id fun h => ⟨_, rfl, h⟩
  | parallel hpar hloop =>
    simp only [hpar]
    exact ⟨_, _, visited_visitsParallel [] hloop, rfl, .inl rfl⟩
  | @inverter c c' u hinv hcs hc =>
    subst hcs
    simp only [hinv, hc]
    exact ⟨[c'], _, .ticks rfl hc .done, rfl, .inl rfl⟩
  | repeats hrep hcs hloop =>
    subst hcs
    simp only [hrep]
    exact ⟨_, _, visited_visitsRepeat hloop, rfl, .inl rfl⟩

/-- An update moves cursors and counts, and changes nothing else of the kind of its node. -/
theorem kind_onUpdate {act : String → W → EStatus × W} {fuel : Nat} {n n' : Node} {s : EStatus}
    (h : onUpdate act f fuel n cs w = some (s, n', cs', w')) :
    n'.kind.onInitialize = n.kind.onInitialize := by
  cases update_of_onUpdate h with
  | sequence hkind | repeats hkind => simp [hkind, Kind.onInitialize]
  | activeSelector hkind => simp [Node.onInitialize, hkind, Kind.onInitialize]
  | action | selector | parallel | inverter => rfl

end

end

/-! ## Watching a node -/

/-- What is recorded of a tick: the statuses of the children before and after it, the children
that its update has come to, and what it has returned. -/
structure Turn where
  before : List EStatus
  visits : List Visit
  returned : EStatus
  after : List EStatus
  deriving DecidableEq, Repr

/-- A tick is one of the activation that goes on, or begins one. The last activation comes
first, and its ticks stand in their order. -/
def record (running : Bool) (t : Turn) : List (List Turn) → List (List Turn)
  | [] => [[t]]
  | a :: as => if running then (a ++ [t]) :: as else [t] :: a :: as

theorem record_entered (t : Turn) (as : List (List Turn)) : record false t as = [t] :: as := by
  cases as <;> rfl

/-- The activation that a tick belongs to, as it has been before: the one that goes on, of which
`P` is known, or one that has no ticks yet. -/
theorem exists_record {P : List Turn → Prop} {running : Bool} {as : List (List Turn)}
    (hgoing : running = true → ∃ a rest, as = a :: rest ∧ P a) (hanew : running = false → P [])
    (t : Turn) : ∃ a rest, record running t as = (a ++ [t]) :: rest ∧ P a ∧
      (a = [] ∨ a ∈ as) ∧ ∀ b ∈ rest, b ∈ as := by
  cases running with
  | true =>
    obtain ⟨a, rest, rfl, ha⟩ := hgoing rfl
    exact ⟨a, rest, rfl, ha, .inr List.mem_cons_self, fun b hb => List.mem_cons_of_mem _ hb⟩
  | false => exact ⟨[], as, record_entered t as, hanew rfl, .inl rfl, fun b hb => hb⟩

theorem forall_record {P : Turn → Prop} {running : Bool} {t : Turn} {as : List (List Turn)} :
    (∀ a ∈ record running t as, ∀ u ∈ a, P u) ↔ P t ∧ ∀ a ∈ as, ∀ u ∈ a, P u := by
  unfold record
  split
  · simp
  · split
    · simp only [List.forall_mem_cons, List.forall_mem_append]
      tauto
    · simp only [List.forall_mem_cons]
      tauto

/-- The children that have been come to in these ticks. -/
def visitsOf (a : List Turn) : List Visit := a.flatMap Turn.visits

def statuses (cs : List Behavior) : List EStatus := cs.map Behavior.m_status

/-- The node as its update finds it. -/
def Behavior.entered (b : Behavior) : Node :=
  if b.isRunning then b.self else b.self.onInitialize

theorem kind_entered (b : Behavior) :
    b.entered.kind = if b.isRunning then b.self.kind else b.self.kind.onInitialize := by
  unfold Behavior.entered
  split <;> rfl

/-- A node that does nothing to its children but tick them. -/
def Kind.onlyTicks : Kind → Bool
  | .action | .activeSelector _ | .parallel .. => false
  | _ => true

theorem Kind.onlyTicks_onInitialize (kind : Kind) :
    kind.onInitialize.onlyTicks = kind.onlyTicks := by
  cases kind <;> rfl

theorem Kind.isParallel_of_onlyTicks {kind : Kind} (h : kind.onlyTicks = true) :
    kind.isParallel = false := by
  cases kind <;> first | rfl | cases h

/-- A tick in terms of its update. Only a `Parallel` does something to its children when it is
terminated. -/
theorem tickNode_update {W : Type} {act : String → W → EStatus × W} {f : Tick W} {fuel : Nat}
    {b b' : Behavior} {w w' : World W} (h : tickNode act f fuel b w = some (b', w')) :
    ∃ n cs u, onUpdate act f fuel b.entered b.m_children w = some (b'.m_status, n, cs, u) ∧
      b'.self.kind = n.kind ∧ w'.env = u.env ∧
      b'.m_children =
        if b'.m_status ≠ .running ∧ n.kind.isParallel then Behavior.abortRunning cs else cs := by
  obtain ⟨s, n, cs, u, hupdate, ⟨rfl, rfl, rfl⟩ | ⟨hs, rfl, rfl⟩⟩ := tickNode_eq_some h
  · exact ⟨n, cs, _, hupdate, rfl, rfl, (if_neg fun h => h.1 rfl).symm⟩
  · refine ⟨n, cs, u, hupdate, rfl, World.env_noteIf .., ?_⟩
    change (if n.kind.isParallel then _ else _) = ite (s ≠ .running ∧ n.kind.isParallel) _ _
    simp [hs]

/-- If the update returns, the tick does. -/
theorem exists_tickNode {W : Type} {act : String → W → EStatus × W} {f : Tick W} {fuel : Nat}
    {b : Behavior} {w : World W}
    (h : (onUpdate act f fuel b.entered b.m_children w).isSome = true) :
    ∃ b' w', tickNode act f fuel b w = some (b', w') := by
  obtain ⟨⟨s, n, cs, u⟩, hupdate⟩ := Option.isSome_iff_exists.mp h
  have htick : tickNode act f fuel b w ≠ none := by
    unfold Behavior.entered at hupdate
    simp only [tickNode, hupdate, Option.bind_eq_bind, Option.bind_some]
    split <;> exact Option.some_ne_none _
  obtain ⟨⟨b', w'⟩, hr⟩ := Option.ne_none_iff_exists'.mp htick
  exact ⟨b', w', hr⟩

structure Watched (W : Type) where
  node : Behavior
  world : World W
  activations : List (List Turn) := []

namespace Watched

variable {W : Type}

inductive Event (W : Type) where
  /-- The node is ticked, and its children tick as `f` tells. -/
  | tick (f : Tick W) (fuel : Nat)
  /-- Between two ticks the world changes. -/
  | passes (env : W)

/-- The record of a tick that leaves this behind. -/
def turn (f : Tick W) (fuel : Nat) (s : Watched W) (b : Behavior) : Turn where
  before := statuses s.node.m_children
  visits := visits f fuel s.node.entered s.node.m_children s.world
  returned := b.m_status
  after := statuses b.m_children

def step (act : String → W → EStatus × W) (s : Watched W) : Event W → Option (Watched W)
  | .tick f fuel => (tickNode act f fuel s.node s.world).map fun r =>
    ⟨r.1, r.2, record s.node.isRunning (s.turn f fuel r.1) s.activations⟩
  | .passes env => some { s with world := { s.world with env := env } }

variable {act : String → W → EStatus × W}

theorem step_tick {f : Tick W} {fuel : Nat} {s t : Watched W} :
    step act s (.tick f fuel) = some t ↔
      tickNode act f fuel s.node s.world = some (t.node, t.world) ∧
        t.activations = record s.node.isRunning (s.turn f fuel t.node) s.activations := by
  obtain ⟨b, w, as⟩ := t
  constructor
  · intro h
    obtain ⟨⟨b', w'⟩, hr, h⟩ := Option.map_eq_some_iff.mp h
    cases h
    exact ⟨hr, rfl⟩
  · rintro ⟨hr, has⟩
    exact Option.map_eq_some_iff.mpr ⟨_, hr, by rw [← has]⟩

/-- What is recorded of a tick is what it does: the visits lead from the children and the world that
it finds to those that it leaves. -/
structure Records (f : Tick W) (s t : Watched W) (v : Turn) : Prop where
  recorded : t.activations = record s.node.isRunning v s.activations
  before : v.before = statuses s.node.m_children
  visited : ∃ w, Visited f v.visits s.node.m_children s.world t.node.m_children w ∧
    w.env = t.world.env
  returned : v.returned = t.node.m_status
  after : v.after = statuses t.node.m_children

/-- A tick is recorded with what it does. -/
def IsRecorded (act : String → W → EStatus × W) (s : Watched W) : Event W → Prop
  | .tick f fuel => ∀ t, step act s (.tick f fuel) = some t → ∃ v, Records f s t v
  | .passes _ => True

/-- So is every event of a node that does nothing to its children but tick them. -/
theorem isRecorded_of_onlyTicks {s : Watched W} (hkind : s.node.self.kind.onlyTicks = true)
    (e : Event W) : IsRecorded act s e := by
  cases e with
  | passes env => trivial
  | tick f fuel =>
    intro t ht
    obtain ⟨htick, hrecord⟩ := step_tick.mp ht
    obtain ⟨n, cs, u, hupdate, -, henv, hcs⟩ := tickNode_update htick
    have hentered : s.node.entered.kind.onlyTicks = true := by
      rw [kind_entered]
      split
      · exact hkind
      · rwa [Kind.onlyTicks_onInitialize]
    have hn : n.kind.onlyTicks = true := by
      rwa [← Kind.onlyTicks_onInitialize, kind_onUpdate hupdate, Kind.onlyTicks_onInitialize]
    obtain ⟨rest, v, hvisited, hv, rfl | ⟨prev, hactive, -⟩⟩ :=
      visited_onUpdate hupdate fun haction => by simp [haction, Kind.onlyTicks] at hentered
    · rw [if_neg (by simp [Kind.isParallel_of_onlyTicks hn])] at hcs
      refine ⟨_, hrecord, rfl, ⟨v, ?_, hv.trans henv.symm⟩, rfl, rfl⟩
      rw [hcs]
      exact hvisited
    · simp [hactive, Kind.onlyTicks] at hentered

/-- The exact criterion for what is asked of every single tick. -/
theorem turns_iff_along {I : Watched W → Prop} {P : Turn → Prop}
    {C : Watched W → Event W → Prop} {E : Event W → Prop}
    (hI : ∀ s e t, step act s e = some t → E e → I s → I t)
    (hP : ∀ s f fuel b w, tickNode act f fuel s.node s.world = some (b, w) →
      E (.tick f fuel) → I s → (P (s.turn f fuel b) ↔ C s (.tick f fuel)))
    (hC : ∀ s env, C s (.passes env)) {s t : Watched W} {es : List (Event W)}
    (h : run (step act) s es = some t) (hE : ∀ e ∈ es, E e) (hs : I s)
    (hnone : s.activations = []) :
    (∀ a ∈ t.activations, ∀ u ∈ a, P u) ↔ Along (step act) C s es := by
  refine run_iff_along_of_forall (P := fun s => ∀ a ∈ s.activations, ∀ u ∈ a, P u) hI ?_ ?_ h hE
    hs (by simp [hnone])
  · intro s e t hst _ _ ht
    cases e with
    | tick f fuel =>
      rw [(step_tick.mp hst).2, forall_record] at ht
      exact ht.2
    | passes env =>
      cases hst
      exact ht
  · intro s e t hst he hs hs'
    cases e with
    | tick f fuel =>
      obtain ⟨htick, hrecord⟩ := step_tick.mp hst
      rw [hrecord, forall_record, hP s f fuel _ _ htick he hs]
      exact and_iff_left hs'
    | passes env =>
      cases hst
      exact iff_of_true hs' (hC s env)

/-- The tick of a whole tree is a tick of its root, whose children tick with one fuel less. -/
def Event.ofTree (act : String → W → EStatus × W) : BehaviorTree.Event W → Event W
  | .tick fuel => .tick (BehaviorTree.tick act (fuel - 1)) (fuel - 1)
  | .passes env => .passes env

/-- The runs of a tree are runs of its root. -/
theorem run_ofTree {t t' : BehaviorTree W} {es : List (BehaviorTree.Event W)}
    (h : run (BehaviorTree.step act) t es = some t') (as : List (List Turn)) :
    ∃ as', run (step act) ⟨t.m_root, t.world, as⟩ (es.map (Event.ofTree act)) =
      some ⟨t'.m_root, t'.world, as'⟩ := by
  induction es generalizing t as with
  | nil =>
    cases h
    exact ⟨as, rfl⟩
  | cons e es ih =>
    obtain ⟨u, hu, hrun⟩ := run_cons_eq_some.mp h
    have hstep : ∃ as', step act ⟨t.m_root, t.world, as⟩ (Event.ofTree act e) =
        some ⟨u.m_root, u.world, as'⟩ := by
      cases e with
      | tick fuel =>
        obtain ⟨r, hr, rfl⟩ := Option.map_eq_some_iff.mp hu
        cases fuel with
        | zero => cases hr
        | succ fuel => exact ⟨_, Option.map_eq_some_iff.mpr ⟨r, hr, rfl⟩⟩
      | passes env =>
        cases hu
        exact ⟨as, rfl⟩
    obtain ⟨as₁, h₁⟩ := hstep
    obtain ⟨as₂, h₂⟩ := ih hrun as₁
    exact ⟨as₂, run_cons_eq_some.mpr ⟨_, h₁, h₂⟩⟩

/-- Actions that come to a result when it is written down for them, one tick after the other. -/
def scripted (_ : String) : List EStatus → EStatus × List EStatus
  | .success :: script => (.success, script)
  | .failure :: script => (.failure, script)
  | script => (.running, script.tail)

/-- So many ticks of a node over scripted actions. -/
def ticks (k : Nat) : List (Event (List EStatus)) :=
  List.replicate k (.tick (BehaviorTree.tick scripted 1) 3)

end Watched

end NBRaft.BehaviorTree
