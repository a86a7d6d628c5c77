import NBRaft.Library.Transition
import Mathlib.Data.List.Basic

/-!
# Behaviour trees

`Behavior` and the classes derived from it: a node ticks its children, and they report back how
far they are. What an action does is not known here; `act` tells, for every action and every
state of the world, its outcome and the world that it leaves.

A tick may take for ever, in a `Repeat` without limit. `tick` is given fuel, and what it returns
with enough of it is what the tick returns.
-/

namespace NBRaft

namespace BehaviorTree

open Transition

inductive EStatus where
  | failure
  | success
  | running
  | aborted
  | invalid
  deriving DecidableEq, Repr

inductive Policy where
  | requireOne
  | requireAll
  deriving DecidableEq, Repr

/-- The class of a node, with its own members. `Filter` and `Monitor` override nothing of
`Sequence` and `Parallel`. The iterator `m_currentChild` is the position it points to, and that
of `end()` is the number of the children. -/
inductive Kind where
  | action
  | sequence (isFilter : Bool) (m_currentChild : Nat)
  | selector (m_currentChild : Nat)
  | activeSelector (m_currentChild : Nat)
  | parallel (isMonitor : Bool) (m_successPolicy m_failurePolicy : Policy)
  | inverter
  | repeats (m_conunter m_limit : Int)
  deriving DecidableEq, Repr

inductive Hook where
  | onInitialize
  | onTerminate
  deriving DecidableEq, Repr

/-- `hooks` are the hooks of the node that have been called. -/
structure Node where
  m_uid : String
  kind : Kind
  m_status : EStatus := .invalid
  hooks : List Hook := []
  deriving DecidableEq, Repr

/-- A node and its children: the list of a composite, the `m_child` of a decorator. -/
inductive Behavior where
  | mk (self : Node) (m_children : List Behavior)

namespace Behavior

def self : Behavior → Node
  | mk n _ => n

def m_children : Behavior → List Behavior
  | mk _ cs => cs

def m_status (b : Behavior) : EStatus := b.self.m_status

def isSuccess (b : Behavior) : Bool := b.m_status = .success

def isFailure (b : Behavior) : Bool := b.m_status = .failure

def isTerminated (b : Behavior) : Bool := b.isSuccess || b.isFailure

def isRunning (b : Behavior) : Bool := b.m_status = .running

theorem isRunning_iff {b : Behavior} : b.isRunning = true ↔ b.self.m_status = .running :=
  decide_eq_true_iff

def setStatus (s : EStatus) : Behavior → Behavior
  | mk n cs => mk { n with m_status := s } cs

@[simp] theorem self_mk (n : Node) (cs : List Behavior) : (mk n cs).self = n := rfl
@[simp] theorem m_children_mk (n : Node) (cs : List Behavior) : (mk n cs).m_children = cs := rfl
@[simp] theorem m_status_mk (n : Node) (cs : List Behavior) :
    (mk n cs).m_status = n.m_status := rfl

mutual

/-- The node and all nodes below it. -/
def nodes : Behavior → List Behavior
  | mk n cs => mk n cs :: nodesBelow cs

def nodesBelow : List Behavior → List Behavior
  | [] => []
  | c :: cs => c.nodes ++ nodesBelow cs

end

theorem mem_nodesBelow {b : Behavior} {cs : List Behavior} :
    b ∈ nodesBelow cs ↔ ∃ c ∈ cs, b ∈ c.nodes := by
  induction cs with
  | nil => simp [nodesBelow]
  | cons c cs ih => simp [nodesBelow, ih]

theorem mem_nodes_mk {b : Behavior} {n : Node} {cs : List Behavior} :
    b ∈ (mk n cs).nodes ↔ b = mk n cs ∨ ∃ c ∈ cs, b ∈ c.nodes := by
  rw [nodes, List.mem_cons, mem_nodesBelow]

mutual

theorem mem_nodes_trans {c d : Behavior} (hd : d ∈ c.nodes) :
    (b : Behavior) → c ∈ b.nodes → d ∈ b.nodes
  | mk n cs, hc => by
    rcases List.mem_cons.mp hc with rfl | hc
    · exact hd
    · exact List.mem_cons_of_mem _ (mem_nodesBelow_trans hd cs hc)

theorem mem_nodesBelow_trans {c d : Behavior} (hd : d ∈ c.nodes) :
    (cs : List Behavior) → c ∈ nodesBelow cs → d ∈ nodesBelow cs
  | [], hc => by cases hc
  | b :: cs, hc => by
    rcases List.mem_append.mp hc with hc | hc
    · exact List.mem_append_left _ (mem_nodes_trans hd b hc)
    · exact List.mem_append_right _ (mem_nodesBelow_trans hd cs hc)

end

/-- What holds of a node and its children, everywhere in the tree. -/
def Everywhere (P : Node → List Behavior → Prop) (b : Behavior) : Prop :=
  ∀ c ∈ b.nodes, P c.self c.m_children

theorem everywhere_iff {P : Node → List Behavior → Prop} {b : Behavior} :
    b.Everywhere P ↔ P b.self b.m_children ∧ ∀ c ∈ b.m_children, c.Everywhere P := by
  obtain ⟨n, cs⟩ := b
  constructor
  · intro h
    refine ⟨h (mk n cs) (mem_nodes_mk.mpr (.inl rfl)), fun c hc d hd => ?_⟩
    exact h d (mem_nodes_mk.mpr (.inr ⟨c, hc, hd⟩))
  · rintro ⟨hself, hbelow⟩ d hd
    rcases mem_nodes_mk.mp hd with rfl | ⟨c, hc, hd⟩
    · exact hself
    · exact hbelow c hc d hd

theorem Everywhere.of_mem {P : Node → List Behavior → Prop} {b c : Behavior}
    (h : b.Everywhere P) (hc : c ∈ b.nodes) : c.Everywhere P :=
  fun d hd => h d (mem_nodes_trans hd b hc)

/-- A tree as the constructors leave it, with no children below an action. -/
def Fresh (b : Behavior) : Prop :=
  b.Everywhere fun n cs => n.m_status = .invalid ∧ n.hooks = [] ∧ (n.kind = .action → cs = [])

instance (b : Behavior) : Decidable b.Fresh :=
  inferInstanceAs (Decidable (∀ c ∈ b.nodes, c.self.m_status = .invalid ∧ c.self.hooks = [] ∧
    (c.self.kind = .action → c.m_children = [])))

/-- A node over actions. -/
def ofActions (kind : Kind) (uids : List String) : Behavior :=
  mk { m_uid := "root", kind := kind } (uids.map fun uid => mk { m_uid := uid, kind := .action } [])

end Behavior

/-! ## The hooks -/

def Kind.onInitialize : Kind → Kind
  | .sequence isFilter _ => .sequence isFilter 0
  | .selector _ => .selector 0
  | .activeSelector _ => .activeSelector 0
  | .repeats _ m_limit => .repeats 0 m_limit
  | kind => kind

def Kind.isParallel : Kind → Bool
  | .parallel .. => true
  | _ => false

def Node.onInitialize (n : Node) : Node :=
  { n with kind := n.kind.onInitialize, hooks := n.hooks ++ [.onInitialize] }

namespace Behavior

mutual

/-- `Parallel::onTerminate` aborts what is running; the others override nothing. -/
def onTerminate : Behavior → Behavior
  | mk n cs => mk { n with hooks := n.hooks ++ [.onTerminate] }
    (if n.kind.isParallel then abortRunning cs else cs)

def abortRunning : List Behavior → List Behavior
  | [] => []
  | c :: cs => (if c.isRunning then c.onTerminate.setStatus .aborted else c) :: abortRunning cs

end

def abort (b : Behavior) : Behavior := b.onTerminate.setStatus .aborted

mutual

/-- When the node is terminated, none of its children stays running. -/
def clears : Behavior → Bool
  | mk n cs => if n.kind.isParallel then allClear cs else !cs.any isRunning

def allClear : List Behavior → Bool
  | [] => true
  | c :: cs => (!c.isRunning || c.clears) && allClear cs

end

end Behavior

/-! ## The updates -/

/-- What a tick has come across on its way. -/
inductive Note where
  /-- `ActiveSelector::onUpdate` has been executed. -/
  | activeSelectorUpdated
  /-- A `Selector` or an `ActiveSelector` has succeeded with a child, and one after it is running
  since an earlier tick. -/
  | leftRunning
  /-- `abort` has been called on a node that is no `Parallel`, and a child of it is running. -/
  | abortedAbove
  deriving DecidableEq, Repr

structure World (W : Type) where
  env : W
  notes : List Note := []

def World.noteIf {W : Type} (b : Bool) (note : Note) (w : World W) : World W :=
  if b then { w with notes := w.notes ++ [note] } else w

/-- A tick of a child. -/
abbrev Tick (W : Type) := Behavior → World W → Option (Behavior × World W)

section

variable {W : Type}

/-- The loops of `Sequence::onUpdate` and `Selector::onUpdate`: tick one child after the other
as long as they come to `go`. Also tells how many have. -/
def tickWhile (f : Tick W) (go : EStatus) :
    List Behavior → World W → Option (EStatus × List Behavior × Nat × World W)
  | [], w => some (go, [], 0, w)
  | c :: cs, w => do
    let (c, w) ← f c w
    if c.m_status ≠ go then some (c.m_status, c :: cs, 0, w)
    else
      let (s, cs, k, w) ← tickWhile f go cs w
      some (s, c :: cs, k + 1, w)

/-- `Parallel` ticks a child that has come to no result yet. -/
def tickUnterminated (f : Tick W) : Tick W := fun c w =>
  if c.isTerminated then some (c, w) else f c w

/-- The loop of `Parallel::onUpdate`, with the result where it returns from within. -/
def parallelLoop (f : Tick W) (m_successPolicy m_failurePolicy : Policy) :
    List Behavior → Nat → Nat → World W →
      Option (Option EStatus × List Behavior × Nat × Nat × World W)
  | [], successCount, failureCount, w => some (none, [], successCount, failureCount, w)
  | c :: cs, successCount, failureCount, w => do
    let (c, w) ← tickUnterminated f c w
    let successCount := if c.isSuccess then successCount + 1 else successCount
    if c.isSuccess ∧ m_successPolicy = .requireOne then
      some (some .success, c :: cs, successCount, failureCount, w)
    else
      let failureCount := if c.isFailure then failureCount + 1 else failureCount
      if c.isFailure ∧ m_failurePolicy = .requireOne then
        some (some .failure, c :: cs, successCount, failureCount, w)
      else
        let (early, cs, successCount, failureCount, w) ←
          parallelLoop f m_successPolicy m_failurePolicy cs successCount failureCount w
        some (early, c :: cs, successCount, failureCount, w)

def parallelResult (m_successPolicy m_failurePolicy : Policy)
    (childCount successCount failureCount : Nat) : EStatus :=
  if m_failurePolicy = .requireAll ∧ failureCount = childCount then .failure
  else if m_successPolicy = .requireAll ∧ successCount = childCount then .success
  else .running

/-- The loop of `Repeat::onUpdate`. -/
def repeatLoop (f : Tick W) (m_limit : Int) :
    Nat → Int → Behavior → World W → Option (EStatus × Int × Behavior × World W)
  | 0, _, _, _ => none
  | fuel + 1, m_conunter, c, w =>
    if m_limit < 0 ∨ m_conunter < m_limit then do
      let (c, w) ← f c w
      if c.m_status = .running then some (.running, m_conunter, c, w)
      else if c.m_status = .failure then some (.failure, m_conunter, c, w)
      else repeatLoop f m_limit fuel (m_conunter + 1) c w
    else some (.success, m_conunter, c, w)

/-- `Selector` stops at child `k`. -/
def Selector.stopsAt (k : Nat) (s : EStatus) (cs : List Behavior) (w : World W) : World W :=
  w.noteIf (s = .success && (cs.drop (k + 1)).any Behavior.isRunning) .leftRunning

/-- `onUpdate` of each class. A decorator without a child follows a null pointer. -/
def onUpdate (act : String → W → EStatus × W) (f : Tick W) (fuel : Nat) (n : Node)
    (cs : List Behavior) (w : World W) : Option (EStatus × Node × List Behavior × World W) :=
  match n.kind with
  | .action =>
    let (s, env) := act n.m_uid w.env
    some (s, n, cs, { w with env := env })
  | .sequence isFilter m_currentChild => do
    let (s, rest, k, w) ← tickWhile f .success (cs.drop m_currentChild) w
    some (s, { n with kind := .sequence isFilter (m_currentChild + k) },
      cs.take m_currentChild ++ rest, w)
  | .selector _ => do
    let (s, cs, k, w) ← tickWhile f .failure cs w
    some (s, n, cs, Selector.stopsAt k s cs w)
  | .activeSelector prev => do
    let n := n.onInitialize
    let (s, cs, k, w) ← tickWhile f .failure cs w
    -- `m_currentChild` points to the first child since `onInitialize`
    let cs := if prev ≠ cs.length ∧ 0 ≠ prev then cs.modify prev Behavior.abort else cs
    some (s, n, cs, (Selector.stopsAt k s cs w).noteIf true .activeSelectorUpdated)
  | .parallel _ m_successPolicy m_failurePolicy => do
    let (early, cs, successCount, failureCount, w) ←
      parallelLoop f m_successPolicy m_failurePolicy cs 0 0 w
    some (early.getD (parallelResult m_successPolicy m_failurePolicy cs.length successCount
      failureCount), n, cs, w)
  | .inverter =>
    match cs with
    | [c] => do
      let (c, w) ← f c w
      some (if c.isFailure then .success else if c.isSuccess then .failure else .running, n, [c], w)
    | _ => none
  | .repeats m_conunter m_limit =>
    match cs with
    | [c] => do
      let (s, m_conunter, c, w) ← repeatLoop f m_limit fuel m_conunter c w
      some (s, { n with kind := .repeats m_conunter m_limit }, [c], w)
    | _ => none

/-- `Behavior::tick`. -/
def tick (act : String → W → EStatus × W) : Nat → Tick W
  | 0, _, _ => none
  | fuel + 1, b, w => do
    let n := if b.isRunning then b.self else b.self.onInitialize
    let (s, n, cs, w) ← onUpdate act (tick act fuel) fuel n b.m_children w
    let b := Behavior.mk { n with m_status := s } cs
    if s = .running then some (b, w)
    else some (b.onTerminate, w.noteIf (n.kind.isParallel && !b.clears) .abortedAbove)

end

end BehaviorTree

open BehaviorTree

/-- A tree that is ticked at its root. -/
structure BehaviorTree (W : Type) where
  m_root : Behavior
  world : World W

namespace BehaviorTree

inductive Event (W : Type) where
  /-- `BehaviorTree::tick`, for which this fuel is enough. -/
  | tick (fuel : Nat)
  /-- Between two ticks the world changes. -/
  | passes (env : W)

def step {W : Type} (act : String → W → EStatus × W) (t : BehaviorTree W) :
    Event W → Option (BehaviorTree W)
  | .tick fuel => (BehaviorTree.tick act fuel t.m_root t.world).map fun r => ⟨r.1, r.2⟩
  | .passes env => some { t with world := { t.world with env := env } }

end BehaviorTree

end NBRaft
