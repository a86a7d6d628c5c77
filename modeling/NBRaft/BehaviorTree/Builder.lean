import NBRaft.BehaviorTree.Behavior

/-!
# Building a behaviour tree

`BehaviorTreeBuilder` and the virtual `addChild`. The builder works on objects behind shared
pointers, so its nodes lie in a heap, where the address of an object is its position; a node
that is on the stack goes on receiving children after its parent has received it.

The trees that can be described by calls are `Tree`: what a node may have below it depends on
its class. `preorder` are the calls that describe a tree, `toBehavior` is the tree they describe.
-/

namespace NBRaft.BehaviorTree

open Transition

/-- `Behavior::EMetaType`. -/
inductive EMetaType where
  | composite
  | decorator
  | action
  deriving DecidableEq, Repr

/-- The type a class passes to the constructor of `Behavior`. -/
def Kind.getType : Kind → EMetaType
  | .action => .action
  | .inverter | .repeats .. => .decorator
  | .sequence .. | .selector .. | .activeSelector .. | .parallel .. => .composite

/-- An object on the heap, with the addresses of its children. -/
structure Object where
  self : Node
  m_children : List Nat
  deriving DecidableEq, Repr

/-- An iterator that points to `end()` does so after a `push_back`, too. -/
def Kind.pushBack (size : Nat) : Kind → Kind
  | .sequence isFilter m_currentChild =>
    .sequence isFilter (if m_currentChild = size then size + 1 else m_currentChild)
  | .selector m_currentChild =>
    .selector (if m_currentChild = size then size + 1 else m_currentChild)
  | .activeSelector m_currentChild =>
    .activeSelector (if m_currentChild = size then size + 1 else m_currentChild)
  | kind => kind

/-- `addChild`, by the class of the object. -/
def Object.addChild (o : Object) (child : Nat) : Object :=
  match o.self.kind.getType with
  | .composite =>
    { self := { o.self with kind := o.self.kind.pushBack o.m_children.length }
      m_children := o.m_children ++ [child] }
  | .decorator => { o with m_children := [child] }
  | .action => o

/-- `m_root` is the root of `m_tree`, and the front of `m_nodeStack` its top. -/
structure BehaviorTreeBuilder where
  heap : List Object := []
  m_root : Option Nat := none
  m_nodeStack : List Nat := []
  deriving DecidableEq, Repr

namespace BehaviorTreeBuilder

/-- `addBehavior` with an object made for it. There is no result where it reads the top of an
empty stack. -/
def addBehavior (behavior : Node) (b : BehaviorTreeBuilder) : Option BehaviorTreeBuilder := do
  let address := b.heap.length
  let b := { b with heap := b.heap ++ [Object.mk behavior []] }
  let b ← match b.m_root with
    | some _ =>
      match b.m_nodeStack with
      | [] => none
      | peek :: _ => some { b with heap := b.heap.modify peek (·.addChild address) }
    | none => some { b with m_root := some address }
  if behavior.kind.getType = .composite ∨ behavior.kind.getType = .decorator then
    some { b with m_nodeStack := address :: b.m_nodeStack }
  else some b

def Sequence (uid : String) : BehaviorTreeBuilder → Option BehaviorTreeBuilder :=
  addBehavior { m_uid := uid, kind := .sequence false 0 }

def Selector (uid : String) : BehaviorTreeBuilder → Option BehaviorTreeBuilder :=
  addBehavior { m_uid := uid, kind := .selector 0 }

def Parallel (uid : String) (successPolicy failurePolicy : Policy) :
    BehaviorTreeBuilder → Option BehaviorTreeBuilder :=
  addBehavior { m_uid := uid, kind := .parallel false successPolicy failurePolicy }

def Inverter (uid : String) : BehaviorTreeBuilder → Option BehaviorTreeBuilder :=
  addBehavior { m_uid := uid, kind := .inverter }

def Repeat (uid : String) (limit : Int) : BehaviorTreeBuilder → Option BehaviorTreeBuilder :=
  addBehavior { m_uid := uid, kind := .repeats 0 limit }

/-- The action that is passed has just been constructed. -/
def Action (uid : String) : BehaviorTreeBuilder → Option BehaviorTreeBuilder :=
  addBehavior { m_uid := uid, kind := .action }

def Filter (uid : String) : BehaviorTreeBuilder → Option BehaviorTreeBuilder :=
  addBehavior { m_uid := uid, kind := .sequence true 0 }

def ActiveSelector (uid : String) : BehaviorTreeBuilder → Option BehaviorTreeBuilder :=
  addBehavior { m_uid := uid, kind := .activeSelector 0 }

def Monitor (uid : String) (successPolicy failurePolicy : Policy) :
    BehaviorTreeBuilder → Option BehaviorTreeBuilder :=
  addBehavior { m_uid := uid, kind := .parallel true successPolicy failurePolicy }

def Back (b : BehaviorTreeBuilder) : BehaviorTreeBuilder :=
  if b.m_nodeStack.length > 1 then { b with m_nodeStack := b.m_nodeStack.tail } else b

/-- `while (m_nodeStack.size() > 1) m_nodeStack.pop();` -/
def popAll : List Nat → List Nat
  | _ :: below :: rest => popAll (below :: rest)
  | stack => stack

/-- The tree that is returned is the one under `m_root`. -/
def End (b : BehaviorTreeBuilder) : Option Nat × BehaviorTreeBuilder :=
  (b.m_root, { b with m_nodeStack := popAll b.m_nodeStack })

inductive Call where
  | sequence (uid : String)
  | selector (uid : String)
  | parallel (uid : String) (successPolicy failurePolicy : Policy)
  | inverter (uid : String)
  | repeats (uid : String) (limit : Int)
  | action (uid : String)
  | filter (uid : String)
  | activeSelector (uid : String)
  | monitor (uid : String) (successPolicy failurePolicy : Policy)
  | back
  deriving DecidableEq, Repr

def step (b : BehaviorTreeBuilder) : Call → Option BehaviorTreeBuilder
  | .sequence uid => b.Sequence uid
  | .selector uid => b.Selector uid
  | .parallel uid successPolicy failurePolicy => b.Parallel uid successPolicy failurePolicy
  | .inverter uid => b.Inverter uid
  | .repeats uid limit => b.Repeat uid limit
  | .action uid => b.Action uid
  | .filter uid => b.Filter uid
  | .activeSelector uid => b.ActiveSelector uid
  | .monitor uid successPolicy failurePolicy => b.Monitor uid successPolicy failurePolicy
  | .back => some b.Back

end BehaviorTreeBuilder

/-! ## The trees that calls describe -/

/-- The classes derived from `Composite`, with what their constructors take besides the uid. -/
inductive CompositeClass where
  | sequence
  | selector
  | parallel (successPolicy failurePolicy : Policy)
  | filter
  | activeSelector
  | monitor (successPolicy failurePolicy : Policy)
  deriving DecidableEq, Repr

/-- The classes derived from `Decorator`. -/
inductive DecoratorClass where
  | inverter
  | repeats (limit : Int)
  deriving DecidableEq, Repr

/-- An action has nothing below it, and a decorator exactly one child. -/
inductive Tree where
  | action (uid : String)
  | composite (c : CompositeClass) (uid : String) (children : List Tree)
  | decorator (d : DecoratorClass) (uid : String) (child : Tree)

/-- A composite as constructed, its iterator pointing behind so many children. -/
def CompositeClass.node (c : CompositeClass) (uid : String) (size : Nat) : Node where
  m_uid := uid
  kind := match c with
    | sequence => .sequence false size
    | selector => .selector size
    | parallel successPolicy failurePolicy => .parallel false successPolicy failurePolicy
    | filter => .sequence true size
    | activeSelector => .activeSelector size
    | monitor successPolicy failurePolicy => .parallel true successPolicy failurePolicy

def DecoratorClass.node (d : DecoratorClass) (uid : String) : Node where
  m_uid := uid
  kind := match d with
    | inverter => .inverter
    | repeats limit => .repeats 0 limit

def CompositeClass.call (c : CompositeClass) (uid : String) : BehaviorTreeBuilder.Call :=
  match c with
  | sequence => .sequence uid
  | selector => .selector uid
  | parallel successPolicy failurePolicy => .parallel uid successPolicy failurePolicy
  | filter => .filter uid
  | activeSelector => .activeSelector uid
  | monitor successPolicy failurePolicy => .monitor uid successPolicy failurePolicy

def DecoratorClass.call (d : DecoratorClass) (uid : String) : BehaviorTreeBuilder.Call :=
  match d with
  | inverter => .inverter uid
  | repeats limit => .repeats uid limit

namespace Tree

mutual

/-- The tree with every node as its constructor and its children's arrival leave it. -/
def toBehavior : Tree → Behavior
  | action uid => .mk { m_uid := uid, kind := .action } []
  | composite c uid children => .mk (c.node uid children.length) (toBehaviors children)
  | decorator d uid child => .mk (d.node uid) [child.toBehavior]

def toBehaviors : List Tree → List Behavior
  | [] => []
  | t :: ts => t.toBehavior :: toBehaviors ts

end

mutual

/-- The constructor calls in preorder, with one `Back()` after the children of an inner node. -/
def preorder : Tree → List BehaviorTreeBuilder.Call
  | action uid => [.action uid]
  | composite c uid children => c.call uid :: preorders children ++ [.back]
  | decorator d uid child => d.call uid :: child.preorder ++ [.back]

def preorders : List Tree → List BehaviorTreeBuilder.Call
  | [] => []
  | t :: ts => t.preorder ++ preorders ts

end

end Tree

namespace Tree

open Behavior

mutual

/-- A tree that is described by calls is as the constructors leave it. -/
theorem fresh_toBehavior : (t : Tree) → t.toBehavior.Fresh
  | action _ => everywhere_iff.mpr ⟨⟨rfl, rfl, fun _ => rfl⟩, nofun⟩
  | composite c uid children => by
    refine everywhere_iff.mpr ⟨⟨rfl, rfl, fun h => ?_⟩, fresh_toBehaviors children⟩
    cases c <;> cases h
  | decorator d uid child => by
    refine everywhere_iff.mpr ⟨⟨rfl, rfl, fun h => ?_⟩, fun b hb => ?_⟩
    · cases d <;> cases h
    · obtain rfl := List.mem_singleton.mp hb
      exact fresh_toBehavior child

theorem fresh_toBehaviors : (ts : List Tree) → ∀ b ∈ toBehaviors ts, b.Fresh
  | [], _, hb => nomatch hb
  | t :: ts, b, hb => by
    rcases List.mem_cons.mp hb with rfl | hb
    · exact fresh_toBehavior t
    · exact fresh_toBehaviors ts b hb

end

end Tree

/-! ## Reading a tree from the heap -/

mutual

/-- The objects reachable from the address form the tree. -/
def Denotes (heap : List Object) (address : Nat) : Behavior → Prop
  | .mk n cs => ∃ m_children, heap[address]? = some ⟨n, m_children⟩ ∧
      DenotesAll heap m_children cs

def DenotesAll (heap : List Object) : List Nat → List Behavior → Prop
  | [], [] => True
  | a :: as, c :: cs => Denotes heap a c ∧ DenotesAll heap as cs
  | _, _ => False

end

mutual

/-- An address stands for at most one tree. -/
theorem Denotes.unique {heap : List Object} {a : Nat} :
    {t t' : Behavior} → Denotes heap a t → Denotes heap a t' → t = t'
  | .mk n cs, .mk n' cs', h, h' => by
    obtain ⟨as, ho, hc⟩ := h
    obtain ⟨as', ho', hc'⟩ := h'
    have hobject : (⟨n, as⟩ : Object) = ⟨n', as'⟩ := Option.some.inj (ho.symm.trans ho')
    rw [Object.mk.injEq] at hobject
    obtain ⟨rfl, rfl⟩ := hobject
    rw [DenotesAll.unique hc hc']

theorem DenotesAll.unique {heap : List Object} {as : List Nat} :
    {cs cs' : List Behavior} → DenotesAll heap as cs → DenotesAll heap as cs' → cs = cs'
  | [], [], _, _ => rfl
  | [], _ :: _, h, h' => by cases as <;> simp [DenotesAll] at h h'
  | _ :: _, [], h, h' => by cases as <;> simp [DenotesAll] at h h'
  | c :: cs, c' :: cs', h, h' => by
    cases as with
    | nil => simp [DenotesAll] at h
    | cons a as =>
      rw [DenotesAll] at h h'
      rw [Denotes.unique h.1 h'.1, DenotesAll.unique h.2 h'.2]

end

/-! ## Where the builder puts a tree -/

namespace Tree

mutual

/-- The number of nodes. -/
def size : Tree → Nat
  | action _ => 1
  | composite _ _ children => sizes children + 1
  | decorator _ _ child => child.size + 1

def sizes : List Tree → Nat
  | [] => 0
  | t :: ts => t.size + sizes ts

end

/-- The addresses of the roots of trees that are put one behind the other. -/
def addresses (a : Nat) : List Tree → List Nat
  | [] => []
  | t :: ts => a :: addresses (a + t.size) ts

mutual

/-- The objects of the tree in preorder, from the address on. -/
def layout (a : Nat) : Tree → List Object
  | action uid => [⟨{ m_uid := uid, kind := .action }, []⟩]
  | composite c uid children =>
    ⟨c.node uid children.length, addresses (a + 1) children⟩ :: layouts (a + 1) children
  | decorator d uid child => ⟨d.node uid, [a + 1]⟩ :: child.layout (a + 1)

def layouts (a : Nat) : List Tree → List Object
  | [] => []
  | t :: ts => t.layout a ++ layouts (a + t.size) ts

end

@[simp] theorem length_addresses (a : Nat) (ts : List Tree) :
    (addresses a ts).length = ts.length := by
  induction ts generalizing a with
  | nil => rfl
  | cons t ts ih => simp [addresses, ih]

mutual

@[simp] theorem length_layout (a : Nat) : (t : Tree) → (t.layout a).length = t.size
  | action _ => rfl
  | composite _ _ children => by simp [layout, size, length_layouts (a + 1) children]
  | decorator _ _ child => by simp [layout, size, length_layout (a + 1) child]

@[simp] theorem length_layouts (a : Nat) : (ts : List Tree) → (layouts a ts).length = sizes ts
  | [] => rfl
  | t :: ts => by
    simp [layouts, sizes, length_layout a t, length_layouts (a + t.size) ts]

end

mutual

/-- Wherever the objects of a tree lie together, they denote it. -/
theorem denotes_layout (pre post : List Object) :
    (t : Tree) → Denotes (pre ++ t.layout pre.length ++ post) pre.length t.toBehavior
  | action uid => ⟨[], by simp [layout], trivial⟩
  | composite c uid children => by
    refine ⟨addresses (pre.length + 1) children, by simp [layout], ?_⟩
    have h := denotesAll_layouts
      (pre ++ [⟨c.node uid children.length, addresses (pre.length + 1) children⟩]) post children
    simpa [layout] using h
  | decorator d uid child => by
    refine ⟨[pre.length + 1], by simp [layout], ?_, trivial⟩
    have h := denotes_layout (pre ++ [⟨d.node uid, [pre.length + 1]⟩]) post child
    simpa [layout] using h

theorem denotesAll_layouts (pre post : List Object) :
    (ts : List Tree) → DenotesAll (pre ++ layouts pre.length ts ++ post)
      (addresses pre.length ts) (toBehaviors ts)
  | [] => trivial
  | t :: ts => by
    have hhead := denotes_layout pre (layouts (pre.length + t.size) ts ++ post) t
    have htail := denotesAll_layouts (pre ++ t.layout pre.length) post ts
    rw [List.length_append, length_layout] at htail
    constructor
    · simpa [layouts] using hhead
    · simpa [layouts] using htail

end

end Tree

/-! ## Running the calls -/

/-- Several children, one after the other. -/
def Object.addChildren (o : Object) (children : List Nat) : Object :=
  children.foldl Object.addChild o

/-- A composite takes its children in order, and its iterator stays behind them. -/
theorem Object.addChildren_composite (c : CompositeClass) (uid : String) (as bs : List Nat) :
    Object.addChildren ⟨c.node uid as.length, as⟩ bs =
      ⟨c.node uid (as.length + bs.length), as ++ bs⟩ := by
  induction bs generalizing as with
  | nil => simp [addChildren]
  | cons b bs ih =>
    have hfirst : Object.addChild ⟨c.node uid as.length, as⟩ b =
        ⟨c.node uid (as ++ [b]).length, as ++ [b]⟩ := by
      cases c <;> simp [addChild, CompositeClass.node, Kind.getType, Kind.pushBack]
    have hrest := ih (as ++ [b])
    rw [addChildren, List.foldl_cons, hfirst]
    simpa [addChildren, Nat.add_comm, Nat.add_left_comm] using hrest

theorem Object.addChildren_addresses (c : CompositeClass) (uid : String) (a : Nat)
    (ts : List Tree) :
    Object.addChildren ⟨c.node uid 0, []⟩ (Tree.addresses a ts) =
      ⟨c.node uid ts.length, Tree.addresses a ts⟩ := by
  have h := addChildren_composite c uid [] (Tree.addresses a ts)
  simpa using h

theorem Object.addChild_decorator (d : DecoratorClass) (uid : String) (a : Nat) :
    Object.addChild ⟨d.node uid, []⟩ a = ⟨d.node uid, [a]⟩ := by
  cases d <;> rfl

theorem modify_append_length {α : Type*} (f : α → α) (pre : List α) (x : α) (post : List α) :
    (pre ++ x :: post).modify pre.length f = pre ++ f x :: post := by
  induction pre with
  | nil => rfl
  | cons y pre ih => simpa using ih

namespace BehaviorTreeBuilder

/-- The builder at work on an object: that is what the top of the stack points to. -/
def workingOn (pre : List Object) (o : Object) (post : List Object) (root : Nat)
    (below : List Nat) : BehaviorTreeBuilder where
  heap := pre ++ o :: post
  m_root := some root
  m_nodeStack := pre.length :: below

section

variable {pre post : List Object} {o : Object} {root : Nat} {below : List Nat}

/-- An action becomes a child of the object and is not pushed. -/
theorem Action_workingOn (uid : String) :
    (workingOn pre o post root below).Action uid =
      some (workingOn pre (o.addChild (pre ++ o :: post).length)
        (post ++ [⟨{ m_uid := uid, kind := .action }, []⟩]) root below) := by
  simp [Action, addBehavior, workingOn, Kind.getType, modify_append_length]

/-- Any other node is what the builder works on next. -/
theorem addBehavior_workingOn {n : Node} (h : n.kind.getType ≠ .action) :
    (workingOn pre o post root below).addBehavior n =
      some (workingOn (pre ++ o.addChild (pre ++ o :: post).length :: post) ⟨n, []⟩ [] root
        (pre.length :: below)) := by
  have htype : n.kind.getType = .composite ∨ n.kind.getType = .decorator := by
    cases hn : n.kind.getType <;> simp_all
  simp [addBehavior, workingOn, htype, modify_append_length]

/-- The first node becomes the root. -/
theorem addBehavior_empty {n : Node} (h : n.kind.getType ≠ .action) :
    ({} : BehaviorTreeBuilder).addBehavior n = some (workingOn [] ⟨n, []⟩ [] 0 []) := by
  have htype : n.kind.getType = .composite ∨ n.kind.getType = .decorator := by
    cases hn : n.kind.getType <;> simp_all
  simp [addBehavior, workingOn, htype]

theorem step_call_composite (c : CompositeClass) (uid : String) (b : BehaviorTreeBuilder) :
    b.step (c.call uid) = b.addBehavior (c.node uid 0) := by
  cases c <;> rfl

theorem step_call_decorator (d : DecoratorClass) (uid : String) (b : BehaviorTreeBuilder) :
    b.step (d.call uid) = b.addBehavior (d.node uid) := by
  cases d <;> rfl

/-- Once the children of an object are there, `Back()` returns to the one it was added to. -/
theorem step_back (o' : Object) (post' : List Object) :
    (workingOn (pre ++ o :: post) o' post' root (pre.length :: below)).step .back =
      some (workingOn pre o (post ++ o' :: post') root below) := by
  simp [step, Back, workingOn]

/-- The last node stays on the stack. -/
theorem step_back_root :
    (workingOn pre o post root []).step .back = some (workingOn pre o post root []) := rfl

end

open NBRaft.BehaviorTree.Tree

mutual

/-- The calls for a tree make it a child of the object the builder works on, and put its objects
behind all others. -/
theorem run_preorder (pre : List Object) (o : Object) (post : List Object) (root : Nat)
    (below : List Nat) : (t : Tree) →
    run step (workingOn pre o post root below) t.preorder =
      some (workingOn pre (o.addChild (pre ++ o :: post).length)
        (post ++ t.layout (pre ++ o :: post).length) root below)
  | action uid => by
    have h : (workingOn pre o post root below).Action uid = some _ := Action_workingOn uid
    simpa [preorder, run_cons, step, layout] using h
  | composite c uid children => by
    have hcall := step_call_composite c uid (workingOn pre o post root below)
    rw [addBehavior_workingOn (by cases c <;> simp [CompositeClass.node, Kind.getType])] at hcall
    have hchildren := run_preorders (pre ++ o.addChild (pre ++ o :: post).length :: post)
      ⟨c.node uid 0, []⟩ [] root (pre.length :: below) children
    have hrun := run_cons_eq_some.mpr ⟨_, hcall, run_concat_eq_some.mpr
      ⟨_, hchildren, step_back _ _⟩⟩
    simpa [preorder, layout, Object.addChildren_addresses, Nat.add_assoc] using hrun
  | decorator d uid child => by
    have hcall := step_call_decorator d uid (workingOn pre o post root below)
    rw [addBehavior_workingOn (by cases d <;> simp [DecoratorClass.node, Kind.getType])] at hcall
    have hchild := run_preorder (pre ++ o.addChild (pre ++ o :: post).length :: post)
      ⟨d.node uid, []⟩ [] root (pre.length :: below) child
    have hrun := run_cons_eq_some.mpr ⟨_, hcall, run_concat_eq_some.mpr
      ⟨_, hchild, step_back _ _⟩⟩
    simpa [preorder, layout, Object.addChild_decorator, Nat.add_assoc] using hrun

theorem run_preorders (pre : List Object) (o : Object) (post : List Object) (root : Nat)
    (below : List Nat) : (ts : List Tree) →
    run step (workingOn pre o post root below) (preorders ts) =
      some (workingOn pre (o.addChildren (addresses (pre ++ o :: post).length ts))
        (post ++ layouts (pre ++ o :: post).length ts) root below)
  | [] => by simp [preorders, addresses, layouts, Object.addChildren]
  | t :: ts => by
    have hhead := run_preorder pre o post root below t
    have htail := run_preorders pre (o.addChild (pre ++ o :: post).length)
      (post ++ t.layout (pre ++ o :: post).length) root below ts
    have hrun := run_append_eq_some.mpr ⟨_, hhead, htail⟩
    have hlength : (pre ++ o.addChild (pre ++ o :: post).length ::
        (post ++ t.layout (pre ++ o :: post).length)).length =
        (pre ++ o :: post).length + t.size := by
      simp [Nat.add_assoc, Nat.add_comm, Nat.add_left_comm]
    rw [hlength] at hrun
    rw [preorders, hrun, addresses, layouts, List.append_assoc]
    rfl

end

/-- From a fresh builder the calls for a tree lay it out from address `0` on. -/
theorem run_preorder_empty (t : Tree) :
    ∃ stack, run step {} t.preorder = some ⟨t.layout 0, some 0, stack⟩ := by
  cases t with
  | action uid => exact ⟨[], rfl⟩
  | composite c uid children =>
    refine ⟨[0], ?_⟩
    have hcall := step_call_composite c uid {}
    rw [addBehavior_empty (by cases c <;> simp [CompositeClass.node, Kind.getType])] at hcall
    have hchildren := run_preorders [] ⟨c.node uid 0, []⟩ [] 0 [] children
    have hrun := run_cons_eq_some.mpr ⟨_, hcall, run_concat_eq_some.mpr
      ⟨_, hchildren, step_back_root⟩⟩
    simpa [preorder, layout, Object.addChildren_addresses, workingOn] using hrun
  | decorator d uid child =>
    refine ⟨[0], ?_⟩
    have hcall := step_call_decorator d uid {}
    rw [addBehavior_empty (by cases d <;> simp [DecoratorClass.node, Kind.getType])] at hcall
    have hchild := run_preorder [] ⟨d.node uid, []⟩ [] 0 [] child
    have hrun := run_cons_eq_some.mpr ⟨_, hcall, run_concat_eq_some.mpr
      ⟨_, hchild, step_back_root⟩⟩
    simpa [preorder, layout, Object.addChild_decorator, workingOn] using hrun

/-- The builder gives back the tree that was described to it, and no other one. -/
theorem End_preorder (t : Tree) :
    ∃ b root, run step {} t.preorder = some b ∧ b.End.1 = some root ∧
      ∀ tree, Denotes b.End.2.heap root tree ↔ tree = t.toBehavior := by
  obtain ⟨stack, hrun⟩ := run_preorder_empty t
  refine ⟨_, 0, hrun, rfl, fun tree => ?_⟩
  have hdenotes : Denotes (t.layout 0) 0 t.toBehavior := by
    simpa using denotes_layout [] [] t
  constructor
  · exact fun h => h.unique hdenotes
  · rintro rfl
    exact hdenotes

end BehaviorTreeBuilder

end NBRaft.BehaviorTree
