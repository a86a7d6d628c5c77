import NBRaft.BehaviorTree.Loops
import NBRaft.Library.StableList

/-!
# The cursor of a sequence

`Sequence` keeps the iterator `m_currentChild` from one tick to the next as long as it is running,
and so do the classes derived from it. The children may be changed in the meantime: `std::list`
leaves the iterators alone when elements come, but one at an element that goes dangles.

A child is known by its pointer here, and what it returns when it is ticked is told with the tick.
-/

namespace NBRaft.BehaviorTree

open Transition

/-- The classes of which the update uses `m_currentChild`. -/
inductive CursorClass where
  | sequence
  | filter
  | activeSelector
  deriving DecidableEq, Repr

/-- A `Sequence`, with the iterator as an address in the list, `none` for `end()`. -/
structure Sequence (Ptr : Type) where
  cls : CursorClass
  m_children : StableList Ptr
  m_currentChild : Option Nat
  m_status : EStatus

namespace Sequence

variable {Ptr : Type}

/-- The constructor. -/
def new (cls : CursorClass) : Sequence Ptr where
  cls := cls
  m_children := {}
  m_currentChild := none
  m_status := .invalid

inductive Event (Ptr : Type) where
  /-- `returned` tells for every element what the tick of the child there returns. -/
  | tick (returned : Nat → EStatus)
  | addChild (child : Ptr)
  | removeChile (uid : String)
  | removeChild (child : Ptr)
  | clearChildren
  | AddCondition (condition : Ptr)
  | AddAction (action : Ptr)

/-- Tick the children at these elements as long as they return `go`. Also tells at which element
that has stopped. -/
def tickChildren (returned : Nat → EStatus) (go : EStatus) :
    List (Nat × Ptr) → EStatus × Option Nat
  | [] => (go, none)
  | (a, _) :: rest => if returned a ≠ go then (returned a, some a) else
    tickChildren returned go rest

def onInitialize (b : Sequence Ptr) : Sequence Ptr :=
  { b with m_currentChild := b.m_children.begin }

/-- `onUpdate` of each class; nothing is known once it uses an iterator that dangles. -/
def onUpdate (returned : Nat → EStatus) (b : Sequence Ptr) : Option (EStatus × Sequence Ptr) :=
  if b.m_children.Valid b.m_currentChild then
    match b.cls with
    | .sequence | .filter =>
      let (s, it) := tickChildren returned .success (b.m_children.since b.m_currentChild)
      some (s, { b with m_currentChild := it })
    | .activeSelector =>
      -- `prev` is compared to the new iterator, and the child there may be aborted
      some ((tickChildren returned .failure b.m_children.elements).1, b.onInitialize)
  else none

def isRunning (b : Sequence Ptr) : Bool := b.m_status = .running

/-- `Behavior::tick`. -/
def tick (returned : Nat → EStatus) (b : Sequence Ptr) : Option (Sequence Ptr) := do
  let (s, b) ← onUpdate returned (if b.isRunning then b else b.onInitialize)
  some { b with m_status := s }

section

variable [DecidableEq Ptr] (getUID : Ptr → String)

/-- A call, between two ticks or the next of these. Only `Filter` has the last two. -/
def step (b : Sequence Ptr) : Event Ptr → Option (Sequence Ptr)
  | .tick returned => b.tick returned
  | .addChild child => some { b with m_children := b.m_children.pushBack child }
  | .removeChile uid =>
    some { b with m_children := b.m_children.eraseFirst fun child => getUID child = uid }
  | .removeChild child => some { b with m_children := b.m_children.remove (· = child) }
  | .clearChildren => some { b with m_children := b.m_children.clear }
  | .AddCondition condition =>
    if b.cls = .filter then some { b with m_children := b.m_children.pushFront condition } else none
  | .AddAction action =>
    if b.cls = .filter then some { b with m_children := b.m_children.pushBack action } else none

end

/-- If the next tick would use the cursor, it does not dangle. -/
def CursorValid (b : Sequence Ptr) : Prop :=
  b.m_status = .running → b.m_children.Valid b.m_currentChild

/-- While the node is running, the child that its cursor is at is not taken out. -/
def SparesCurrent (getUID : Ptr → String) (b : Sequence Ptr) : Event Ptr → Prop
  | .removeChile uid => b.m_status = .running → ∀ a e, b.m_currentChild = some a →
      b.m_children.elements.find? (fun e => getUID e.2 = uid) = some e → e.1 ≠ a
  | .removeChild child => b.m_status = .running → ∀ a v, b.m_currentChild = some a →
      (a, v) ∈ b.m_children.elements → v ≠ child
  | .clearChildren => b.m_status = .running → b.m_currentChild = none
  | _ => True

section

variable {getUID : Ptr → String} {returned : Nat → EStatus} {go s : EStatus} {a : Nat}
  {es : List (Nat × Ptr)} {b b' : Sequence Ptr}

/-- Where the loop stops before the end, the child has returned something else. -/
theorem tickChildren_stops (h : tickChildren returned go es = (s, some a)) :
    a ∈ es.map Prod.fst ∧ returned a = s ∧ s ≠ go := by
  induction es with
  | nil => cases h
  | cons e es ih =>
    rw [tickChildren] at h
    split at h
    · rename_i hne
      cases h
      exact ⟨List.mem_cons_self, rfl, hne⟩
    · obtain ⟨ha, hs⟩ := ih h
      exact ⟨List.mem_cons_of_mem _ ha, hs⟩

theorem CursorValid.entered (hb : b.CursorValid) :
    b.m_children.Valid (if b.isRunning then b else b.onInitialize).m_currentChild := by
  split
  · rename_i hrunning
    exact hb (of_decide_eq_true hrunning)
  · exact StableList.valid_begin

/-- The update leaves the list alone, and its cursor at an element of it. -/
theorem onUpdate_eq_some (h : onUpdate returned b = some (s, b')) :
    b.m_children.Valid b.m_currentChild ∧ b'.m_children = b.m_children ∧
      b'.m_children.Valid b'.m_currentChild := by
  unfold onUpdate at h
  split at h
  · rename_i hvalid
    refine ⟨hvalid, ?_⟩
    have hloop : b.m_children.Valid
        (tickChildren returned .success (b.m_children.since b.m_currentChild)).2 := by
      intro a ha
      have hmem := (tickChildren_stops (Prod.ext rfl ha)).1
      exact ((StableList.since_sublist _ _).map Prod.fst).subset hmem
    cases hcls : b.cls <;> rw [hcls] at h <;> cases h
    · exact ⟨rfl, hloop⟩
    · exact ⟨rfl, hloop⟩
    · exact ⟨rfl, StableList.valid_begin⟩
  · cases h

/-- A tick goes wrong in exactly those states in which it would use a cursor that dangles. -/
theorem isSome_tick_iff : (b.tick returned).isSome = true ↔ b.CursorValid := by
  constructor
  · intro h hrunning
    obtain ⟨b', h⟩ := Option.isSome_iff_exists.mp h
    obtain ⟨⟨s, c⟩, hupdate, -⟩ := Option.bind_eq_some_iff.mp h
    rw [if_pos (by exact decide_eq_true hrunning)] at hupdate
    exact (onUpdate_eq_some hupdate).1
  · intro hb
    have hchildren : (if b.isRunning then b else b.onInitialize).m_children = b.m_children := by
      split <;> rfl
    have hvalid := hb.entered
    rw [← hchildren] at hvalid
    unfold tick onUpdate
    rw [if_pos hvalid]
    cases (if b.isRunning then b else b.onInitialize).cls <;> rfl

theorem cursorValid_tick (h : b.tick returned = some b') : b'.CursorValid := by
  obtain ⟨⟨s, c⟩, hupdate, hresult⟩ := Option.bind_eq_some_iff.mp h
  cases hresult
  exact fun _ => (onUpdate_eq_some hupdate).2.2

variable [DecidableEq Ptr]

theorem cursorValid_step_iff {e : Event Ptr} (h : b.step getUID e = some b')
    (hb : b.CursorValid) : b'.CursorValid ↔ SparesCurrent getUID b e := by
  cases e with
  | tick returned => exact iff_of_true (cursorValid_tick h) trivial
  | addChild child =>
    cases h
    exact iff_of_true (fun hrunning => (hb hrunning).pushBack child) trivial
  | removeChile uid =>
    cases h
    refine forall_congr' fun hrunning => (StableList.valid_eraseFirst_iff (hb hrunning)).trans ?_
    rfl
  | removeChild child =>
    cases h
    refine forall_congr' fun hrunning => (StableList.valid_remove_iff (hb hrunning)).trans ?_
    simp
  | clearChildren =>
    cases h
    exact forall_congr' fun _ => StableList.valid_clear_iff
  | AddCondition condition =>
    obtain ⟨-, h⟩ := Option.ite_none_right_eq_some.mp h
    cases h
    exact iff_of_true (fun hrunning => (hb hrunning).pushFront condition) trivial
  | AddAction action =>
    obtain ⟨-, h⟩ := Option.ite_none_right_eq_some.mp h
    cases h
    exact iff_of_true (fun hrunning => (hb hrunning).pushBack action) trivial

/-- No removal is ever refused. -/
theorem sparesCurrent_of_refused {e : Event Ptr} (h : b.step getUID e = none) :
    SparesCurrent getUID b e := by
  cases e with
  | removeChile | removeChild | clearChildren => cases h
  | tick | addChild | AddCondition | AddAction => trivial

/-- Whatever is done between the ticks, the cursor is valid wherever the next tick would use it,
exactly if no call takes out the child at which a running node has stopped. -/
theorem cursorValid_iff (getUID : Ptr → String) (cls : CursorClass) (es : List (Event Ptr)) :
    Throughout (step getUID) CursorValid (new cls) es ↔
      Along (step getUID) (SparesCurrent getUID) (new cls) es := by
  apply throughout_iff_along_of_refused
  · intro b e c h hb
    exact cursorValid_step_iff h hb
  · intro b e h _
    exact sparesCurrent_of_refused h
  · intro h
    cases h

end

/-- The patrol is taken out while it is running, and the next tick would go on with it. -/
theorem removed_while_running : ∃ b,
    run (step id) (new .sequence)
      [.addChild "patrol", .tick fun _ => .running, .removeChild "patrol"] = some b ∧
    b.tick (fun _ => .success) = none ∧
    ¬ Throughout (step id) CursorValid (new .sequence)
      [.addChild "patrol", .tick fun _ => .running, .removeChild "patrol"] := by
  have h : run (step id) (new .sequence)
    [.addChild "patrol", .tick fun _ => .running, .removeChild "patrol"] = some _ := rfl
  refine ⟨_, h, rfl, fun hall => ?_⟩
  have hdangling := hall.last h rfl 0 rfl
  exact absurd hdangling (by decide)

end Sequence

/-- Without changes to the children, the iterator is where the position of `Kind.sequence` is. -/
theorem tickChildren_eq_tickWhile {W Ptr : Type} {f : Tick W} {go s : EStatus} {k : Nat}
    {cs cs' : List Behavior} {w w' : World W} {es : List (Nat × Ptr)} {returned : Nat → EStatus}
    (h : tickWhile f go cs w = some (s, cs', k, w')) (hlength : es.length = cs.length)
    (hreturned : ∀ i e c, i ≤ k → es[i]? = some e → cs'[i]? = some c →
      returned e.1 = c.m_status) :
    Sequence.tickChildren returned go es = (s, es[k]?.map Prod.fst) := by
  induction cs generalizing cs' k w es with
  | nil =>
    cases h
    obtain rfl := List.length_eq_zero_iff.mp hlength
    rfl
  | cons c cs ih =>
    obtain ⟨e, es, rfl⟩ := List.exists_cons_of_length_eq_add_one hlength
    obtain ⟨c', u, -, ⟨hgo, rfl, rfl, rfl, rfl⟩ | ⟨rest, k', hgo, hrest, rfl, rfl⟩⟩ :=
      tickWhile_cons h
    · have hfirst := hreturned 0 e c' (Nat.le_refl _) rfl rfl
      simp [Sequence.tickChildren, hfirst, hgo]
    · have hfirst := hreturned 0 e c' (Nat.zero_le _) rfl rfl
      have htail := ih hrest (Nat.succ.inj hlength) fun i e c hi he hc =>
        hreturned (i + 1) e c (Nat.succ_le_succ hi) he hc
      simp [Sequence.tickChildren, hfirst, hgo, htail]

end NBRaft.BehaviorTree
