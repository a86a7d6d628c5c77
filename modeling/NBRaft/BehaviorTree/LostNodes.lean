import NBRaft.BehaviorTree.Builder
import Mathlib.Logic.Relation

/-!
# The nodes a builder loses

Every call but `Back()` adds an object. The builder keeps it, and all the others, as long as the
object on top of its stack takes another child: a decorator gives up the one it has, and above an
action that is the root there is nothing on the stack at all. Whether that happens is seen from the
calls alone, with the room there is at the nodes that are still open.
-/

namespace NBRaft.BehaviorTree

open Transition Relation

/-- A vertex that has just been added leads nowhere, so it opens no way to the others. -/
theorem reflTransGen_of_grows {α : Type*} {E E' : α → α → Prop} {r a new : α}
    (hE : ∀ x y, E' x y → E x y ∨ y = new) (hnew : ∀ y, ¬ E' new y)
    (h : ReflTransGen E' r a) (ha : a ≠ new) : ReflTransGen E r a := by
  induction h with
  | refl => exact .refl
  | @tail b c hrest hedge ih =>
    obtain hold | hc := hE b c hedge
    · have hb : b ≠ new := by
        rintro rfl
        exact hnew c hedge
      exact (ih hb).tail hold
    · exact absurd hc ha

/-! ## What lies below the root -/

/-- The object at `parent` has the one at `child` for a child. -/
def ChildOf (heap : List Object) (parent child : Nat) : Prop :=
  ∃ o, heap[parent]? = some o ∧ child ∈ o.m_children

/-- The object is the one at `root` or lies below it. -/
def Reaches (heap : List Object) (root : Nat) : Nat → Prop := ReflTransGen (ChildOf heap) root

namespace BehaviorTreeBuilder

/-- Every behaviour that has been added lies below the root. -/
def LosesNone (b : BehaviorTreeBuilder) : Prop :=
  ∀ a < b.End.2.heap.length, ∃ root, b.End.1 = some root ∧ Reaches b.End.2.heap root a

/-! ## Room for another child -/

/-- How many more children a node takes without giving one up. -/
inductive Room where
  | unbounded
  | single
  | full
  deriving DecidableEq, Repr

/-- What is left after another child. -/
def Room.take : Room → Option Room
  | unbounded => some unbounded
  | single => some full
  | full => none

/-- What the object takes. -/
def room (o : Object) : Room :=
  match o.self.kind.getType, o.m_children with
  | .composite, _ => .unbounded
  | .decorator, [] => .single
  | .decorator, _ :: _ => .full
  | .action, _ => .full

/-- The behaviour that a call adds. -/
def Call.behavior : Call → Option Node
  | .sequence uid => some { m_uid := uid, kind := .sequence false 0 }
  | .selector uid => some { m_uid := uid, kind := .selector 0 }
  | .parallel uid successPolicy failurePolicy =>
    some { m_uid := uid, kind := .parallel false successPolicy failurePolicy }
  | .inverter uid => some { m_uid := uid, kind := .inverter }
  | .repeats uid limit => some { m_uid := uid, kind := .repeats 0 limit }
  | .action uid => some { m_uid := uid, kind := .action }
  | .filter uid => some { m_uid := uid, kind := .sequence true 0 }
  | .activeSelector uid => some { m_uid := uid, kind := .activeSelector 0 }
  | .monitor uid successPolicy failurePolicy =>
    some { m_uid := uid, kind := .parallel true successPolicy failurePolicy }
  | .back => none

/-- The rooms of the nodes that are open, the innermost first; an action is not. There are none
before the first node. -/
abbrev Site := Option (List Room)

/-- The open nodes once the new one is there. -/
def opened (type : EMetaType) (rooms : List Room) : List Room :=
  match type with
  | .composite => .unbounded :: rooms
  | .decorator => .single :: rooms
  | .action => rooms

/-- A call where the innermost open node has room for what it adds. -/
def place (site : Site) (call : Call) : Option Site :=
  match call.behavior with
  | none => some (site.map fun rooms => if rooms.length > 1 then rooms.tail else rooms)
  | some behavior =>
    match site with
    | none => some (some (opened behavior.kind.getType []))
    | some [] => none
    | some (room :: rooms) =>
      room.take.map fun room => some (opened behavior.kind.getType (room :: rooms))

/-- No behaviour is added where there is no room for it: above an action that is the root, or to a
decorator that has its child. -/
def FindRoom (calls : List Call) : Prop := (run place none calls).isSome = true

instance (calls : List Call) : Decidable (FindRoom calls) :=
  inferInstanceAs (Decidable (_ = true))

/-! ## One more object on the heap -/

/-- The heap once a new object has become a child of the one at `peek`. -/
def grown (heap : List Object) (behavior : Node) (peek : Nat) : List Object :=
  (heap ++ [Object.mk behavior []]).modify peek (·.addChild heap.length)

section

variable {heap : List Object} {behavior : Node} {peek p c : Nat} {o : Object}

@[simp] theorem length_grown : (grown heap behavior peek).length = heap.length + 1 := by
  simp [grown]

theorem grown_peek (ho : heap[peek]? = some o) :
    (grown heap behavior peek)[peek]? = some (o.addChild heap.length) := by
  have hlt : peek < heap.length := (List.getElem?_eq_some_iff.mp ho).1
  simp [grown, List.getElem?_append_left hlt, ho]

theorem grown_old (hp : p < heap.length) (hne : p ≠ peek) :
    (grown heap behavior peek)[p]? = heap[p]? := by
  simp [grown, List.getElem?_append_left hp, hne.symm]

theorem grown_new (hpeek : peek < heap.length) :
    (grown heap behavior peek)[heap.length]? = some ⟨behavior, []⟩ := by
  simp [grown, Nat.ne_of_lt hpeek]

/-- The children are those there were, but for those of `peek`. -/
theorem childOf_grown (ho : heap[peek]? = some o) :
    ChildOf (grown heap behavior peek) p c ↔
      (p = peek ∧ c ∈ (o.addChild heap.length).m_children) ∨ (p ≠ peek ∧ ChildOf heap p c) := by
  have hpeek : peek < heap.length := (List.getElem?_eq_some_iff.mp ho).1
  unfold ChildOf
  by_cases hp : p = peek
  · subst hp
    simp [grown_peek ho]
  · rcases Nat.lt_trichotomy p heap.length with hlt | rfl | hgt
    · simp [hp, grown_old hlt hp]
    · rw [grown_new hpeek]
      simp [hp]
    · have hnone : (grown heap behavior peek)[p]? = none := by
        rw [List.getElem?_eq_none_iff, length_grown]
        exact hgt
      have hnone' : heap[p]? = none := List.getElem?_eq_none_iff.mpr (Nat.le_of_lt hgt)
      simp [hp, hnone, hnone']

theorem getType_addChild (o : Object) (a : Nat) :
    (o.addChild a).self.kind.getType = o.self.kind.getType := by
  obtain ⟨n, cs⟩ := o
  obtain ⟨uid, kind, s, hooks⟩ := n
  cases kind <;> rfl

/-- A new child is the only one that may come. -/
theorem mem_addChild {a : Nat} (h : c ∈ (o.addChild a).m_children) : c ∈ o.m_children ∨ c = a := by
  unfold Object.addChild at h
  split at h
  · simpa using h
  · exact .inr (List.mem_singleton.mp h)
  · exact .inl h

end

/-! ## What a call does -/

/-- A composite and a decorator go onto the stack. -/
def pushed (type : EMetaType) (address : Nat) (stack : List Nat) : List Nat :=
  if type = .composite ∨ type = .decorator then address :: stack else stack

section

variable {b t : BehaviorTreeBuilder} {behavior : Node} {call : Call} {root peek : Nat}
  {below : List Nat}

theorem step_eq : b.step call = match call.behavior with
    | some behavior => b.addBehavior behavior
    | none => some b.Back := by
  cases call <;> rfl

theorem addBehavior_root (hroot : b.m_root = none) : b.addBehavior behavior =
    some ⟨b.heap ++ [⟨behavior, []⟩], some b.heap.length,
      pushed behavior.kind.getType b.heap.length b.m_nodeStack⟩ := by
  by_cases htype : behavior.kind.getType = .composite ∨ behavior.kind.getType = .decorator
  · simp [addBehavior, hroot, pushed, htype]
  · simp [addBehavior, hroot, pushed, htype]

theorem addBehavior_child (hroot : b.m_root = some root) (hstack : b.m_nodeStack = peek :: below) :
    b.addBehavior behavior = some ⟨grown b.heap behavior peek, some root,
      pushed behavior.kind.getType b.heap.length (peek :: below)⟩ := by
  by_cases htype : behavior.kind.getType = .composite ∨ behavior.kind.getType = .decorator
  · simp [addBehavior, hroot, hstack, pushed, htype, grown]
  · simp [addBehavior, hroot, hstack, pushed, htype, grown]

theorem addBehavior_none (hroot : b.m_root = some root) (hstack : b.m_nodeStack = []) :
    b.addBehavior behavior = none := by
  simp [addBehavior, hroot, hstack]

/-- A call takes an open node from the stack, or it adds a behaviour as the root or below the
object on top of the stack. -/
inductive Steps (b : BehaviorTreeBuilder) (call : Call) : BehaviorTreeBuilder → Prop where
  | back (hcall : call.behavior = none) : Steps b call b.Back
  | root {behavior : Node} (hcall : call.behavior = some behavior) (hroot : b.m_root = none) :
    Steps b call ⟨b.heap ++ [⟨behavior, []⟩], some b.heap.length,
      pushed behavior.kind.getType b.heap.length b.m_nodeStack⟩
  | child {behavior : Node} {root peek : Nat} {below : List Nat}
    (hcall : call.behavior = some behavior) (hroot : b.m_root = some root)
    (hstack : b.m_nodeStack = peek :: below) :
    Steps b call ⟨grown b.heap behavior peek, some root,
      pushed behavior.kind.getType b.heap.length (peek :: below)⟩

theorem steps_of_step (h : b.step call = some t) : Steps b call t := by
  rw [step_eq] at h
  cases hcall : call.behavior with
  | none =>
    obtain rfl : b.Back = t := by simpa [hcall] using h
    exact .back hcall
  | some behavior =>
    replace h : b.addBehavior behavior = some t := by simpa [hcall] using h
    cases hroot : b.m_root with
    | none =>
      cases (addBehavior_root hroot).symm.trans h
      exact .root hcall hroot
    | some root =>
      cases hstack : b.m_nodeStack with
      | nil => cases (addBehavior_none hroot hstack).symm.trans h
      | cons peek below =>
        cases (addBehavior_child hroot hstack).symm.trans h
        exact .child hcall hroot hstack

theorem mem_pushed {type : EMetaType} {address a : Nat} {stack : List Nat}
    (h : a ∈ pushed type address stack) : (a = address ∧ type ≠ .action) ∨ a ∈ stack := by
  unfold pushed at h
  split at h
  · rename_i htype
    rcases List.mem_cons.mp h with rfl | h
    · refine .inl ⟨rfl, ?_⟩
      rintro rfl
      simp at htype
    · exact .inr h
  · exact .inr h

theorem mem_back {a : Nat} (h : a ∈ b.Back.m_nodeStack) : a ∈ b.m_nodeStack := by
  unfold Back at h
  split at h
  · exact List.mem_of_mem_tail h
  · exact h

@[simp] theorem heap_back : b.Back.heap = b.heap := by
  unfold Back
  split <;> rfl

@[simp] theorem m_root_back : b.Back.m_root = b.m_root := by
  unfold Back
  split <;> rfl

end

/-! ## Every object below its parent -/

/-- A child has been added after its parent, and has no other parent. -/
structure Consistent (b : BehaviorTreeBuilder) : Prop where
  empty : b.m_root = none → b.heap = [] ∧ b.m_nodeStack = []
  root : ∀ r, b.m_root = some r → r = 0
  child : ∀ p c, ChildOf b.heap p c → p < c ∧ c < b.heap.length
  parent : ∀ p q c, ChildOf b.heap p c → ChildOf b.heap q c → p = q
  stack : ∀ a ∈ b.m_nodeStack, ∃ o, b.heap[a]? = some o ∧ o.self.kind.getType ≠ .action
  nodup : b.m_nodeStack.Nodup

theorem consistent_empty : Consistent {} where
  empty _ := ⟨rfl, rfl⟩
  root _ h := nomatch h
  child _ _ h := by
    obtain ⟨_, ho, -⟩ := h
    cases ho
  parent _ _ _ h := by
    obtain ⟨_, ho, -⟩ := h
    cases ho
  stack _ h := nomatch h
  nodup := .nil

section

variable {b t : BehaviorTreeBuilder} {behavior : Node} {call : Call} {root peek : Nat}
  {below : List Nat}

theorem nodup_pushed {type : EMetaType} {address : Nat} {stack : List Nat} (h : stack.Nodup)
    (hnew : address ∉ stack) : (pushed type address stack).Nodup := by
  unfold pushed
  split
  · exact List.nodup_cons.mpr ⟨hnew, h⟩
  · exact h

theorem Consistent.back (h : Consistent b) : Consistent b.Back where
  empty hroot := by
    obtain ⟨hheap, hstack⟩ := h.empty (by simpa using hroot)
    exact ⟨by simpa using hheap, by simp [Back, hstack]⟩
  root r hroot := h.root r (by simpa using hroot)
  child p c hc := by simpa using h.child p c (by simpa using hc)
  parent p q c hp hq := h.parent p q c (by simpa using hp) (by simpa using hq)
  stack a ha := by simpa using h.stack a (mem_back ha)
  nodup := by
    unfold Back
    split
    · exact h.nodup.tail
    · exact h.nodup

theorem Consistent.root_added (h : Consistent b) (hroot : b.m_root = none) :
    Consistent ⟨b.heap ++ [⟨behavior, []⟩], some b.heap.length,
      pushed behavior.kind.getType b.heap.length b.m_nodeStack⟩ := by
  obtain ⟨hheap, hstack⟩ := h.empty hroot
  have hnone : ∀ p c, ¬ ChildOf (b.heap ++ [⟨behavior, []⟩]) p c := by
    rintro p c ⟨o, ho, hc⟩
    obtain rfl : o = ⟨behavior, []⟩ := by simpa [hheap] using List.mem_of_getElem? ho
    cases hc
  constructor
  · exact nofun
  · intro r hr
    simpa [hheap] using hr.symm
  · exact fun p c hc => absurd hc (hnone p c)
  · exact fun p q c hp => absurd hp (hnone p c)
  · intro a ha
    obtain ⟨rfl, htype⟩ | ha := mem_pushed ha
    · exact ⟨⟨behavior, []⟩, by simp, htype⟩
    · simp [hstack] at ha
  · exact nodup_pushed (hstack ▸ .nil) (by simp [hstack])

theorem Consistent.child_added (h : Consistent b) (hroot : b.m_root = some root)
    (hstack : b.m_nodeStack = peek :: below) :
    Consistent ⟨grown b.heap behavior peek, some root,
      pushed behavior.kind.getType b.heap.length (peek :: below)⟩ := by
  obtain ⟨o, ho, htype⟩ := h.stack peek (by simp [hstack])
  have hpeek : peek < b.heap.length := (List.getElem?_eq_some_iff.mp ho).1
  have hold : ∀ p c, ChildOf (grown b.heap behavior peek) p c →
      ChildOf b.heap p c ∨ (p = peek ∧ c = b.heap.length) := by
    intro p c hc
    obtain ⟨rfl, hmem⟩ | ⟨-, hc⟩ := (childOf_grown ho).mp hc
    · rcases mem_addChild hmem with hmem | rfl
      · exact .inl ⟨o, ho, hmem⟩
      · exact .inr ⟨rfl, rfl⟩
    · exact .inl hc
  have hlt : ∀ a ∈ peek :: below, a < b.heap.length := by
    intro a ha
    obtain ⟨o', ho', -⟩ := h.stack a (hstack ▸ ha)
    exact (List.getElem?_eq_some_iff.mp ho').1
  constructor
  · exact nofun
  · intro r hr
    exact h.root r (hroot.trans hr)
  · intro p c hc
    obtain hc | ⟨rfl, rfl⟩ := hold p c hc
    · obtain ⟨hpc, hc⟩ := h.child p c hc
      exact ⟨hpc, by simpa using Nat.lt_succ_of_lt hc⟩
    · exact ⟨hpeek, by simp⟩
  · intro p q c hp hq
    obtain hp' | ⟨hpeek, hc⟩ := hold p c hp
    · obtain hq' | ⟨-, hc⟩ := hold q c hq
      · exact h.parent p q c hp' hq'
      · exact absurd hc (Nat.ne_of_lt (h.child p c hp').2)
    · obtain hq' | ⟨hpeek', -⟩ := hold q c hq
      · exact absurd hc (Nat.ne_of_lt (h.child q c hq').2)
      · exact hpeek.trans hpeek'.symm
  · intro a ha
    obtain ⟨rfl, htype'⟩ | ha := mem_pushed ha
    · exact ⟨_, grown_new hpeek, htype'⟩
    · by_cases hne : a = peek
      · subst hne
        exact ⟨_, grown_peek ho, by rwa [getType_addChild]⟩
      · obtain ⟨o', ho', htype'⟩ := h.stack a (hstack ▸ ha)
        exact ⟨o', (grown_old (hlt a ha) hne).trans ho', htype'⟩
  · refine nodup_pushed (hstack ▸ h.nodup) fun hmem => ?_
    exact absurd (hlt _ hmem) (Nat.lt_irrefl _)

theorem Consistent.step (h : Consistent b) (hst : b.step call = some t) : Consistent t := by
  cases steps_of_step hst with
  | back => exact h.back
  | root hcall hroot => exact h.root_added hroot
  | child hcall hroot hstack => exact h.child_added hroot hstack

end

/-! ## The room at the open nodes -/

def roomAt (heap : List Object) (a : Nat) : Room := (heap[a]?).elim .full room

theorem roomAt_of_getElem? {heap : List Object} {a : Nat} {o : Object} (ho : heap[a]? = some o) :
    roomAt heap a = room o := by
  simp [roomAt, ho]

/-- The rooms of the objects on the stack. -/
def site (b : BehaviorTreeBuilder) : Site :=
  b.m_root.map fun _ => b.m_nodeStack.map (roomAt b.heap)

section

variable {b t : BehaviorTreeBuilder} {behavior : Node} {call : Call} {o : Object} {left : Room}
  {root peek : Nat} {below : List Nat} {s : Site}

/-- Where there is room, a child is one more. -/
theorem addChild_of_take (h : (room o).take = some left) (a : Nat) :
    room (o.addChild a) = left ∧ (o.addChild a).m_children = o.m_children ++ [a] := by
  obtain ⟨n, cs⟩ := o
  have htype := getType_addChild ⟨n, cs⟩ a
  unfold room at h ⊢
  rw [htype]
  unfold Object.addChild
  cases hn : n.kind.getType with
  | composite =>
    cases (show some Room.unbounded = some left by simpa [hn, Room.take] using h)
    simp
  | decorator =>
    cases cs with
    | nil =>
      cases (show some Room.full = some left by simpa [hn, Room.take] using h)
      simp
    | cons => simp [hn, Room.take] at h
  | action => simp [hn, Room.take] at h

/-- Where there is none, it takes the place of another one. -/
theorem addChild_of_full (htype : o.self.kind.getType ≠ .action) (h : (room o).take = none)
    (a : Nat) : (∃ c, c ∈ o.m_children) ∧ (o.addChild a).m_children = [a] := by
  obtain ⟨n, cs⟩ := o
  unfold room at h
  unfold Object.addChild
  cases hn : n.kind.getType with
  | composite => simp [hn, Room.take] at h
  | decorator =>
    cases cs with
    | nil => simp [hn, Room.take] at h
    | cons c cs => exact ⟨⟨c, List.mem_cons_self⟩, rfl⟩
  | action => exact absurd hn htype

theorem site_back : site b.Back =
    (site b).map fun rooms => if rooms.length > 1 then rooms.tail else rooms := by
  unfold site Back
  split
  · rename_i hlength
    cases b.m_root with
    | none => rfl
    | some => simp [hlength]
  · rename_i hlength
    cases b.m_root with
    | none => rfl
    | some => simp [hlength]

theorem site_root_added (heap : List Object) :
    site ⟨heap ++ [⟨behavior, []⟩], some heap.length,
      pushed behavior.kind.getType heap.length []⟩ = some (opened behavior.kind.getType []) := by
  cases htype : behavior.kind.getType <;> simp [site, pushed, opened, roomAt, room, htype]

theorem site_child_added (h : Consistent b) (hstack : b.m_nodeStack = peek :: below)
    (ho : b.heap[peek]? = some o) (hleft : (room o).take = some left) :
    site ⟨grown b.heap behavior peek, some root,
        pushed behavior.kind.getType b.heap.length (peek :: below)⟩ =
      some (opened behavior.kind.getType (left :: below.map (roomAt b.heap))) := by
  have hpeek : peek < b.heap.length := (List.getElem?_eq_some_iff.mp ho).1
  have hbelow : ∀ a ∈ below, roomAt (grown b.heap behavior peek) a = roomAt b.heap a := by
    intro a ha
    obtain ⟨o', ho', -⟩ := h.stack a (by simp [hstack, ha])
    have hne : a ≠ peek := by
      rintro rfl
      exact (List.nodup_cons.mp (hstack ▸ h.nodup)).1 ha
    simp only [roomAt, grown_old (List.getElem?_eq_some_iff.mp ho').1 hne]
  have hrooms := List.map_congr_left hbelow
  have htake : roomAt (grown b.heap behavior peek) peek = left :=
    (roomAt_of_getElem? (grown_peek ho)).trans (addChild_of_take hleft b.heap.length).1
  have hnew : roomAt (grown b.heap behavior peek) b.heap.length = room ⟨behavior, []⟩ :=
    roomAt_of_getElem? (grown_new hpeek)
  cases htype : behavior.kind.getType <;>
    simp [site, pushed, opened, hrooms, htake, hnew, room, htype]

/-! ## What is lost stays lost -/

theorem losesNone_back (h : LosesNone b) : LosesNone b.Back := by
  intro a ha
  obtain ⟨root, hroot, hreach⟩ := h a (by simpa [End] using ha)
  exact ⟨root, by simpa [End] using hroot, by simpa [End] using hreach⟩

/-- A new object opens no way to one that has been lost. -/
theorem LosesNone.of_step (hst : b.step call = some t) (hb : Consistent b) (h : LosesNone t) :
    LosesNone b := by
  intro a ha
  change a < b.heap.length at ha
  cases steps_of_step hst with
  | back hcall => simpa [End] using h a (by simpa [End] using ha)
  | root hcall hroot =>
    simp [(hb.empty hroot).1] at ha
  | @child behavior root peek below hcall hroot hstack =>
    obtain ⟨root', hroot', hreach⟩ := h a (by simpa [End] using Nat.lt_succ_of_lt ha)
    obtain rfl : root = root' := Option.some.inj hroot'
    obtain ⟨o, ho, -⟩ := hb.stack peek (by simp [hstack])
    have hpeek : peek < b.heap.length := (List.getElem?_eq_some_iff.mp ho).1
    refine ⟨root, hroot, reflTransGen_of_grows ?_ ?_ hreach (Nat.ne_of_lt ha)⟩
    · intro x y hxy
      obtain ⟨rfl, hmem⟩ | ⟨-, hc⟩ := (childOf_grown ho).mp hxy
      · exact (mem_addChild hmem).imp (fun hy => ⟨o, ho, hy⟩) id
      · exact .inl hc
    · rintro y ⟨o', ho', hy⟩
      obtain rfl := Option.some.inj ((grown_new hpeek).symm.trans ho')
      cases hy

/-- What has been added where there is room, and all else, can be reached. -/
theorem losesNone_of_take (h : LosesNone b) (hroot : b.m_root = some root)
    (ho : b.heap[peek]? = some o) (hleft : (room o).take = some left) (stack : List Nat) :
    LosesNone ⟨grown b.heap behavior peek, some root, stack⟩ := by
  have hchildren := (addChild_of_take hleft b.heap.length).2
  have hold : ∀ p c, ChildOf b.heap p c → ChildOf (grown b.heap behavior peek) p c := by
    intro p c hc
    by_cases hp : p = peek
    · subst hp
      obtain ⟨o', ho', hmem⟩ := hc
      obtain rfl := Option.some.inj (ho.symm.trans ho')
      exact (childOf_grown ho).mpr (.inl ⟨rfl, by simp [hchildren, hmem]⟩)
    · exact (childOf_grown ho).mpr (.inr ⟨hp, hc⟩)
  have hreach : ∀ a < b.heap.length, Reaches (grown b.heap behavior peek) root a := by
    intro a ha
    obtain ⟨root', hroot', hr⟩ := h a ha
    obtain rfl : root = root' := Option.some.inj (hroot.symm.trans hroot')
    exact ReflTransGen.mono hold _ _ hr
  intro a ha
  refine ⟨root, rfl, ?_⟩
  have hle : a < b.heap.length + 1 := by simpa [End] using ha
  obtain hlt | rfl := Nat.lt_succ_iff_lt_or_eq.mp hle
  · exact hreach a hlt
  · have hpeek : peek < b.heap.length := (List.getElem?_eq_some_iff.mp ho).1
    exact (hreach peek hpeek).tail ((childOf_grown ho).mpr (.inl ⟨rfl, by simp [hchildren]⟩))

/-- Where there is no room, the child that was there is lost. -/
theorem not_losesNone_of_full (hb : Consistent b) (hroot : b.m_root = some root)
    (hstack : b.m_nodeStack = peek :: below) (ho : b.heap[peek]? = some o)
    (hfull : (room o).take = none) (stack : List Nat) :
    ¬ LosesNone ⟨grown b.heap behavior peek, some root, stack⟩ := by
  obtain ⟨o', ho', htype⟩ := hb.stack peek (by simp [hstack])
  obtain rfl := Option.some.inj (ho.symm.trans ho')
  obtain ⟨⟨c, hc⟩, hchildren⟩ := addChild_of_full htype hfull b.heap.length
  have hparent : ChildOf b.heap peek c := ⟨o, ho, hc⟩
  obtain ⟨hlt, hlength⟩ := hb.child peek c hparent
  intro h
  obtain ⟨root', hroot', hreach⟩ := h c (by simpa [End] using Nat.lt_succ_of_lt hlength)
  obtain rfl : root = root' := Option.some.inj hroot'
  obtain rfl | ⟨p, -, hp⟩ := ReflTransGen.cases_tail hreach
  · -- the root is there before every child
    exact absurd (hb.root c hroot) (by omega)
  · obtain ⟨rfl, hmem⟩ | ⟨hne, hp⟩ := (childOf_grown ho).mp hp
    · rw [hchildren, List.mem_singleton] at hmem
      omega
    · exact hne (hb.parent p peek c hp hparent)

/-- The first object is the root. -/
theorem losesNone_root_added (hheap : b.heap = []) (stack : List Nat) :
    LosesNone ⟨b.heap ++ [⟨behavior, []⟩], some b.heap.length, stack⟩ := by
  intro a ha
  obtain rfl : a = b.heap.length := by
    simpa [End, hheap] using ha
  exact ⟨_, rfl, .refl⟩

/-! ## The calls -/

/-- With room for what the call adds, the builder has the rooms that the call leaves. -/
theorem place_taken (h : place (site b) call = some s) (hb : Consistent b) (hkept : LosesNone b) :
    ∃ t, b.step call = some t ∧ LosesNone t ∧ site t = s := by
  rw [step_eq]
  unfold place at h
  cases hcall : call.behavior with
  | none =>
    rw [hcall] at h
    exact ⟨b.Back, rfl, losesNone_back hkept, site_back.trans (Option.some.inj h)⟩
  | some behavior =>
    simp only [hcall] at h
    cases hroot : b.m_root with
    | none =>
      obtain ⟨hheap, hstack⟩ := hb.empty hroot
      have hsite : site b = none := by simp [site, hroot]
      rw [hsite, Option.some.injEq] at h
      refine ⟨_, addBehavior_root hroot, losesNone_root_added hheap _, ?_⟩
      rw [hstack]
      exact (site_root_added b.heap).trans h
    | some root =>
      cases hstack : b.m_nodeStack with
      | nil => simp [site, hroot, hstack] at h
      | cons peek below =>
        obtain ⟨o, ho, -⟩ := hb.stack peek (by simp [hstack])
        have hsite : site b = some (room o :: below.map (roomAt b.heap)) := by
          simp [site, hroot, hstack, roomAt_of_getElem? ho]
        rw [hsite] at h
        obtain ⟨left, hleft, rfl⟩ := Option.map_eq_some_iff.mp h
        exact ⟨_, addBehavior_child hroot hstack, losesNone_of_take hkept hroot ho hleft _,
          site_child_added hb hstack ho hleft⟩

/-- Without room for it, the call is not executed or loses a behaviour. -/
theorem place_refused (h : place (site b) call = none) (hb : Consistent b)
    (hst : b.step call = some t) : ¬ LosesNone t := by
  cases steps_of_step hst with
  | back hcall => simp [place, hcall] at h
  | root hcall hroot => simp [place, hcall, site, hroot] at h
  | @child behavior root peek below hcall hroot hstack =>
    obtain ⟨o, ho, -⟩ := hb.stack peek (by simp [hstack])
    have hfull : (room o).take = none := by
      simpa [place, hcall, site, hroot, hstack, roomAt_of_getElem? ho] using h
    exact not_losesNone_of_full hb hroot hstack ho hfull _

/-- Whatever calls are made, in any order and number: the builder reads the top of no empty stack
and keeps every behaviour below the root exactly if each of them finds room. -/
theorem losesNone_iff_findRoom (calls : List Call) :
    (∃ b, run step {} calls = some b ∧ LosesNone b) ↔ FindRoom calls :=
  exists_run_iff site (I := Consistent) (fun _ _ _ hst hb => hb.step hst)
    (fun _ _ _ hst hb h => h.of_step hst hb) (fun _ _ _ h hb hkept => place_taken h hb hkept)
    (fun _ _ _ h hb _ hst => place_refused h hb hst) consistent_empty nofun

-- a `Back()` that would close the root closes nothing
example : FindRoom [.sequence "all", .inverter "not", .action "first", .back, .action "second",
    .back, .back, .action "third"] := by decide

/-- Above an action that is the root the stack is empty, and a decorator gives up its first child
for the second. -/
theorem second_action_lost :
    run step {} [.action "first", .action "second"] = none ∧
    ∃ b, run step {} [.inverter "not", .action "first", .action "second"] = some b ∧
      ¬ LosesNone b := by
  have hlost : ∀ b t, run step {} [.inverter "not", .action "first"] = some b →
      step b (.action "second") = some t → ¬ LosesNone t := by
    intro b t hrun hst
    have hb : Consistent b :=
      run_preserves (fun _ _ _ hst hb => hb.step hst) hrun consistent_empty
    cases hrun
    exact place_refused rfl hb hst
  exact ⟨rfl, _, rfl, hlost _ _ rfl rfl⟩

end

/-! ## Trees find room -/

theorem place_call_composite (c : CompositeClass) (uid : String) (site : Site) :
    place site (c.call uid) = place site (.sequence uid) := by
  cases c <;> rfl

theorem place_call_decorator (d : DecoratorClass) (uid : String) (site : Site) :
    place site (d.call uid) = place site (.inverter uid) := by
  cases d <;> rfl

open NBRaft.BehaviorTree.Tree

mutual

/-- The calls for a tree take the room of one child. -/
theorem run_place_preorder {room left : Room} (rooms : List Room) (h : room.take = some left) :
    (t : Tree) → run place (some (room :: rooms)) t.preorder = some (some (left :: rooms))
  | action uid => by simp [preorder, run_cons, place, Call.behavior, Kind.getType, opened, h]
  | composite c uid children => by
    have hcall : place (some (room :: rooms)) (c.call uid) =
        some (some (.unbounded :: left :: rooms)) := by
      rw [place_call_composite]
      simp [place, Call.behavior, Kind.getType, opened, h]
    exact run_cons_eq_some.mpr ⟨_, hcall, run_concat_eq_some.mpr
      ⟨_, run_place_preorders (left :: rooms) children, rfl⟩⟩
  | decorator d uid child => by
    have hcall : place (some (room :: rooms)) (d.call uid) =
        some (some (.single :: left :: rooms)) := by
      rw [place_call_decorator]
      simp [place, Call.behavior, Kind.getType, opened, h]
    exact run_cons_eq_some.mpr ⟨_, hcall, run_concat_eq_some.mpr
      ⟨_, run_place_preorder (left :: rooms) rfl child, rfl⟩⟩

theorem run_place_preorders (rooms : List Room) : (ts : List Tree) →
    run place (some (.unbounded :: rooms)) (preorders ts) = some (some (.unbounded :: rooms))
  | [] => rfl
  | t :: ts => run_append_eq_some.mpr
    ⟨_, run_place_preorder rooms rfl t, run_place_preorders rooms ts⟩

end

/-- The calls that describe a tree lose nothing. -/
theorem findRoom_preorder (t : Tree) : FindRoom t.preorder := by
  unfold FindRoom
  cases t with
  | action uid => rfl
  | composite c uid children =>
    have hcall : place none (c.call uid) = some (some [.unbounded]) := place_call_composite ..
    have hrun : run place none (composite c uid children).preorder = some (some [.unbounded]) :=
      run_cons_eq_some.mpr ⟨_, hcall, run_concat_eq_some.mpr
        ⟨_, run_place_preorders [] children, rfl⟩⟩
    rw [hrun]
    rfl
  | decorator d uid child =>
    have hcall : place none (d.call uid) = some (some [.single]) := place_call_decorator ..
    have hrun : run place none (decorator d uid child).preorder = some (some [.full]) :=
      run_cons_eq_some.mpr ⟨_, hcall, run_concat_eq_some.mpr
        ⟨_, run_place_preorder [] rfl child, rfl⟩⟩
    rw [hrun]
    rfl

end BehaviorTreeBuilder

end NBRaft.BehaviorTree
