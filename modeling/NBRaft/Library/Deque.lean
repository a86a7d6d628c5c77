import Mathlib.Data.List.Perm.Basic

/-!
# Double-ended queues

A deque is the list of its values, front first. `Step` says what each operation does to it and
what it takes; a history of operations is a `Run` of them. Whatever the operations are, the
values put in are those taken out and those still there.
-/

namespace Deque

variable {β : Type*}

inductive Op (β : Type*) where
  | pushBack (v : β)
  | popFront (v : β)
  | popBack (v : β)
  /-- An attempt to pop that finds nothing. -/
  | nothing
  deriving DecidableEq

inductive Step : List β → Op β → List β → Prop where
  | pushBack (vs : List β) (v : β) : Step vs (.pushBack v) (vs ++ [v])
  | popFront (vs : List β) (v : β) : Step (v :: vs) (.popFront v) vs
  | popBack (vs : List β) (v : β) : Step (vs ++ [v]) (.popBack v) vs
  | nothing : Step [] .nothing []

/-- The operations in order, from one content to another. -/
inductive Run : List β → List (Op β) → List β → Prop where
  | nil (vs : List β) : Run vs [] vs
  | concat {us vs ws : List β} {ops : List (Op β)} {op : Op β} :
    Run us ops vs → Step vs op ws → Run us (ops ++ [op]) ws

def pushed : List (Op β) → List β :=
  List.filterMap fun
    | .pushBack v => some v
    | _ => none

def taken : List (Op β) → List β :=
  List.filterMap fun
    | .popFront v | .popBack v => some v
    | _ => none

@[simp] theorem pushed_append (xs ys : List (Op β)) :
    pushed (xs ++ ys) = pushed xs ++ pushed ys := List.filterMap_append
@[simp] theorem taken_append (xs ys : List (Op β)) :
    taken (xs ++ ys) = taken xs ++ taken ys := List.filterMap_append

theorem Step.perm {vs ws : List β} {op : Op β} (h : Step vs op ws) :
    (vs ++ pushed [op]).Perm (taken [op] ++ ws) := by
  cases h with
  | pushBack vs v => exact .refl _
  | popFront vs v => simp [pushed, taken]
  | popBack vs v =>
    simp only [pushed, taken, List.filterMap_cons_none, List.filterMap_nil, List.append_nil]
    exact List.perm_append_singleton v ws
  | nothing => exact .refl _

/-- Nothing is lost and nothing is taken twice. -/
theorem Run.perm {us vs : List β} {ops : List (Op β)} (h : Run us ops vs) :
    (us ++ pushed ops).Perm (taken ops ++ vs) := by
  induction h with
  | nil => simp [pushed, taken]
  | @concat vs ws ops op _ hstep ih =>
    have hstep' : ((taken ops ++ vs) ++ pushed [op]).Perm (taken ops ++ (taken [op] ++ ws)) := by
      rw [List.append_assoc]
      exact hstep.perm.append_left _
    simpa using (ih.append_right (pushed [op])).trans hstep'

/-- Where nothing is popped at the back, the values come out in the order in which they were put
in. -/
theorem Run.fifo {us vs : List β} {ops : List (Op β)} (h : Run us ops vs)
    (hback : ∀ v, Op.popBack v ∉ ops) : us ++ pushed ops = taken ops ++ vs := by
  induction h with
  | nil => simp [pushed, taken]
  | @concat vs ws ops op _ hstep ih =>
    have hops : us ++ pushed ops = taken ops ++ vs := by
      apply ih
      intro v hv
      exact hback v (List.mem_append_left _ hv)
    rw [pushed_append, taken_append, ← List.append_assoc, hops]
    cases hstep with
    | pushBack => simp [pushed, taken]
    | popFront => simp [pushed, taken]
    | popBack _ v => exact absurd (List.mem_append_right _ (by simp)) (hback v)
    | nothing => simp [pushed, taken]

end Deque
