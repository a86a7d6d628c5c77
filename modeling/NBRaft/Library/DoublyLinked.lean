import Mathlib.Data.List.Basic
import Mathlib.Tactic.Common

/-!
# Doubly linked chains

Chains of nodes in a heap, each with the address of the next and of the previous one. A chain
runs up to, and not including, the node at its end, so that nodes can be added there: what is
said about the end is only that the node before it is the previous one.
-/

namespace DoublyLinked

variable {α β : Type*}

structure Node (α β : Type*) where
  data : β
  next : Option α := none
  prev : Option α := none

def prevOf (heap : α → Option (Node α β)) (a : α) : Option α := (heap a).bind Node.prev

/-- The node at `a` holds `v` and is followed by `b`, which knows that. -/
structure Linked (heap : α → Option (Node α β)) (a : α) (v : β) (b : α) : Prop where
  node : ∃ prev, heap a = some { data := v, next := some b, prev := prev }
  prev : prevOf heap b = some a

/-- From `a`, the nodes at these addresses with these data, up to `z`. -/
def Chain (heap : α → Option (Node α β)) (z : α) : α → List (α × β) → Prop
  | a, [] => a = z
  | a, (b, v) :: cells => a = b ∧ ∃ next, Linked heap a v next ∧ Chain heap z next cells

variable {heap heap' : α → Option (Node α β)} {a b z : α} {v : β} {cells : List (α × β)}

theorem Chain.eq_end_iff (h : Chain heap z a cells) (hz : z ∉ cells.map Prod.fst) :
    a = z ↔ cells = [] := by
  cases cells with
  | nil => exact iff_of_true h rfl
  | cons c cells =>
    obtain ⟨rfl, -⟩ := h
    exact iff_of_false (fun heq => hz (by simp [heq])) (by simp)

/-- A chain depends on its nodes, and on the end's knowing the last of them. -/
theorem Chain.congr (h : Chain heap z a cells)
    (hcells : ∀ c ∈ cells.map Prod.fst, heap' c = heap c)
    (hend : prevOf heap' z = prevOf heap z) : Chain heap' z a cells := by
  induction cells generalizing a with
  | nil => exact h
  | cons c cells ih =>
    obtain ⟨rfl, next, hlinked, hrest⟩ := h
    have hnext : prevOf heap' next = prevOf heap next := by
      cases cells with
      | nil =>
        obtain rfl : next = z := hrest
        exact hend
      | cons d cells =>
        obtain ⟨rfl, -⟩ := hrest
        rw [prevOf, prevOf, hcells _ (by simp)]
    refine ⟨rfl, next, ⟨?_, hnext.trans hlinked.prev⟩, ih hrest fun c hc => hcells c ?_⟩
    · rw [hcells _ (by simp)]
      exact hlinked.node
    · simp only [List.map_cons, List.mem_cons]
      exact .inr hc

theorem Chain.isSome (h : Chain heap z a cells) {c : α} (hc : c ∈ cells.map Prod.fst) :
    (heap c).isSome = true := by
  induction cells generalizing a with
  | nil => cases hc
  | cons d cells ih =>
    obtain ⟨rfl, next, hlinked, hrest⟩ := h
    rcases List.mem_cons.mp hc with rfl | hc
    · obtain ⟨prev, hnode⟩ := hlinked.node
      simp [hnode]
    · exact ih hrest hc

/-- One more node at the end. -/
theorem Chain.concat (h : Chain heap z a cells) (hlinked : Linked heap z v b) :
    Chain heap b a (cells ++ [(z, v)]) := by
  induction cells generalizing a with
  | nil =>
    obtain rfl : a = z := h
    exact ⟨rfl, b, hlinked, rfl⟩
  | cons c cells ih =>
    obtain ⟨rfl, next, hl, hrest⟩ := h
    exact ⟨rfl, next, hl, ih hrest⟩

/-- The last node of a chain is the one that the end knows. -/
theorem Chain.of_concat {c : α × β} (h : Chain heap z a (cells ++ [c])) :
    Chain heap c.1 a cells ∧ Linked heap c.1 c.2 z := by
  induction cells generalizing a with
  | nil =>
    obtain ⟨rfl, next, hl, rfl⟩ := h
    exact ⟨rfl, hl⟩
  | cons d cells ih =>
    obtain ⟨rfl, next, hl, hrest⟩ := h
    obtain ⟨hchain, hlast⟩ := ih hrest
    exact ⟨⟨rfl, next, hl, hchain⟩, hlast⟩

/-- Every node but the first knows the one before it. -/
theorem Chain.isChain_prev (h : Chain heap z a cells) :
    (cells.map Prod.fst ++ [z]).IsChain fun x y => prevOf heap y = some x := by
  induction cells generalizing a with
  | nil => exact .singleton z
  | cons c cells ih =>
    obtain ⟨rfl, next, hl, hrest⟩ := h
    have htail := ih hrest
    cases cells with
    | nil =>
      obtain rfl : next = z := hrest
      exact htail.cons_cons hl.prev
    | cons d cells =>
      obtain ⟨rfl, -⟩ := hrest
      exact htail.cons_cons hl.prev

end DoublyLinked
