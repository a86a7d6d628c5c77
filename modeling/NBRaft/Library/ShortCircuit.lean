import Mathlib.Data.List.Basic
import Mathlib.Tactic.Common

/-!
# Programs that succeed or fail

A program changes the state and succeeds or fails. Programs are put in order, where one that has not
come to what lets the next go on decides for all; they are negated and repeated. The laws are those
of a language with short-circuit connectives: De Morgan's, nesting, and the repetition of a
repetition.
-/

namespace ShortCircuit

variable {σ : Type*}

abbrev Program (σ : Type*) := σ → Bool × σ

/-- One program after the other as long as they come to `go`: a conjunction for `true`, a
disjunction for `false`. -/
def inOrder (go : Bool) : List (Program σ) → Program σ
  | [], s => (go, s)
  | p :: ps, s => if (p s).1 = go then inOrder go ps (p s).2 else p s

def negate (p : Program σ) : Program σ := fun s => (!(p s).1, (p s).2)

/-- So many times, unless it fails. -/
def times (n : Nat) (p : Program σ) : Program σ := inOrder true (List.replicate n p)

/-- What the program comes to, again and again, with the changes of the state before each time. -/
def play (p : Program σ) : σ → List (σ → σ) → List (Bool × σ)
  | _, [] => []
  | s, change :: changes => p (change s) :: play p (p (change s)).2 changes

variable {go : Bool} {p : Program σ} {ps qs : List (Program σ)} {s : σ}

@[simp] theorem inOrder_nil : inOrder go [] s = (go, s) := rfl

theorem inOrder_cons_of_eq (h : (p s).1 = go) :
    inOrder go (p :: ps) s = inOrder go ps (p s).2 := if_pos h

theorem inOrder_cons_of_ne (h : (p s).1 ≠ go) : inOrder go (p :: ps) s = p s := if_neg h

theorem inOrder_append (ps qs : List (Program σ)) :
    inOrder go (ps ++ qs) = inOrder go [inOrder go ps, inOrder go qs] := by
  funext s
  induction ps generalizing s with
  | nil => grind [inOrder]
  | cons p ps ih => grind [inOrder]

/-- A conjunction of conjunctions is one conjunction, and so is a disjunction. -/
theorem inOrder_flatten (pss : List (List (Program σ))) :
    inOrder go (pss.map (inOrder go)) = inOrder go pss.flatten := by
  funext s
  induction pss generalizing s with
  | nil => rfl
  | cons ps pss ih =>
    rw [List.flatten_cons, inOrder_append]
    by_cases hgo : (inOrder go ps s).1 = go
    · rw [List.map_cons, inOrder_cons_of_eq hgo, inOrder_cons_of_eq hgo, ih]
      grind [inOrder]
    · rw [List.map_cons, inOrder_cons_of_ne hgo, inOrder_cons_of_ne hgo]

@[simp] theorem negate_negate (p : Program σ) : negate (negate p) = p := by
  funext s
  simp [negate]

/-- De Morgan's laws. -/
theorem negate_inOrder (go : Bool) (ps : List (Program σ)) :
    negate (inOrder go ps) = inOrder (!go) (ps.map negate) := by
  funext s
  induction ps generalizing s with
  | nil => rfl
  | cons p ps ih =>
    rw [List.map_cons]
    by_cases hgo : (p s).1 = go
    · have hnot : (negate p s).1 = !go := congrArg not hgo
      rw [inOrder_cons_of_eq hnot, negate, inOrder_cons_of_eq hgo]
      exact ih (p s).2
    · have hnot : (negate p s).1 ≠ !go := fun h => hgo (Bool.not_inj h)
      rw [inOrder_cons_of_ne hnot, negate, inOrder_cons_of_ne hgo]
      rfl

@[simp] theorem times_zero : times 0 p s = (true, s) := rfl

theorem times_succ_of_true {n : Nat} (h : (p s).1 = true) :
    times (n + 1) p s = times n p (p s).2 := inOrder_cons_of_eq h

theorem times_succ_of_false {n : Nat} (h : (p s).1 = false) : times (n + 1) p s = p s :=
  inOrder_cons_of_ne (by simp [h])

/-- To repeat a repetition is to repeat more often. -/
theorem times_times (n m : Nat) (p : Program σ) : times n (times m p) = times (n * m) p := by
  have hmap : List.replicate n (times m p) =
      (List.replicate n (List.replicate m p)).map (inOrder true) := by
    rw [List.map_replicate]
    rfl
  rw [times, hmap, inOrder_flatten, List.flatten_replicate_replicate]
  rfl

end ShortCircuit
