import Mathlib.Data.List.Induction
import Mathlib.Tactic.Common

/-!
# Runs of partial transition functions

A system is a partial function `step : σ → ε → Option σ`: it takes the event in the state,
or refuses it with `none`. A run takes a list of events in order. Nondeterminism is in the
events, so a statement about every list of events is one about every interleaving.

The rules here carry what one step does to whole runs: an invariant kept by the steps, an
exact criterion for a property that is never regained, on the steps or on the events alone, one for
a property that is decided where a latch is set, and a simulation by a ranked system, which also
bounds the length of every run.
-/

namespace Transition

variable {σ ε : Type*}

/-- Take the listed events in order; `none` as soon as one of them is refused. -/
def run (step : σ → ε → Option σ) : σ → List ε → Option σ
  | s, [] => some s
  | s, e :: es => (step s e).bind fun t => run step t es

/-- No event is accepted any more. -/
def Stuck (step : σ → ε → Option σ) (s : σ) : Prop := ∀ e, step s e = none

/-- Every event of the run is taken in a state in which `C` allows it. -/
def Along (step : σ → ε → Option σ) (C : σ → ε → Prop) : σ → List ε → Prop
  | _, [] => True
  | s, e :: es => C s e ∧ ∀ t, step s e = some t → Along step C t es

/-- Every state the run passes through satisfies `P`, the first and the last included. -/
def Throughout (step : σ → ε → Option σ) (P : σ → Prop) : σ → List ε → Prop
  | s, [] => P s
  | s, e :: es => P s ∧ ∀ t, step s e = some t → Throughout step P t es

variable {step : σ → ε → Option σ}

@[simp] theorem run_nil (s : σ) : run step s [] = some s := rfl

theorem run_cons (s : σ) (e : ε) (es : List ε) :
    run step s (e :: es) = (step s e).bind fun t => run step t es := rfl

theorem run_cons_eq_some {s t : σ} {e : ε} {es : List ε} :
    run step s (e :: es) = some t ↔ ∃ u, step s e = some u ∧ run step u es = some t := by
  simp [run_cons, Option.bind_eq_some_iff]

theorem run_append_eq_some {s t : σ} {es fs : List ε} :
    run step s (es ++ fs) = some t ↔ ∃ u, run step s es = some u ∧ run step u fs = some t := by
  induction es generalizing s with
  | nil => simp
  | cons e es ih =>
    simp only [List.cons_append, run_cons_eq_some, ih]
    constructor
    · rintro ⟨u, hu, v, hv, ht⟩
      exact ⟨v, ⟨u, hu, hv⟩, ht⟩
    · rintro ⟨v, ⟨u, hu, hv⟩, ht⟩
      exact ⟨u, hu, v, hv, ht⟩

theorem run_concat_eq_some {s t : σ} {es : List ε} {e : ε} :
    run step s (es ++ [e]) = some t ↔ ∃ u, run step s es = some u ∧ step u e = some t := by
  simp [run_append_eq_some, run_cons_eq_some]

/-- What every step preserves, every run preserves. -/
theorem run_preserves {I : σ → Prop} (hI : ∀ s e t, step s e = some t → I s → I t)
    {s t : σ} {es : List ε} (h : run step s es = some t) (hs : I s) : I t := by
  induction es generalizing s with
  | nil => exact Option.some.inj h ▸ hs
  | cons e es ih =>
    obtain ⟨u, hu, hrun⟩ := run_cons_eq_some.mp h
    exact ih hrun (hI s e u hu hs)

/-- An invariant that needs a side condition of each step holds along the runs that meet it. -/
theorem run_preserves_along {I : σ → Prop} {C : σ → ε → Prop}
    (hI : ∀ s e t, step s e = some t → C s e → I s → I t)
    {s t : σ} {es : List ε} (h : run step s es = some t) (hC : Along step C s es) (hs : I s) :
    I t := by
  induction es generalizing s with
  | nil => exact Option.some.inj h ▸ hs
  | cons e es ih =>
    obtain ⟨u, hu, hrun⟩ := run_cons_eq_some.mp h
    exact ih hrun (hC.2 u hu) (hI s e u hu hC.1 hs)

/-- An invariant of the runs whose events all meet a condition. -/
theorem run_preserves_of_forall {I : σ → Prop} {C : ε → Prop}
    (hI : ∀ s e t, step s e = some t → C e → I s → I t)
    {s t : σ} {es : List ε} (h : run step s es = some t) (hC : ∀ e ∈ es, C e) (hs : I s) :
    I t := by
  induction es generalizing s with
  | nil => exact Option.some.inj h ▸ hs
  | cons e es ih =>
    obtain ⟨u, hu, hrun⟩ := run_cons_eq_some.mp h
    exact ih hrun (fun e he => hC e (.tail _ he)) (hI s e u hu (hC e (.head _)) hs)

/-- An invariant that also tells what has been done so far. -/
theorem run_records {I : List ε → σ → Prop} {C : ε → Prop} {s : σ}
    (hI : ∀ es t e u, I es t → C e → step t e = some u → I (es ++ [e]) u)
    {t : σ} {es : List ε} (h : run step s es = some t) (hC : ∀ e ∈ es, C e) (hs : I [] s) :
    I es t := by
  induction es using List.reverseRecOn generalizing t with
  | nil => exact Option.some.inj h ▸ hs
  | append_singleton es e ih =>
    obtain ⟨u, hu, hstep⟩ := run_concat_eq_some.mp h
    have hes := ih hu fun e he => hC e (List.mem_append_left _ he)
    exact hI es u e t hes (hC e (by simp)) hstep

/-- A run of which every step is a run of another system, on what `view` makes of the states, is one
of that system. -/
theorem run_flatMap {σ' ε' : Type*} {step' : σ' → ε' → Option σ'} {view : σ → σ'}
    {events : ε → List ε'} {I : σ → Prop}
    (hsim : ∀ s e t, step s e = some t → I s → run step' (view s) (events e) = some (view t) ∧ I t)
    {s t : σ} {es : List ε} (h : run step s es = some t) (hs : I s) :
    run step' (view s) (es.flatMap events) = some (view t) ∧ I t := by
  induction es generalizing s with
  | nil => exact Option.some.inj h ▸ ⟨rfl, hs⟩
  | cons e es ih =>
    obtain ⟨u, hu, hrun⟩ := run_cons_eq_some.mp h
    obtain ⟨hview, hIu⟩ := hsim s e u hu hs
    obtain ⟨hrest, ht⟩ := ih hrun hIu
    exact ⟨run_append_eq_some.mpr ⟨view u, hview, hrest⟩, ht⟩

/-- The exact criterion for a property that no step regains, in runs of events that all meet `E`:
if in a good state a step keeps `P` precisely when `C` allows it, a run keeps `P` precisely when
all of its steps meet `C`. -/
theorem run_iff_along_of_forall {I P : σ → Prop} {C : σ → ε → Prop} {E : ε → Prop}
    (hI : ∀ s e t, step s e = some t → E e → I s → I t)
    (hlost : ∀ s e t, step s e = some t → E e → I s → P t → P s)
    (hkeep : ∀ s e t, step s e = some t → E e → I s → P s → (P t ↔ C s e))
    {s t : σ} {es : List ε} (h : run step s es = some t) (hE : ∀ e ∈ es, E e) (hs : I s)
    (hP : P s) : P t ↔ Along step C s es := by
  induction es generalizing s with
  | nil => exact ⟨fun _ => trivial, fun _ => Option.some.inj h ▸ hP⟩
  | cons e es ih =>
    obtain ⟨u, hu, hrun⟩ := run_cons_eq_some.mp h
    obtain ⟨he, hes⟩ := List.forall_mem_cons.mp hE
    have hIu := hI s e u hu he hs
    constructor
    · intro ht
      have hPu : P u := by
        refine Classical.byContradiction fun hn => ?_
        refine (run_preserves_of_forall (I := fun x => I x ∧ ¬ P x) ?_ hrun hes ⟨hIu, hn⟩).2 ht
        intro a b c hab hb ha
        exact ⟨hI a b c hab hb ha.1, fun hc => ha.2 (hlost a b c hab hb ha.1 hc)⟩
      refine ⟨(hkeep s e u hu he hs hP).mp hPu, fun v hv => ?_⟩
      obtain rfl : u = v := Option.some.inj (hu.symm.trans hv)
      exact (ih hrun hes hIu hPu).mp ht
    · rintro ⟨hC, hrest⟩
      exact (ih hrun hes hIu ((hkeep s e u hu he hs hP).mpr hC)).mpr (hrest u hu)

theorem run_iff_along {I P : σ → Prop} {C : σ → ε → Prop}
    (hI : ∀ s e t, step s e = some t → I s → I t)
    (hlost : ∀ s e t, step s e = some t → I s → P t → P s)
    (hkeep : ∀ s e t, step s e = some t → I s → P s → (P t ↔ C s e))
    {s t : σ} {es : List ε} (h : run step s es = some t) (hs : I s) (hP : P s) :
    P t ↔ Along step C s es :=
  run_iff_along_of_forall (E := fun _ => True) (fun s e t h _ => hI s e t h)
    (fun s e t h _ => hlost s e t h) (fun s e t h _ => hkeep s e t h) h (fun _ _ => trivial) hs hP

/-- The exact criterion for a property that counts from the step on that sets a latch: as long as
the latch is set no step changes the property, so it holds in the end precisely when `C` allows
the step that sets it. -/
theorem run_iff_of_latch {I L W : σ → Prop} {C : σ → ε → Prop}
    (hI : ∀ s e t, step s e = some t → I s → I t)
    (hstay : ∀ s e t, step s e = some t → I s → L s → L t ∧ (W t ↔ W s))
    (hfree : ∀ s e, W s → C s e)
    (hset : ∀ s e t, step s e = some t → I s → ¬ L s → ((L t → W t) ↔ C s e))
    {s t : σ} {es : List ε} (h : run step s es = some t) (hs : I s) (hnot : ¬ L s)
    (ht : L t) : W t ↔ Along step C s es := by
  have hiff : (L t → W t) ↔ Along step C s es := by
    refine run_iff_along (P := fun s => L s → W s) hI ?_ ?_ h hs fun hl => absurd hl hnot
    · intro s e t hst hs hW hl
      obtain ⟨hlt, hWt⟩ := hstay s e t hst hs hl
      exact hWt.mp (hW hlt)
    · intro s e t hst hs hW
      by_cases hl : L s
      · exact iff_of_true (fun _ => (hstay s e t hst hs hl).2.mpr (hW hl)) (hfree s e (hW hl))
      · exact hset s e t hst hs hl
  exact ⟨fun hW => hiff.mp fun _ => hW, fun hC => hiff.mpr hC ht⟩

/-- What an invariant says of the steps that are taken from a state, it says of all steps of a
run. -/
theorem along_of_preserves {I : σ → Prop} {C : σ → ε → Prop} {E : ε → Prop}
    (hI : ∀ s e t, step s e = some t → E e → I s → I t) (hC : ∀ s e, E e → I s → C s e)
    {s : σ} {es : List ε} (hE : ∀ e ∈ es, E e) (hs : I s) : Along step C s es := by
  induction es generalizing s with
  | nil => trivial
  | cons e es ih =>
    obtain ⟨he, hes⟩ := List.forall_mem_cons.mp hE
    exact ⟨hC s e he hs, fun t ht => ih hes (hI s e t ht he hs)⟩

theorem Throughout.last {P : σ → Prop} {s t : σ} {es : List ε} (h : Throughout step P s es)
    (hrun : run step s es = some t) : P t := by
  induction es generalizing s with
  | nil => exact Option.some.inj hrun ▸ h
  | cons e es ih =>
    obtain ⟨u, hu, hrun⟩ := run_cons_eq_some.mp hrun
    exact ih (h.2 u hu) hrun

theorem Throughout.first {P : σ → Prop} {s : σ} {es : List ε} (h : Throughout step P s es) :
    P s := by
  cases es with
  | nil => exact h
  | cons => exact h.1

/-- What an invariant of the runs that meet a side condition says, it says of every state they
pass through. -/
theorem throughout_of_along {I P : σ → Prop} {C : σ → ε → Prop}
    (hI : ∀ s e t, step s e = some t → C s e → I s → I t) (hP : ∀ s, I s → P s)
    {s : σ} {es : List ε} (hC : Along step C s es) (hs : I s) : Throughout step P s es := by
  induction es generalizing s with
  | nil => exact hP s hs
  | cons e es ih => exact ⟨hP s hs, fun t ht => ih (hC.2 t ht) (hI s e t ht hC.1 hs)⟩

/-- The exact criterion for a property of all states passed through: if in a good state a step
leads to `P` precisely when `C` allows it, so does a run when all of its steps meet `C`. -/
theorem throughout_iff_along {I P : σ → Prop} {C : σ → ε → Prop}
    (hI : ∀ s e t, step s e = some t → I s → I t)
    (hkeep : ∀ s e t, step s e = some t → I s → P s → (P t ↔ C s e))
    {s t : σ} {es : List ε} (h : run step s es = some t) (hs : I s) (hP : P s) :
    Throughout step P s es ↔ Along step C s es := by
  induction es generalizing s with
  | nil => exact iff_of_true hP trivial
  | cons e es ih =>
    obtain ⟨u, hu, hrun⟩ := run_cons_eq_some.mp h
    have hIu := hI s e u hu hs
    have hstep := hkeep s e u hu hs hP
    constructor
    · rintro ⟨-, hall⟩
      have hPu : P u := (hall u hu).first
      refine ⟨hstep.mp hPu, fun v hv => ?_⟩
      obtain rfl : u = v := Option.some.inj (hu.symm.trans hv)
      exact (ih hrun hIu hPu).mp (hall u hu)
    · rintro ⟨hC, hall⟩
      refine ⟨hP, fun v hv => ?_⟩
      obtain rfl : u = v := Option.some.inj (hu.symm.trans hv)
      exact (ih hrun hIu (hstep.mpr hC)).mpr (hall u hu)

/-- The same of a run that may be refused somewhere, if `C` allows every step that is. The invariant
has to be kept only as long as the states are in `P`. -/
theorem throughout_iff_along_of_kept {I P : σ → Prop} {C : σ → ε → Prop}
    (hI : ∀ s e t, step s e = some t → I s → P s → P t → I t)
    (hkeep : ∀ s e t, step s e = some t → I s → P s → (P t ↔ C s e))
    (hrefused : ∀ s e, step s e = none → P s → C s e) {s : σ} {es : List ε} (hs : I s)
    (hP : P s) : Throughout step P s es ↔ Along step C s es := by
  induction es generalizing s with
  | nil => exact iff_of_true hP trivial
  | cons e es ih =>
    cases he : step s e with
    | none => simp [Throughout, Along, he, hP, hrefused s e he hP]
    | some u =>
      have hstep := hkeep s e u he hs hP
      simp only [Throughout, Along, he, hP, Option.some.injEq, forall_eq', true_and]
      constructor
      · intro hall
        have hPu := hall.first
        exact ⟨hstep.mp hPu, (ih (hI s e u he hs hP hPu) hPu).mp hall⟩
      · rintro ⟨hC, hrest⟩
        have hPu := hstep.mpr hC
        exact (ih (hI s e u he hs hP hPu) hPu).mpr hrest

/-- The same without an invariant. -/
theorem throughout_iff_along_of_refused {P : σ → Prop} {C : σ → ε → Prop}
    (hkeep : ∀ s e t, step s e = some t → P s → (P t ↔ C s e))
    (hrefused : ∀ s e, step s e = none → P s → C s e) {s : σ} {es : List ε} (hP : P s) :
    Throughout step P s es ↔ Along step C s es :=
  throughout_iff_along_of_kept (I := fun _ => True) (fun _ _ _ _ _ _ _ => trivial)
    (fun s e t h _ => hkeep s e t h) hrefused trivial hP

/-- The exact criterion on the events for a property that no step regains: `abstract` sees the
states that still have it, and refuses an event precisely where the step would lose the property
or is refused itself. -/
theorem exists_run_iff {α : Type*} (abstract : σ → α) {refuses : α → ε → Option α}
    {I P : σ → Prop}
    (hI : ∀ s e t, step s e = some t → I s → I t)
    (hlost : ∀ s e t, step s e = some t → I s → P t → P s)
    (htaken : ∀ s e a, refuses (abstract s) e = some a → I s → P s →
      ∃ t, step s e = some t ∧ P t ∧ abstract t = a)
    (hrefused : ∀ s e t, refuses (abstract s) e = none → I s → P s → step s e = some t → ¬ P t)
    {s : σ} {es : List ε} (hs : I s) (hP : P s) :
    (∃ t, run step s es = some t ∧ P t) ↔ (run refuses (abstract s) es).isSome = true := by
  induction es generalizing s with
  | nil => exact iff_of_true ⟨s, rfl, hP⟩ rfl
  | cons e es ih =>
    cases he : refuses (abstract s) e with
    | some a =>
      obtain ⟨u, hu, hPu, rfl⟩ := htaken s e a he hs hP
      have hrest := ih (hI s e u hu hs) hPu
      simpa [run_cons, hu, he] using hrest
    | none =>
      refine iff_of_false ?_ (by simp [run_cons, he])
      rintro ⟨t, ht, hPt⟩
      obtain ⟨u, hu, hrun⟩ := run_cons_eq_some.mp ht
      have hkept : ¬ (I t ∧ ¬ P t) := fun h => h.2 hPt
      refine hkept (run_preserves (I := fun x => I x ∧ ¬ P x) ?_ hrun ⟨hI s e u hu hs, ?_⟩)
      · intro x f y hxy hx
        exact ⟨hI x f y hxy hx.1, fun hy => hx.2 (hlost x f y hxy hx.1 hy)⟩
      · exact hrefused s e u he hs hP hu

/-- A run simulated step by step by abstract states, each step lowering the rank of the
abstract state: the simulation carries over to the run, and the rank bounds its length. -/
theorem run_simulates {γ : Type*} {R : γ → σ → Prop} {rank : γ → Nat}
    (hsim : ∀ g s e t, R g s → step s e = some t → ∃ g', R g' t ∧ rank g' < rank g)
    {g : γ} {s t : σ} {es : List ε} (hR : R g s) (h : run step s es = some t) :
    ∃ g', R g' t ∧ es.length + rank g' ≤ rank g := by
  induction es generalizing g s with
  | nil => exact ⟨g, Option.some.inj h ▸ hR, by simp⟩
  | cons e es ih =>
    obtain ⟨u, hu, hrun⟩ := run_cons_eq_some.mp h
    obtain ⟨g₁, hR₁, hlt⟩ := hsim g s e u hR hu
    obtain ⟨g', hR', hle⟩ := ih hR₁ hrun
    exact ⟨g', hR', by simp only [List.length_cons]; omega⟩

/-- A run of bounded length can be continued until the system is stuck. -/
theorem exists_stuck {s : σ} (bound : Nat)
    (hbound : ∀ es t, run step s es = some t → es.length ≤ bound) :
    ∃ es t, run step s es = some t ∧ Stuck step t := by
  induction bound generalizing s with
  | zero =>
    refine ⟨[], s, rfl, fun e => ?_⟩
    cases h : step s e with
    | none => rfl
    | some t => simpa using hbound [e] t (by simp [run_cons, h])
  | succ n ih =>
    by_cases hst : Stuck step s
    · exact ⟨[], s, rfl, hst⟩
    · simp only [Stuck, not_forall] at hst
      obtain ⟨e, he⟩ := hst
      obtain ⟨u, hu⟩ := Option.ne_none_iff_exists'.mp he
      obtain ⟨es, t, hrun, ht⟩ := ih (s := u) fun es t hrun => by
        have := hbound (e :: es) t (run_cons_eq_some.mpr ⟨u, hu, hrun⟩)
        simpa using this
      exact ⟨e :: es, t, run_cons_eq_some.mpr ⟨u, hu, hrun⟩, ht⟩

end Transition
