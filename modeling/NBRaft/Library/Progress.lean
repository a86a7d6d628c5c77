import NBRaft.Library.Transition

/-!
# Runs that come to an end

Events of a kind `E` that all lower a rank cannot go on for ever: a run of them is no longer than
the rank it begins with, and leads to a state that is quiet, where no event of the kind is accepted
any more. What such a system comes to is then what holds of its quiet states.
-/

namespace Transition

variable {σ ε : Type*}

/-- No event of the kind is accepted. -/
def Quiet (step : σ → ε → Option σ) (E : ε → Prop) (s : σ) : Prop := ∀ e, E e → step s e = none

/-- Every event of the kind lowers the rank, as long as the invariant holds, and keeps that. -/
structure Descends (step : σ → ε → Option σ) (E : ε → Prop) (I : σ → Prop) (rank : σ → Nat) :
    Prop where
  keeps : ∀ s e t, step s e = some t → E e → I s → I t
  lowers : ∀ s e t, step s e = some t → E e → I s → rank t < rank s

variable {step : σ → ε → Option σ} {E : ε → Prop} {I : σ → Prop} {rank : σ → Nat} {s t : σ}
  {es : List ε}

theorem Descends.mono {E' : ε → Prop} (h : Descends step E I rank) (hE : ∀ e, E' e → E e) :
    Descends step E' I rank where
  keeps s e t hst he := h.keeps s e t hst (hE e he)
  lowers s e t hst he := h.lowers s e t hst (hE e he)

theorem Descends.of_run (h : Descends step E I rank) (hrun : run step s es = some t)
    (hes : ∀ e ∈ es, E e) (hs : I s) : I t :=
  run_preserves_of_forall h.keeps hrun hes hs

/-- A run takes no more steps than its rank allows. -/
theorem Descends.length_le (h : Descends step E I rank) (hrun : run step s es = some t)
    (hes : ∀ e ∈ es, E e) (hs : I s) : es.length + rank t ≤ rank s := by
  induction es generalizing s with
  | nil =>
    obtain rfl := Option.some.inj hrun
    simp
  | cons e es ih =>
    obtain ⟨u, hu, hrest⟩ := run_cons_eq_some.mp hrun
    obtain ⟨he, hes⟩ := List.forall_mem_cons.mp hes
    have hlt := h.lowers s e u hu he hs
    have hle := ih hrest hes (h.keeps s e u hu he hs)
    rw [List.length_cons]
    omega

/-- From every state there is a run to a quiet one. -/
theorem Descends.exists_quiet (h : Descends step E I rank) (hs : I s) :
    ∃ es t, run step s es = some t ∧ (∀ e ∈ es, E e) ∧ Quiet step E t := by
  induction hn : rank s using Nat.strongRecOn generalizing s with
  | ind n ih =>
    by_cases hquiet : Quiet step E s
    · exact ⟨[], s, rfl, nofun, hquiet⟩
    · simp only [Quiet, not_forall] at hquiet
      obtain ⟨e, he, hne⟩ := hquiet
      obtain ⟨u, hu⟩ := Option.ne_none_iff_exists'.mp hne
      have hlt := h.lowers s e u hu he hs
      obtain ⟨es, t, hrun, hes, ht⟩ := ih (rank u) (by omega) (h.keeps s e u hu he hs) rfl
      exact ⟨e :: es, t, run_cons_eq_some.mpr ⟨u, hu, hrun⟩, List.forall_mem_cons.mpr ⟨he, hes⟩,
        ht⟩

/-- Such steps come to an end, however they are chosen. -/
theorem Descends.ends (h : Descends step E I rank) (hs : I s) :
    (∃ bound, ∀ es t, run step s es = some t → (∀ e ∈ es, E e) → es.length ≤ bound) ∧
      ∃ es t, run step s es = some t ∧ (∀ e ∈ es, E e) ∧ Quiet step E t := by
  refine ⟨⟨rank s, fun es t hrun hes => ?_⟩, h.exists_quiet hs⟩
  have hle := h.length_le hrun hes hs
  omega

end Transition
