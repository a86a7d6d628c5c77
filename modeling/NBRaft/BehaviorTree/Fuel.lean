import NBRaft.BehaviorTree.Loops

/-!
# Ticks without fuel

What a tick returns does not depend on the fuel once that is enough, nor on what has been noted
before. Both are cases of one argument: where `g` does at least what `f` does to a child, the
loops over the children do with `g` at least what they do with `f`.
-/

namespace NBRaft.BehaviorTree

/-- Worlds that differ in nothing that a tick reads go on doing so. -/
structure Indistinct {W : Type} (R : World W → World W → Prop) : Prop where
  env : ∀ {w v}, R w v → w.env = v.env
  acts : ∀ {w v} (e : W), R w v → R { w with env := e } { v with env := e }
  notes : ∀ {w v} (b : Bool) (note : Note), R w v → R (w.noteIf b note) (v.noteIf b note)

theorem indistinct_eq {W : Type} : Indistinct (W := W) Eq :=
  ⟨fun h => h ▸ rfl, fun _ h => h ▸ rfl, fun _ _ h => h ▸ rfl⟩

/-- The worlds agree, with the notes aside. -/
def SameEnv {W : Type} (w v : World W) : Prop := w.env = v.env

theorem indistinct_sameEnv {W : Type} : Indistinct (W := W) SameEnv :=
  ⟨fun h => h, fun _ _ => rfl, fun _ _ h => by simpa [SameEnv] using h⟩

/-- Whatever `f` does to a child, `g` does it as well. -/
def Refines {W : Type} (R : World W → World W → Prop) (f g : Tick W) : Prop :=
  ∀ c w v c' w', R w v → f c w = some (c', w') → ∃ v', g c v = some (c', v') ∧ R w' v'

section

variable {W : Type} {R : World W → World W → Prop} {f g : Tick W} {s : EStatus} {k : Nat}
  {c c' : Behavior} {cs cs' : List Behavior} {w w' v : World W}

theorem Refines.tickWhile {go : EStatus} (hfg : Refines R f g) (hR : R w v)
    (h : tickWhile f go cs w = some (s, cs', k, w')) :
    ∃ v', tickWhile g go cs v = some (s, cs', k, v') ∧ R w' v' := by
  induction cs generalizing cs' k w v with
  | nil =>
    cases h
    exact ⟨v, rfl, hR⟩
  | cons c cs ih =>
    obtain ⟨c', u, hc, ⟨hgo, rfl, rfl, rfl, rfl⟩ | ⟨rest, k', hgo, hrest, rfl, rfl⟩⟩ :=
      tickWhile_cons h
    · obtain ⟨v', hv', hR'⟩ := hfg _ _ _ _ _ hR hc
      exact ⟨v', by simp [BehaviorTree.tickWhile, hv', hgo], hR'⟩
    · obtain ⟨u', hu', hRu⟩ := hfg _ _ _ _ _ hR hc
      obtain ⟨v', hv', hR'⟩ := ih hRu hrest
      exact ⟨v', by simp [BehaviorTree.tickWhile, hu', hgo, hv'], hR'⟩

theorem Refines.tickUnterminated (hfg : Refines R f g) :
    Refines R (tickUnterminated f) (tickUnterminated g) := by
  intro c w v c' w' hR h
  unfold BehaviorTree.tickUnterminated at h ⊢
  split
  · rename_i hterminated
    rw [if_pos hterminated] at h
    cases h
    exact ⟨v, rfl, hR⟩
  · rename_i hnot
    rw [if_neg hnot] at h
    exact hfg _ _ _ _ _ hR h

theorem Refines.parallelLoop {m_successPolicy m_failurePolicy : Policy}
    {successCount failureCount successCount' failureCount' : Nat} {early : Option EStatus}
    (hfg : Refines R f g) (hR : R w v)
    (h : parallelLoop f m_successPolicy m_failurePolicy cs successCount failureCount w =
      some (early, cs', successCount', failureCount', w')) :
    ∃ v', parallelLoop g m_successPolicy m_failurePolicy cs successCount failureCount v =
      some (early, cs', successCount', failureCount', v') ∧ R w' v' := by
  induction cs generalizing cs' successCount failureCount w v with
  | nil =>
    cases h
    exact ⟨v, rfl, hR⟩
  | cons c cs ih =>
    cases hc : BehaviorTree.tickUnterminated f c w with
    | none => simp [BehaviorTree.parallelLoop, hc] at h
    | some r =>
      obtain ⟨c', u⟩ := r
      obtain ⟨u', hu', hRu⟩ := hfg.tickUnterminated _ _ _ _ _ hR hc
      rw [parallelLoop_eq hc] at h
      rw [parallelLoop_eq hu']
      cases hstops : Parallel.stops m_successPolicy m_failurePolicy c'.m_status with
      | true =>
        rw [if_pos hstops] at h
        cases h
        exact ⟨u', if_pos rfl, hRu⟩
      | false =>
        rw [if_neg (Bool.eq_false_iff.mp hstops)] at h
        obtain ⟨⟨early', rest, sc, fc, w''⟩, hrest, h⟩ := Option.map_eq_some_iff.mp h
        cases h
        obtain ⟨v', hv', hR'⟩ := ih hRu hrest
        refine ⟨v', ?_, hR'⟩
        rw [if_neg Bool.false_ne_true]
        exact Option.map_eq_some_iff.mpr ⟨_, hv', rfl⟩

theorem Refines.repeatLoop {m_limit m_conunter m_conunter' : Int} {fuel fuel' : Nat}
    (hfg : Refines R f g) (hfuel : fuel ≤ fuel') (hR : R w v)
    (h : repeatLoop f m_limit fuel m_conunter c w = some (s, m_conunter', c', w')) :
    ∃ v', repeatLoop g m_limit fuel' m_conunter c v = some (s, m_conunter', c', v') ∧
      R w' v' := by
  induction fuel generalizing fuel' m_conunter c w v with
  | zero => cases h
  | succ fuel ih =>
    obtain ⟨fuel', rfl⟩ := Nat.exists_eq_add_of_le' hfuel
    obtain ⟨hdone, rfl, rfl, rfl, rfl⟩ | ⟨hmore, c'', u, hc, ⟨hs, hstatus, rfl, rfl, rfl⟩ |
      ⟨hrunning, hfailure, hrest⟩⟩ := repeatLoop_succ h
    · exact ⟨v, by simp [BehaviorTree.repeatLoop, hdone], hR⟩
    · obtain ⟨v', hv', hR'⟩ := hfg _ _ _ _ _ hR hc
      refine ⟨v', ?_, hR'⟩
      rcases hs with rfl | rfl
      · simp [BehaviorTree.repeatLoop, hmore, hv', hstatus]
      · simp [BehaviorTree.repeatLoop, hmore, hv', hstatus]
    · obtain ⟨u', hu', hRu⟩ := hfg _ _ _ _ _ hR hc
      obtain ⟨v', hv', hR'⟩ := ih (Nat.le_add_left fuel fuel') hRu hrest
      exact ⟨v', by
        simp [BehaviorTree.repeatLoop, hmore, hu', hrunning, hfailure, hv'], hR'⟩

section

variable {act : String → W → EStatus × W} {fuel fuel' : Nat} {n n' : Node}

theorem Refines.onUpdate (hI : Indistinct R) (hfg : Refines R f g) (hfuel : fuel ≤ fuel')
    (hR : R w v) (h : onUpdate act f fuel n cs w = some (s, n', cs', w')) :
    ∃ v', onUpdate act g fuel' n cs v = some (s, n', cs', v') ∧ R w' v' := by
  unfold BehaviorTree.onUpdate at h ⊢
  split at h
  · cases h
    rw [← hI.env hR]
    exact ⟨_, rfl, hI.acts _ hR⟩
  · obtain ⟨⟨s, rest, k, u⟩, hloop, h⟩ := Option.bind_eq_some_iff.mp h
    cases h
    obtain ⟨v', hv', hR'⟩ := hfg.tickWhile hR hloop
    exact ⟨v', by simp [hv'], hR'⟩
  · obtain ⟨⟨s, rest, k, u⟩, hloop, h⟩ := Option.bind_eq_some_iff.mp h
    cases h
    obtain ⟨v', hv', hR'⟩ := hfg.tickWhile hR hloop
    exact ⟨Selector.stopsAt k s cs' v', by simp [hv'], hI.notes _ _ hR'⟩
  · obtain ⟨⟨s, rest, k, u⟩, hloop, h⟩ := Option.bind_eq_some_iff.mp h
    cases h
    obtain ⟨v', hv', hR'⟩ := hfg.tickWhile hR hloop
    exact ⟨(Selector.stopsAt k s _ v').noteIf true .activeSelectorUpdated, by rw [hv']; rfl,
      hI.notes _ _ (hI.notes _ _ hR')⟩
  · obtain ⟨⟨early, rest, sc, fc, u⟩, hloop, h⟩ := Option.bind_eq_some_iff.mp h
    cases h
    obtain ⟨v', hv', hR'⟩ := hfg.parallelLoop hR hloop
    exact ⟨v', by simp [hv'], hR'⟩
  · split at h
    · obtain ⟨⟨c, u⟩, hc, h⟩ := Option.bind_eq_some_iff.mp h
      cases h
      obtain ⟨v', hv', hR'⟩ := hfg _ _ _ _ _ hR hc
      exact ⟨v', by simp [hv'], hR'⟩
    · cases h
  · split at h
    · obtain ⟨⟨s, k, c, u⟩, hloop, h⟩ := Option.bind_eq_some_iff.mp h
      cases h
      obtain ⟨v', hv', hR'⟩ := hfg.repeatLoop hfuel hR hloop
      exact ⟨v', by simp [hv'], hR'⟩
    · cases h

/-- More fuel does no less. -/
theorem refines_tick (hI : Indistinct R) (hfuel : fuel ≤ fuel') :
    Refines R (tick act fuel) (tick act fuel') := by
  induction fuel generalizing fuel' with
  | zero => exact nofun
  | succ fuel ih =>
    obtain ⟨fuel', rfl⟩ := Nat.exists_eq_add_of_le' hfuel
    intro b w v b' w' hR h
    have hle : fuel ≤ fuel' + fuel := Nat.le_add_left ..
    obtain ⟨s, n, cs, u, hupdate, hresult⟩ := tick_succ h
    obtain ⟨v', hv', hR'⟩ := Refines.onUpdate hI (ih hle) hle hR hupdate
    have htick : ∀ b w, tick act (fuel' + (fuel + 1)) b w =
        tickNode act (tick act (fuel' + fuel)) (fuel' + fuel) b w := fun b w => rfl
    rw [htick]
    simp only [tickNode, hv', Option.bind_eq_bind, Option.bind_some]
    obtain ⟨rfl, rfl, rfl⟩ | ⟨hs, rfl, rfl⟩ := hresult
    · exact ⟨v', by simp, hR'⟩
    · exact ⟨_, by rw [if_neg hs], hI.notes _ _ hR'⟩

end

section

variable {act : String → W → EStatus × W} {fuel fuel' : Nat} {b b₁ b₂ : Behavior}
  {w₁ w₂ : World W}

theorem tick_mono (hfuel : fuel ≤ fuel') (h : tick act fuel b w = some (b₁, w₁)) :
    tick act fuel' b w = some (b₁, w₁) := by
  obtain ⟨_, h', rfl⟩ := refines_tick indistinct_eq hfuel _ _ _ _ _ rfl h
  exact h'

/-- The tick of `b` in the world `w` returns, and this is what it leaves. -/
def Ticks (act : String → W → EStatus × W) (b : Behavior) (w : World W) (b' : Behavior)
    (w' : World W) : Prop :=
  ∃ fuel, tick act fuel b w = some (b', w')

/-- The tick returns, with the same from some fuel on. -/
def Returns (act : String → W → EStatus × W) (b : Behavior) (w : World W) : Prop :=
  ∃ b' w', Ticks act b w b' w'

theorem Ticks.unique (h₁ : Ticks act b w b₁ w₁) (h₂ : Ticks act b w b₂ w₂) :
    b₁ = b₂ ∧ w₁ = w₂ := by
  obtain ⟨fuel₁, h₁⟩ := h₁
  obtain ⟨fuel₂, h₂⟩ := h₂
  have h₁' := tick_mono (Nat.le_max_left fuel₁ fuel₂) h₁
  have h₂' := tick_mono (Nat.le_max_right fuel₁ fuel₂) h₂
  exact Prod.mk.inj (Option.some.inj (h₁'.symm.trans h₂'))

end

end

end NBRaft.BehaviorTree
