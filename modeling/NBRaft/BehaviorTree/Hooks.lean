import NBRaft.BehaviorTree.Loops
import Mathlib.Data.List.Chain

/-!
# Entering and leaving

`onInitialize` is to be called once when a node is entered, and `onTerminate` once when it is
left. So they are, whatever the tree, but for `ActiveSelector`, which calls `onInitialize` in
every update.
-/

namespace NBRaft.BehaviorTree

open Transition

/-- The two hooks take turns, beginning with `onInitialize`. -/
structure Alternates (hooks : List Hook) : Prop where
  head : hooks.head? ≠ some .onTerminate
  chain : hooks.IsChain (· ≠ ·)

/-- The last `onInitialize` has had no `onTerminate` yet. -/
def Entered (hooks : List Hook) : Prop := hooks.getLast? = some .onInitialize

structure HooksOk (n : Node) : Prop where
  alternates : Alternates n.hooks
  entered_iff : Entered n.hooks ↔ n.m_status = .running

section

variable {hooks : List Hook} {hook : Hook}

@[simp] theorem entered_concat : Entered (hooks ++ [hook]) ↔ hook = .onInitialize := by
  simp [Entered]

theorem Alternates.onInitialize (h : Alternates hooks) (hnot : ¬ Entered hooks) :
    Alternates (hooks ++ [.onInitialize]) := by
  constructor
  · cases hooks with
    | nil => simp
    | cons hook hooks => exact h.head
  · refine List.isChain_append.mpr ⟨h.chain, .singleton _, fun x hx y hy => ?_⟩
    rintro rfl
    obtain rfl : .onInitialize = x := by simpa using hy
    exact hnot hx

theorem Alternates.of_append {more : List Hook} (h : Alternates (hooks ++ more)) :
    Alternates hooks := by
  constructor
  · cases hooks with
    | nil => simp
    | cons hook hooks => exact h.head
  · exact (List.isChain_append.mp h.chain).1

theorem Alternates.onTerminate (h : Alternates hooks) (hentered : Entered hooks) :
    Alternates (hooks ++ [.onTerminate]) := by
  constructor
  · cases hooks with
    | nil => cases hentered
    | cons hook hooks => exact h.head
  · refine List.isChain_append.mpr ⟨h.chain, .singleton _, fun x hx y hy => ?_⟩
    obtain rfl : .onTerminate = y := by simpa using hy
    rintro rfl
    cases hentered.symm.trans hx

end

namespace Behavior

/-- The hooks of every node take turns. -/
def AllAlternate (b : Behavior) : Prop := b.Everywhere fun n _ => Alternates n.hooks

def HooksMatch (b : Behavior) : Prop := b.Everywhere fun n _ => HooksOk n

mutual

/-- A node that has been entered is left. -/
theorem hooksMatch_onTerminate : (b : Behavior) → (s : EStatus) → Alternates b.self.hooks →
    Entered b.self.hooks → s ≠ .running → (∀ c ∈ b.m_children, c.HooksMatch) →
      (b.onTerminate.setStatus s).HooksMatch
  | mk n cs, s, halternates, hentered, hs, hcs => by
    rw [onTerminate, setStatus, HooksMatch, everywhere_iff]
    refine ⟨⟨halternates.onTerminate hentered, ?_⟩, ?_⟩
    · simpa using hs
    · split
      · exact hooksMatch_abortRunning cs hcs
      · exact hcs

theorem hooksMatch_abortRunning : (cs : List Behavior) → (∀ c ∈ cs, c.HooksMatch) →
    ∀ c ∈ abortRunning cs, c.HooksMatch
  | [], _ => nofun
  | c :: cs, hcs => by
    obtain ⟨hc, hcs⟩ := List.forall_mem_cons.mp hcs
    rw [abortRunning, List.forall_mem_cons]
    refine ⟨?_, hooksMatch_abortRunning cs hcs⟩
    split
    · rename_i hrunning
      obtain ⟨hself, hbelow⟩ := everywhere_iff.mp hc
      exact hooksMatch_onTerminate c .aborted hself.alternates
        (hself.entered_iff.mpr (isRunning_iff.mp hrunning)) nofun hbelow
    · exact hc

end

mutual

theorem allAlternate_of_onTerminate : (b : Behavior) → (s : EStatus) →
    (b.onTerminate.setStatus s).AllAlternate → b.AllAlternate
  | mk n cs, s, h => by
    rw [onTerminate, setStatus, AllAlternate, everywhere_iff] at h
    refine everywhere_iff.mpr ⟨h.1.of_append, ?_⟩
    by_cases hparallel : n.kind.isParallel = true
    · rw [if_pos hparallel] at h
      exact allAlternate_of_abortRunning cs h.2
    · rw [if_neg hparallel] at h
      exact h.2

theorem allAlternate_of_abortRunning : (cs : List Behavior) →
    (∀ c ∈ abortRunning cs, c.AllAlternate) → ∀ c ∈ cs, c.AllAlternate
  | [], _ => nofun
  | c :: cs, h => by
    rw [abortRunning, List.forall_mem_cons] at h
    refine List.forall_mem_cons.mpr ⟨?_, allAlternate_of_abortRunning cs h.2⟩
    by_cases hrunning : c.isRunning = true
    · rw [if_pos hrunning] at h
      exact allAlternate_of_onTerminate c .aborted h.1
    · rw [if_neg hrunning] at h
      exact h.1

end

theorem allAlternate_of_modify {cs : List Behavior} {i : Nat}
    (h : ∀ c ∈ cs.modify i abort, c.AllAlternate) : ∀ c ∈ cs, c.AllAlternate := by
  intro c hc
  obtain ⟨j, hj, rfl⟩ := List.mem_iff_getElem.mp hc
  have hj' : j < (cs.modify i abort).length := by rwa [List.length_modify]
  have hmem := h _ (List.getElem_mem hj')
  rw [List.getElem_modify] at hmem
  split at hmem
  · exact allAlternate_of_onTerminate _ .aborted hmem
  · exact hmem

end Behavior

section

variable {W : Type} {act : String → W → EStatus × W} {w w' : World W} {b b' : Behavior}

/-- A node is updated with its last `onInitialize` unmatched. -/
theorem entered_self (hb : b.HooksMatch) :
    Alternates (if b.isRunning then b.self else b.self.onInitialize).hooks ∧
      Entered (if b.isRunning then b.self else b.self.onInitialize).hooks := by
  have hself := (Behavior.everywhere_iff.mp hb).1
  split
  · rename_i hrunning
    exact ⟨hself.alternates, hself.entered_iff.mpr (Behavior.isRunning_iff.mp hrunning)⟩
  · rename_i hrunning
    refine ⟨hself.alternates.onInitialize fun hentered => ?_, entered_concat.mpr rfl⟩
    exact hrunning (Behavior.isRunning_iff.mpr (hself.entered_iff.mp hentered))

/-- Whatever a tick does, short of updating an `ActiveSelector`. -/
theorem hooksMatch_tick {fuel : Nat} (h : tick act fuel b w = some (b', w'))
    (hw : w'.Clean [.activeSelectorUpdated]) (hb : b.HooksMatch) : b'.HooksMatch := by
  induction fuel generalizing b b' w w' with
  | zero => cases h
  | succ fuel ih =>
    have hf : Keeps [.activeSelectorUpdated] Behavior.HooksMatch (fun _ => True)
        (tick act fuel) := ⟨clean_tick, fun h hw hb => ⟨ih h hw hb, trivial⟩⟩
    have hbelow := (Behavior.everywhere_iff.mp hb).2
    have hentered := entered_self hb
    obtain ⟨s, n, cs, u, hupdate, hresult⟩ := tick_succ h
    have hu : u.Clean [.activeSelectorUpdated] := by
      obtain ⟨-, -, rfl⟩ | ⟨-, -, rfl⟩ := hresult
      · exact hw
      · exact hw.of_noteIf
    obtain ⟨hcs, hhooks⟩ := hf.onUpdate hupdate hu hbelow fun _ _ _ => List.mem_singleton.mpr rfl
    rw [← hhooks (List.mem_singleton.mpr rfl)] at hentered
    obtain ⟨rfl, rfl, -⟩ | ⟨hs, rfl, -⟩ := hresult
    · exact Behavior.everywhere_iff.mpr ⟨⟨hentered.1, iff_of_true hentered.2 rfl⟩, hcs⟩
    · exact Behavior.hooksMatch_onTerminate (.mk n cs) s hentered.1 hentered.2 hs hcs

theorem hooksMatch_of_fresh (hb : b.Fresh) : b.HooksMatch := by
  intro c hc
  obtain ⟨hstatus, hhooks, -⟩ := hb c hc
  refine ⟨⟨?_, ?_⟩, ?_⟩
  · simp [hhooks]
  · simp [hhooks]
  · simp [Entered, hhooks, hstatus]

end

/-! ## Hooks that do not take turns -/

/-- Hooks that do not take turns show for ever, and what goes wrong in a tick shows in them. -/
structure Shows {W : Type} (f : Tick W) : Prop where
  back : ∀ {c w c' w'}, f c w = some (c', w') → c'.AllAlternate → c.AllAlternate
  clean : ∀ {c w c' w'}, f c w = some (c', w') → c.HooksMatch →
    w.Clean [.activeSelectorUpdated] → c'.AllAlternate → w'.Clean [.activeSelectorUpdated]

section

variable {W : Type} {f : Tick W} {w w' : World W} {cs cs' : List Behavior}

section

variable {go s : EStatus} {k : Nat}

theorem Shows.back_tickWhile (hf : Shows f) (h : tickWhile f go cs w = some (s, cs', k, w'))
    (hcs : ∀ c ∈ cs', c.AllAlternate) : ∀ c ∈ cs, c.AllAlternate := by
  induction cs generalizing cs' k w with
  | nil => nofun
  | cons c cs ih =>
    obtain ⟨c', u, hc, ⟨-, -, rfl, -, -⟩ | ⟨cs'', k', -, hrest, rfl, -⟩⟩ := tickWhile_cons h
    · obtain ⟨hc', hcs⟩ := List.forall_mem_cons.mp hcs
      exact List.forall_mem_cons.mpr ⟨hf.back hc hc', hcs⟩
    · obtain ⟨hc', hcs⟩ := List.forall_mem_cons.mp hcs
      exact List.forall_mem_cons.mpr ⟨hf.back hc hc', ih hrest hcs⟩

theorem Shows.tickWhile (hf : Shows f) (h : tickWhile f go cs w = some (s, cs', k, w'))
    (hmatch : ∀ c ∈ cs, c.HooksMatch) (hw : w.Clean [.activeSelectorUpdated])
    (hcs : ∀ c ∈ cs', c.AllAlternate) : w'.Clean [.activeSelectorUpdated] := by
  induction cs generalizing cs' k w with
  | nil =>
    cases h
    exact hw
  | cons c cs ih =>
    obtain ⟨hmatchc, hmatch⟩ := List.forall_mem_cons.mp hmatch
    obtain ⟨c', u, hc, ⟨-, -, rfl, -, rfl⟩ | ⟨cs'', k', -, hrest, rfl, -⟩⟩ := tickWhile_cons h
    · exact hf.clean hc hmatchc hw (List.forall_mem_cons.mp hcs).1
    · obtain ⟨hc', hcs⟩ := List.forall_mem_cons.mp hcs
      exact ih hrest hmatch (hf.clean hc hmatchc hw hc') hcs

end

theorem Shows.tickUnterminated (hf : Shows f) : Shows (BehaviorTree.tickUnterminated f) := by
  constructor
  · intro c w c' w' h hc
    unfold BehaviorTree.tickUnterminated at h
    split_ifs at h
    · cases h
      exact hc
    · exact hf.back h hc
  · intro c w c' w' h hmatch hw hc
    unfold BehaviorTree.tickUnterminated at h
    split_ifs at h
    · cases h
      exact hw
    · exact hf.clean h hmatch hw hc

section

variable {m_successPolicy m_failurePolicy : Policy} {successCount failureCount : Nat}
  {successCount' failureCount' : Nat} {early : Option EStatus}

theorem Shows.back_parallelLoop (hf : Shows f)
    (h : parallelLoop f m_successPolicy m_failurePolicy cs successCount failureCount w =
      some (early, cs', successCount', failureCount', w'))
    (hcs : ∀ c ∈ cs', c.AllAlternate) : ∀ c ∈ cs, c.AllAlternate := by
  induction cs generalizing cs' successCount failureCount w with
  | nil => nofun
  | cons c cs ih =>
    obtain ⟨c', u, hc, ⟨rfl, -, -⟩ | ⟨cs'', sc, fc, rfl, hrest⟩⟩ := parallelLoop_cons h
    · obtain ⟨hc', hcs⟩ := List.forall_mem_cons.mp hcs
      exact List.forall_mem_cons.mpr ⟨hf.tickUnterminated.back hc hc', hcs⟩
    · obtain ⟨hc', hcs⟩ := List.forall_mem_cons.mp hcs
      exact List.forall_mem_cons.mpr ⟨hf.tickUnterminated.back hc hc', ih hrest hcs⟩

theorem Shows.parallelLoop (hf : Shows f)
    (h : parallelLoop f m_successPolicy m_failurePolicy cs successCount failureCount w =
      some (early, cs', successCount', failureCount', w'))
    (hmatch : ∀ c ∈ cs, c.HooksMatch) (hw : w.Clean [.activeSelectorUpdated])
    (hcs : ∀ c ∈ cs', c.AllAlternate) : w'.Clean [.activeSelectorUpdated] := by
  induction cs generalizing cs' successCount failureCount w with
  | nil =>
    cases h
    exact hw
  | cons c cs ih =>
    obtain ⟨hmatchc, hmatch⟩ := List.forall_mem_cons.mp hmatch
    obtain ⟨c', u, hc, ⟨rfl, rfl, -⟩ | ⟨cs'', sc, fc, rfl, hrest⟩⟩ := parallelLoop_cons h
    · exact hf.tickUnterminated.clean hc hmatchc hw (List.forall_mem_cons.mp hcs).1
    · obtain ⟨hc', hcs⟩ := List.forall_mem_cons.mp hcs
      exact ih hrest hmatch (hf.tickUnterminated.clean hc hmatchc hw hc') hcs

end

section

variable {m_limit m_conunter m_conunter' : Int} {fuel : Nat} {s : EStatus} {c c' : Behavior}

theorem Shows.back_repeatLoop (hf : Shows f)
    (h : repeatLoop f m_limit fuel m_conunter c w = some (s, m_conunter', c', w'))
    (hc : c'.AllAlternate) : c.AllAlternate := by
  induction fuel generalizing m_conunter c w with
  | zero => cases h
  | succ fuel ih =>
    obtain ⟨-, -, -, rfl, -⟩ | ⟨-, c'', u, hc'', ⟨-, -, -, rfl, -⟩ | ⟨-, -, hrest⟩⟩ :=
      repeatLoop_succ h
    · exact hc
    · exact hf.back hc'' hc
    · exact hf.back hc'' (ih hrest)

theorem Shows.repeatLoop (hf : Shows f)
    (hkeeps : Keeps [.activeSelectorUpdated] Behavior.HooksMatch (fun _ => True) f)
    (h : repeatLoop f m_limit fuel m_conunter c w = some (s, m_conunter', c', w'))
    (hmatch : c.HooksMatch) (hw : w.Clean [.activeSelectorUpdated]) (hc : c'.AllAlternate) :
    w'.Clean [.activeSelectorUpdated] := by
  induction fuel generalizing m_conunter c w with
  | zero => cases h
  | succ fuel ih =>
    obtain ⟨-, -, -, -, rfl⟩ | ⟨-, c'', u, hc'', ⟨-, -, -, rfl, rfl⟩ | ⟨-, -, hrest⟩⟩ :=
      repeatLoop_succ h
    · exact hw
    · exact hf.clean hc'' hmatch hw hc
    · have hu := hf.clean hc'' hmatch hw (hf.back_repeatLoop hrest hc)
      exact ih hrest (hkeeps.keeps hc'' hu hmatch).1 hu

end

section

variable {act : String → W → EStatus × W} {fuel : Nat} {n n' : Node} {s : EStatus}

theorem Shows.back_onUpdate (hf : Shows f)
    (h : onUpdate act f fuel n cs w = some (s, n', cs', w'))
    (hcs' : ∀ c ∈ cs', c.AllAlternate) :
    (∀ c ∈ cs, c.AllAlternate) ∧ ∃ more, n'.hooks = n.hooks ++ more := by
  cases update_of_onUpdate h with
  | action => exact ⟨hcs', [], (List.append_nil _).symm⟩
  | @sequence isFilter m_currentChild k s rest u hkind hloop =>
    obtain ⟨hbefore, hrest⟩ := List.forall_mem_append.mp hcs'
    refine ⟨?_, [], (List.append_nil _).symm⟩
    rw [← List.take_append_drop m_currentChild cs]
    exact List.forall_mem_append.mpr ⟨hbefore, hf.back_tickWhile hloop hrest⟩
  | selector hkind hloop => exact ⟨hf.back_tickWhile hloop hcs', [], (List.append_nil _).symm⟩
  | activeSelector hkind hloop hprev =>
    refine ⟨hf.back_tickWhile hloop ?_, [.onInitialize], rfl⟩
    obtain rfl | ⟨-, rfl⟩ := hprev
    · exact hcs'
    · exact Behavior.allAlternate_of_modify hcs'
  | parallel hkind hloop => exact ⟨hf.back_parallelLoop hloop hcs', [], (List.append_nil _).symm⟩
  | inverter hkind hcs hc =>
    subst hcs
    refine ⟨?_, [], (List.append_nil _).symm⟩
    simpa using hf.back hc (hcs' _ (List.mem_singleton.mpr rfl))
  | repeats hkind hcs hloop =>
    subst hcs
    refine ⟨?_, [], (List.append_nil _).symm⟩
    simpa using hf.back_repeatLoop hloop (hcs' _ (List.mem_singleton.mpr rfl))

theorem Shows.onUpdate (hf : Shows f)
    (hkeeps : Keeps [.activeSelectorUpdated] Behavior.HooksMatch (fun _ => True) f)
    (h : onUpdate act f fuel n cs w = some (s, n', cs', w')) (hentered : Entered n.hooks)
    (hmatch : ∀ c ∈ cs, c.HooksMatch) (hw : w.Clean [.activeSelectorUpdated])
    (hn : Alternates n'.hooks) (hcs' : ∀ c ∈ cs', c.AllAlternate) :
    w'.Clean [.activeSelectorUpdated] := by
  cases update_of_onUpdate h with
  | action => exact hw
  | sequence hkind hloop =>
    exact hf.tickWhile hloop (fun c hc => hmatch c (List.mem_of_mem_drop hc)) hw
      (List.forall_mem_append.mp hcs').2
  | selector hkind hloop => exact (hf.tickWhile hloop hmatch hw hcs').noteIf (by simp)
  | activeSelector =>
    -- `onInitialize` follows on `onInitialize`
    have hchain := (List.isChain_append.mp hn.chain).2.2
    exact absurd rfl (hchain .onInitialize hentered .onInitialize rfl)
  | parallel hkind hloop => exact hf.parallelLoop hloop hmatch hw hcs'
  | inverter hkind hcs hc =>
    subst hcs
    exact hf.clean hc (hmatch _ (List.mem_singleton.mpr rfl)) hw
      (hcs' _ (List.mem_singleton.mpr rfl))
  | repeats hkind hcs hloop =>
    subst hcs
    exact hf.repeatLoop hkeeps hloop (hmatch _ (List.mem_singleton.mpr rfl)) hw
      (hcs' _ (List.mem_singleton.mpr rfl))

theorem shows_tick {act : String → W → EStatus × W} (fuel : Nat) : Shows (tick act fuel) := by
  induction fuel with
  | zero => exact ⟨nofun, nofun⟩
  | succ fuel ih =>
    have hback : ∀ {b : Behavior} {w b' w'}, tick act (fuel + 1) b w = some (b', w') →
        b'.AllAlternate → ∃ s n cs u, BehaviorTree.onUpdate act (tick act fuel) fuel
            (if b.isRunning then b.self else b.self.onInitialize) b.m_children w =
              some (s, n, cs, u) ∧
          (w' = u ∨ ∃ k, w' = u.noteIf k .abortedAbove) ∧ Alternates n.hooks ∧
            ∀ c ∈ cs, c.AllAlternate := by
      intro b w b' w' h hb'
      obtain ⟨s, n, cs, u, hupdate, ⟨-, rfl, rfl⟩ | ⟨-, rfl, rfl⟩⟩ := tick_succ h
      · obtain ⟨hself, hcs⟩ := Behavior.everywhere_iff.mp hb'
        exact ⟨s, n, cs, _, hupdate, .inl rfl, hself, hcs⟩
      · obtain ⟨hself, hcs⟩ := Behavior.everywhere_iff.mp
          (Behavior.allAlternate_of_onTerminate (.mk n cs) s hb')
        exact ⟨s, n, cs, u, hupdate, .inr ⟨_, rfl⟩, hself, hcs⟩
    constructor
    · intro b w b' w' h hb'
      obtain ⟨s, n, cs, u, hupdate, -, hself, hcs⟩ := hback h hb'
      obtain ⟨hbelow, more, hhooks⟩ := ih.back_onUpdate hupdate hcs
      refine Behavior.everywhere_iff.mpr ⟨?_, hbelow⟩
      rw [hhooks] at hself
      have halternates := hself.of_append
      split_ifs at halternates
      · exact halternates
      · exact halternates.of_append
    · intro b w b' w' h hb hw hb'
      have hkeeps : Keeps [.activeSelectorUpdated] Behavior.HooksMatch (fun _ => True)
          (tick act fuel) := ⟨clean_tick, fun h hw hb => ⟨hooksMatch_tick h hw hb, trivial⟩⟩
      obtain ⟨s, n, cs, u, hupdate, hw', hself, hcs⟩ := hback h hb'
      have hu := ih.onUpdate hkeeps hupdate (entered_self hb).2
        (Behavior.everywhere_iff.mp hb).2 hw hself hcs
      obtain rfl | ⟨k, rfl⟩ := hw'
      · exact hu
      · exact hu.noteIf (by simp)

end

end

/-- In a run of root ticks the hooks of every node take turns, with those running that have been
entered and not left, exactly as long as no `ActiveSelector` is updated. -/
theorem hooks_alternate_iff {W : Type} (act : String → W → EStatus × W) (b : Behavior)
    (hb : b.Fresh) (env : W) (es : List (Event W)) (t : BehaviorTree W)
    (h : run (step act) ⟨b, { env := env }⟩ es = some t) :
    (∀ c ∈ t.m_root.nodes, Alternates c.self.hooks ∧
        (Entered c.self.hooks ↔ c.m_status = .running)) ↔
      .activeSelectorUpdated ∉ t.world.notes := by
  have hmatch : (t.world.Clean [.activeSelectorUpdated] → t.m_root.HooksMatch) ∧
      (t.m_root.AllAlternate → t.world.Clean [.activeSelectorUpdated]) := by
    refine run_preserves (I := fun t : BehaviorTree W =>
      (t.world.Clean [.activeSelectorUpdated] → t.m_root.HooksMatch) ∧
        (t.m_root.AllAlternate → t.world.Clean [.activeSelectorUpdated])) ?_ h
          ⟨fun _ => hooksMatch_of_fresh hb, fun _ => by simp [World.Clean]⟩
    intro t e t' hstep ⟨hmatch, hshows⟩
    cases e with
    | tick fuel =>
      obtain ⟨⟨b', w'⟩, htick, rfl⟩ := Option.map_eq_some_iff.mp hstep
      constructor
      · intro hclean
        exact hooksMatch_tick htick hclean (hmatch (clean_tick htick hclean))
      · intro halternate
        have hclean := hshows ((shows_tick fuel).back htick halternate)
        exact (shows_tick fuel).clean htick (hmatch hclean) hclean halternate
    | passes env =>
      cases hstep
      exact ⟨hmatch, hshows⟩
  have hclean : t.world.Clean [.activeSelectorUpdated] ↔
      .activeSelectorUpdated ∉ t.world.notes := by
    simp [World.Clean]
  rw [← hclean]
  constructor
  · intro hhooks
    exact hmatch.2 fun c hc => (hhooks c hc).1
  · intro hnone c hc
    have hok := hmatch.1 hnone c hc
    exact ⟨hok.alternates, hok.entered_iff⟩

/-- A `Parallel` that has succeeded with one of its actions leaves the other. -/
theorem hooks_alternate_iff_parallel : ∃ t,
    run (step fun uid (_ : Unit) => (if uid = "alarm" then .success else .running, ()))
      ⟨Behavior.ofActions (.parallel false .requireOne .requireAll) ["patrol", "alarm"],
        { env := () }⟩ [.tick 2] = some t ∧
    ((∀ c ∈ t.m_root.nodes, Alternates c.self.hooks ∧
        (Entered c.self.hooks ↔ c.m_status = .running)) ↔
      .activeSelectorUpdated ∉ t.world.notes) := by
  have h : run (step fun uid (_ : Unit) => (if uid = "alarm" then .success else .running, ()))
    ⟨Behavior.ofActions (.parallel false .requireOne .requireAll) ["patrol", "alarm"],
      { env := () }⟩ [.tick 2] = some _ := rfl
  exact ⟨_, h, hooks_alternate_iff _ _ (by decide) () _ _ h⟩

/-- An `ActiveSelector` is entered twice in its first tick. -/
theorem activeSelector_entered_twice : ∃ t,
    run (step fun _ (_ : Unit) => (.running, ()))
      ⟨Behavior.ofActions (.activeSelector 1) ["patrol"], { env := () }⟩ [.tick 2] = some t ∧
    (Behavior.ofActions (.activeSelector 1) ["patrol"]).Fresh ∧
    ¬ ∀ c ∈ t.m_root.nodes, Alternates c.self.hooks ∧
        (Entered c.self.hooks ↔ c.m_status = .running) := by
  have h : run (step fun _ (_ : Unit) => (.running, ()))
    ⟨Behavior.ofActions (.activeSelector 1) ["patrol"], { env := () }⟩ [.tick 2] = some _ := rfl
  refine ⟨_, h, by decide, fun hhooks => ?_⟩
  have hroot := (hhooks _ List.mem_cons_self).1.chain
  exact List.isChain_cons_cons.mp hroot |>.1 rfl

end NBRaft.BehaviorTree
