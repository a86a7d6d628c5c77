import NBRaft.BehaviorTree.Flatten
import NBRaft.BehaviorTree.Preempt

/-!
# Inverting twice

An `Inverter` looks at the status that is stored in its child after the tick, turns success into
failure and failure into success, and takes everything else as running. So it loses what is
neither, but over actions that only succeed, fail or go on running no tick comes to anything else:
a second `Inverter` takes back what the first has done.
-/

namespace NBRaft.BehaviorTree

open Transition

/-- A decorator over its child, as the constructor leaves it. -/
def DecoratorClass.over (d : DecoratorClass) (uid : String) (c : Behavior) : Behavior :=
  .mk (d.node uid) [c]

/-- What an `Inverter` makes of the status of its child. -/
def EStatus.inverse : EStatus → EStatus
  | .failure => .success
  | .success => .failure
  | _ => .running

theorem EStatus.IsOutcome.inverse_inverse {s : EStatus} (h : s.IsOutcome) :
    s.inverse.inverse = s := by
  obtain rfl | rfl | rfl := h <;> rfl

theorem Behavior.inverse_m_status (c : Behavior) : c.m_status.inverse =
    if c.isFailure then .success else if c.isSuccess then .failure else .running := by
  unfold isFailure isSuccess
  cases h : c.m_status <;> simp [EStatus.inverse]

/-- An `Inverter` over this child. -/
def Inverts (b c : Behavior) : Prop := b.self.kind = .inverter ∧ b.m_children = [c]

section

variable {W : Type} {act : String → W → EStatus × W} {fuel : Nat} {b c c' : Behavior}
  {w u v : World W}

/-- The tick of an `Inverter` is that of its child, but for the status. -/
theorem Inverts.tick (hb : Inverts b c) (h : tick act fuel c w = some (c', u)) :
    ∃ b' w', tick act (fuel + 1) b w = some (b', w') ∧ SameEnv u w' ∧ Inverts b' c' ∧
      b'.m_status = c'.m_status.inverse := by
  obtain ⟨hkind, hchildren⟩ := hb
  have hentered : b.entered.kind = .inverter := by
    rw [kind_entered, hkind]
    split <;> rfl
  have hupdate : onUpdate act (BehaviorTree.tick act fuel) fuel b.entered b.m_children w =
      some (c'.m_status.inverse, b.entered, [c'], u) := by
    simp [onUpdate, hentered, hchildren, h, Behavior.inverse_m_status]
  obtain ⟨b', w', htick, hu, hkind', hs, hcs⟩ :=
    exists_tick_of_onUpdate hupdate (by rw [hentered]; rfl)
  exact ⟨b', w', htick, hu, ⟨hkind'.trans hentered, hcs⟩, hs⟩

/-- An `Inverter` over an `Inverter` over `c`. -/
def InvertsTwice (c b : Behavior) : Prop := ∃ d, Inverts b d ∧ Inverts d c

/-- Its tick does what the tick of `c` does. -/
theorem InvertsTwice.ticks (hact : ∀ uid env, (act uid env).1.IsOutcome) (hb : InvertsTwice c b)
    (hv : SameEnv v w) (h : Ticks act c v c' u) :
    ∃ b' w', Ticks act b w b' w' ∧ SameEnv u w' ∧ b'.m_status = c'.m_status ∧
      InvertsTwice c' b' := by
  obtain ⟨d, hb, hd⟩ := hb
  obtain ⟨fuel, h⟩ := h
  have houtcome : c'.m_status.IsOutcome := returnsOutcomes_tick hact fuel _ _ _ _ h
  obtain ⟨w₁, hc, hw₁⟩ := refines_tick indistinct_sameEnv (Nat.le_refl fuel) _ _ _ _ _ hv h
  obtain ⟨d', w₂, hd, hw₂, hd', hinner⟩ := hd.tick hc
  obtain ⟨b', w₃, hb, hw₃, hb', houter⟩ := hb.tick hd
  have hstatus : b'.m_status = c'.m_status := by
    rw [houter, hinner, houtcome.inverse_inverse]
  exact ⟨b', w₃, ⟨_, hb⟩, (hw₁.trans hw₂).trans hw₃, hstatus, d', hb', hd'⟩

end

/-- Over actions that come to a result or go on running, an `Inverter` over an `Inverter` over `t`
shows in every run what `t` shows, and no tick of any node returns anything but an outcome. -/
theorem inverter_inverter {W : Type} (act : String → W → EStatus × W)
    (hact : ∀ uid env, (act uid env).1.IsOutcome) (uid uid' : String) (t : Behavior)
    (hdecorated : t.Decorated) (hlimited : t.Limited) (env : W) (changes : List (W → W)) :
    (∃ shown, Transcript act
      (DecoratorClass.inverter.over uid (DecoratorClass.inverter.over uid' t)) { env := (env, []) }
      changes shown) ∧
    (∀ shown, Transcript act
        (DecoratorClass.inverter.over uid (DecoratorClass.inverter.over uid' t))
        { env := (env, []) } changes shown ↔
      Transcript act t { env := (env, []) } changes shown) ∧
    ∀ fuel, ReturnsOutcomes (tick (logged act) fuel) := by
  have hlogged : ∀ uid env, (logged act uid env).1.IsOutcome := fun uid env => hact uid env.1
  obtain ⟨height, hbuilt⟩ := exists_built t hdecorated hlimited
  have htwice : InvertsTwice t
      (DecoratorClass.inverter.over uid (DecoratorClass.inverter.over uid' t)) :=
    ⟨DecoratorClass.inverter.over uid' t, ⟨rfl, rfl⟩, ⟨rfl, rfl⟩⟩
  have hstart : SameEnv (W := W × List String) { env := (env, []) } { env := (env, []) } := rfl
  obtain ⟨shown, hinverted, ht⟩ := exists_transcript_of_simulates
    (fun h hv hticks => h.ticks hlogged hv hticks) htwice hstart hbuilt changes
  exact ⟨⟨shown, hinverted⟩, transcript_iff_of_common hinverted ht,
    returnsOutcomes_tick hlogged⟩

/-- The door is tried until it opens, and not a third time. -/
theorem inverter_inverter_door : ∃ shown,
    Transcript Watched.scripted (DecoratorClass.inverter.over "not"
        (DecoratorClass.inverter.over "neither"
          (Tree.decorator (.repeats 1) "once" (.action "door")).toBehavior))
      { env := ([.running, .success], []) } [id, id] shown ∧
    Transcript Watched.scripted (Tree.decorator (.repeats 1) "once" (.action "door")).toBehavior
      { env := ([.running, .success], []) } [id, id] shown ∧
    shown = [(.running, [.success], ["door"]), (.success, [], ["door", "door"])] := by
  have hlimited : (Tree.decorator (.repeats 1) "once" (.action "door")).toBehavior.Limited := by
    simp [Behavior.Limited, Behavior.Everywhere, Tree.toBehavior, Behavior.nodes,
      Behavior.nodesBelow, DecoratorClass.node]
  have hdoor : transcript Watched.scripted 3
    (Tree.decorator (.repeats 1) "once" (.action "door")).toBehavior
    { env := ([.running, .success], []) } [id, id] = some _ := rfl
  obtain ⟨-, hiff, -⟩ := inverter_inverter Watched.scripted
    Watched.isOutcome_scripted "not" "neither"
    (Tree.decorator (.repeats 1) "once" (.action "door")).toBehavior (by decide) hlimited
    [.running, .success] [id, id]
  exact ⟨_, (hiff _).mpr (.of_eq_some hdoor), .of_eq_some hdoor, rfl⟩

end NBRaft.BehaviorTree
