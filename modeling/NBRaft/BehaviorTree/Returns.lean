import NBRaft.BehaviorTree.Activations
import NBRaft.BehaviorTree.Builder
import NBRaft.BehaviorTree.Fuel

/-!
# Whether a tick returns

A tick goes through a finite tree, and of the loops on its way only that of a `Repeat` without
limit may go on for ever. So a tick returns unless it comes to a `Repeat` of which the child, ticked
there again and again, neither fails nor goes on running.
-/

namespace NBRaft.BehaviorTree

open Transition

/-! ## The shape of a tree -/

/-- A tree of at most this height in which every decorator has its child. `onInitialize` takes the
kind of a node back to what its constructor has made of it. -/
def Built (limits : Int → Prop) : Nat → Behavior → Prop
  | 0, _ => False
  | height + 1, b =>
    (b.self.kind.onInitialize.getType = .decorator → b.m_children.length = 1) ∧
      (∀ m_limit, b.self.kind.onInitialize = .repeats 0 m_limit → limits m_limit) ∧
      ∀ c ∈ b.m_children, Built limits height c

section

variable {limits : Int → Prop} {height : Nat} {b c : Behavior} {cs : List Behavior}

/-- What is built depends on the kinds of the nodes only. -/
theorem Built.of_kind (hb : Built limits (height + 1) b)
    (hkind : c.self.kind.onInitialize = b.self.kind.onInitialize)
    (hlength : c.m_children.length = b.m_children.length)
    (hcs : ∀ d ∈ c.m_children, Built limits height d) : Built limits (height + 1) c := by
  obtain ⟨hchild, hlimit, -⟩ := hb
  rw [Built, hkind, hlength]
  exact ⟨hchild, hlimit, hcs⟩

theorem length_abortRunning (cs : List Behavior) :
    (Behavior.abortRunning cs).length = cs.length := by
  induction cs with
  | nil => rfl
  | cons c cs ih => simp [Behavior.abortRunning, ih]

theorem mem_abortRunning (hc : c ∈ Behavior.abortRunning cs) :
    c ∈ cs ∨ ∃ d ∈ cs, c = d.abort := by
  induction cs with
  | nil => cases hc
  | cons d cs ih =>
    rw [Behavior.abortRunning] at hc
    rcases List.mem_cons.mp hc with rfl | hc
    · split
      · exact .inr ⟨d, List.mem_cons_self, rfl⟩
      · exact .inl List.mem_cons_self
    · rcases ih hc with hc | ⟨e, he, hc⟩
      · exact .inl (List.mem_cons_of_mem _ hc)
      · exact .inr ⟨e, List.mem_cons_of_mem _ he, hc⟩

theorem Built.abort (hb : Built limits height b) : Built limits height b.abort := by
  induction height generalizing b with
  | zero => exact hb
  | succ height ih =>
    obtain ⟨n, cs⟩ := b
    have hcs : ∀ c ∈ cs, Built limits height c := hb.2.2
    refine hb.of_kind rfl ?_ fun c hc => ?_
    · change (if n.kind.isParallel then Behavior.abortRunning cs else cs).length = cs.length
      split
      · exact length_abortRunning cs
      · rfl
    · change c ∈ (if n.kind.isParallel then Behavior.abortRunning cs else cs) at hc
      split at hc
      · rcases mem_abortRunning hc with hc | ⟨d, hd, rfl⟩
        · exact hcs c hc
        · exact ih (hcs d hd)
      · exact hcs c hc

end

section

variable {W : Type} {act : String → W → EStatus × W} {f : Tick W} {fuel : Nat} {n n' : Node}
  {s : EStatus} {cs cs' : List Behavior} {w w' : World W} {vs : List Visit}

theorem Visited.forall {I : Behavior → Prop} (h : Visited f vs cs w cs' w')
    (hI : ∀ c w c' w', f c w = some (c', w') → I c → I c') (hcs : ∀ c ∈ cs, I c) :
    ∀ c ∈ cs', I c := by
  induction h with
  | done => exact hcs
  | ticks hc htick hrest ih =>
    refine ih fun c hmem => ?_
    rcases List.mem_or_eq_of_mem_set hmem with hmem | rfl
    · exact hcs c hmem
    · exact hI _ _ _ _ htick (hcs _ (List.mem_of_getElem? hc))
  | passes hc hrest ih => exact ih hcs

theorem onInitialize_onInitialize (kind : Kind) :
    kind.onInitialize.onInitialize = kind.onInitialize := by
  cases kind <;> rfl

theorem entered_kind (b : Behavior) :
    b.entered.kind.onInitialize = b.self.kind.onInitialize := by
  rw [kind_entered]
  split
  · rfl
  · exact onInitialize_onInitialize _

variable {limits : Int → Prop} {height : Nat} {b b' : Behavior}

theorem Built.of_tick (hb : Built limits height b) (h : tick act fuel b w = some (b', w')) :
    Built limits height b' := by
  induction fuel generalizing height b w b' w' with
  | zero => cases h
  | succ fuel ih =>
    cases height with
    | zero => exact hb.elim
    | succ height =>
      obtain ⟨n, cs, u, hupdate, hnode, -, hcs⟩ := tickNode_update h
      have hkind : b'.self.kind.onInitialize = b.self.kind.onInitialize := by
        rw [hnode, kind_onUpdate hupdate, entered_kind]
      obtain ⟨hlength, hall⟩ : cs.length = b.m_children.length ∧
          ∀ c ∈ cs, Built limits height c := by
        by_cases haction : b.entered.kind = .action
        · simp only [onUpdate, haction, Option.some.injEq, Prod.mk.injEq] at hupdate
          obtain ⟨-, rfl, rfl, -⟩ := hupdate
          exact ⟨rfl, hb.2.2⟩
        · obtain ⟨rest, v, hvisited, -, rfl | ⟨prev, -, -, rfl⟩⟩ := visited_onUpdate hupdate haction
          · exact ⟨hvisited.length_eq, hvisited.forall (fun _ _ _ _ h hc => ih hc h) hb.2.2⟩
          · have hrest := hvisited.forall (fun _ _ _ _ h hc => ih hc h) hb.2.2
            refine ⟨by rw [List.length_modify, hvisited.length_eq], fun c hc => ?_⟩
            obtain ⟨i, hi⟩ := List.getElem?_of_mem hc
            rw [List.getElem?_modify] at hi
            obtain ⟨d, hd, rfl⟩ := Option.map_eq_some_iff.mp hi
            split
            · exact (hrest d (List.mem_of_getElem? hd)).abort
            · exact hrest d (List.mem_of_getElem? hd)
      refine hb.of_kind hkind ?_ fun c hc => ?_
      · rw [hcs]
        split
        · rw [length_abortRunning, hlength]
        · exact hlength
      · rw [hcs] at hc
        split at hc
        · rcases mem_abortRunning hc with hc | ⟨d, hd, rfl⟩
          · exact hall c hc
          · exact (hall d hd).abort
        · exact hall c hc

end

/-! ## The ticks on the way of a tick -/

section

variable {W : Type}

/-- `tickWhile` calls the tick of this child in this world. -/
inductive CalledWhile (act : String → W → EStatus × W) (go : EStatus) :
    List Behavior → World W → Behavior → World W → Prop where
  | here {c : Behavior} {cs : List Behavior} {w : World W} : CalledWhile act go (c :: cs) w c w
  | later {c c' d : Behavior} {cs : List Behavior} {w u v : World W} (htick : Ticks act c w c' u)
      (hgo : c'.m_status = go) (hrest : CalledWhile act go cs u d v) :
      CalledWhile act go (c :: cs) w d v

inductive CalledParallel (act : String → W → EStatus × W)
    (m_successPolicy m_failurePolicy : Policy) :
    List Behavior → World W → Behavior → World W → Prop where
  | here {c : Behavior} {cs : List Behavior} {w : World W} (hnot : c.isTerminated = false) :
      CalledParallel act m_successPolicy m_failurePolicy (c :: cs) w c w
  | passed {c d : Behavior} {cs : List Behavior} {w v : World W} (hterminated : c.isTerminated)
      (hstops : Parallel.stops m_successPolicy m_failurePolicy c.m_status = false)
      (hrest : CalledParallel act m_successPolicy m_failurePolicy cs w d v) :
      CalledParallel act m_successPolicy m_failurePolicy (c :: cs) w d v
  | later {c c' d : Behavior} {cs : List Behavior} {w u v : World W}
      (hnot : c.isTerminated = false) (htick : Ticks act c w c' u)
      (hstops : Parallel.stops m_successPolicy m_failurePolicy c'.m_status = false)
      (hrest : CalledParallel act m_successPolicy m_failurePolicy cs u d v) :
      CalledParallel act m_successPolicy m_failurePolicy (c :: cs) w d v

/-- `repeatLoop` calls the tick of its child when the child has become this. -/
inductive CalledRepeat (act : String → W → EStatus × W) (m_limit : Int) :
    Int → Behavior → World W → Behavior → World W → Prop where
  | here {m_conunter : Int} {c : Behavior} {w : World W}
      (hmore : m_limit < 0 ∨ m_conunter < m_limit) : CalledRepeat act m_limit m_conunter c w c w
  | later {m_conunter : Int} {c c' d : Behavior} {w u v : World W}
      (hmore : m_limit < 0 ∨ m_conunter < m_limit) (htick : Ticks act c w c' u)
      (hrunning : c'.m_status ≠ .running) (hfailure : c'.m_status ≠ .failure)
      (hrest : CalledRepeat act m_limit (m_conunter + 1) c' u d v) :
      CalledRepeat act m_limit m_conunter c w d v

/-- The update in the tick of `b` calls the tick of the child `d`. -/
def Calls (act : String → W → EStatus × W) (b : Behavior) (w : World W) (d : Behavior)
    (v : World W) : Prop :=
  match b.entered.kind with
  | .action => False
  | .sequence _ m_currentChild =>
    CalledWhile act .success (b.m_children.drop m_currentChild) w d v
  | .selector _ | .activeSelector _ => CalledWhile act .failure b.m_children w d v
  | .parallel _ m_successPolicy m_failurePolicy =>
    CalledParallel act m_successPolicy m_failurePolicy b.m_children w d v
  | .inverter => b.m_children = [d] ∧ w = v
  | .repeats m_conunter m_limit =>
    ∃ c, b.m_children = [c] ∧ CalledRepeat act m_limit m_conunter c w d v

/-- The tick of `b` comes to the tick of the node `c`, at any depth. -/
inductive ComesTo (act : String → W → EStatus × W) :
    Behavior → World W → Behavior → World W → Prop where
  | here {b : Behavior} {w : World W} : ComesTo act b w b w
  | down {b c d : Behavior} {w u v : World W} (hcalls : Calls act b w c u)
      (hrest : ComesTo act c u d v) : ComesTo act b w d v

/-- So many ticks, one after the other, return and are neither running nor a failure. -/
inductive Succeeds (act : String → W → EStatus × W) : Nat → Behavior → World W → Prop where
  | zero {c : Behavior} {w : World W} : Succeeds act 0 c w
  | succ {k : Nat} {c c' : Behavior} {w u : World W} (htick : Ticks act c w c' u)
      (hrunning : c'.m_status ≠ .running) (hfailure : c'.m_status ≠ .failure)
      (hrest : Succeeds act k c' u) : Succeeds act (k + 1) c w

/-- A `Repeat` without limit whose child goes on succeeding. -/
def EndlessRepeat (act : String → W → EStatus × W) (b : Behavior) (w : World W) : Prop :=
  ∃ m_conunter m_limit c, b.entered.kind = .repeats m_conunter m_limit ∧ m_limit < 0 ∧
    b.m_children = [c] ∧ ∀ k, Succeeds act k c w

variable {act : String → W → EStatus × W} {fuel fuel' : Nat} {b c d : Behavior}
  {cs : List Behavior} {w u v : World W}

theorem returns_of_calledWhile {go : EStatus} {r : EStatus × List Behavior × Nat × World W}
    (hcalled : CalledWhile act go cs w d v) (h : tickWhile (tick act fuel) go cs w = some r) :
    Returns act d v := by
  obtain ⟨s, cs', k, w'⟩ := r
  induction hcalled generalizing cs' k with
  | here =>
    obtain ⟨c', u, hc, -⟩ := tickWhile_cons h
    exact ⟨c', u, fuel, hc⟩
  | later htick hgo hrest ih =>
    obtain ⟨c'', u', hc, hrest'⟩ := tickWhile_cons h
    obtain ⟨rfl, rfl⟩ := Ticks.unique htick ⟨fuel, hc⟩
    obtain ⟨hnot, -⟩ | ⟨rest, k', -, hrest', -⟩ := hrest'
    · exact absurd hgo hnot
    · exact ih _ _ hrest'

theorem returns_of_calledParallel {m_successPolicy m_failurePolicy : Policy}
    {successCount failureCount successCount' failureCount' : Nat} {early : Option EStatus}
    {cs' : List Behavior} {w' : World W}
    (hcalled : CalledParallel act m_successPolicy m_failurePolicy cs w d v)
    (h : parallelLoop (tick act fuel) m_successPolicy m_failurePolicy cs successCount failureCount
      w = some (early, cs', successCount', failureCount', w')) : Returns act d v := by
  induction hcalled generalizing cs' successCount failureCount with
  | here hnot =>
    obtain ⟨c', u, hc, -⟩ := parallelLoop_turn h
    rw [tickUnterminated, hnot] at hc
    exact ⟨c', u, fuel, hc⟩
  | passed hterminated hstops hrest ih =>
    obtain ⟨c', u, hc, hrest'⟩ := parallelLoop_turn h
    rw [tickUnterminated, if_pos hterminated] at hc
    cases hc
    obtain ⟨hstops', -⟩ | ⟨-, rest, -, hrest'⟩ := hrest'
    · cases hstops.symm.trans hstops'
    · exact ih hrest'
  | later hnot htick hstops hrest ih =>
    obtain ⟨c'', u', hc, hrest'⟩ := parallelLoop_turn h
    rw [tickUnterminated, hnot] at hc
    obtain ⟨rfl, rfl⟩ := Ticks.unique htick ⟨fuel, hc⟩
    obtain ⟨hstops', -⟩ | ⟨-, rest, -, hrest'⟩ := hrest'
    · cases hstops.symm.trans hstops'
    · exact ih hrest'

theorem returns_of_calledRepeat {m_limit m_conunter m_conunter' : Int} {s : EStatus}
    {c' : Behavior} {w' : World W} {k : Nat}
    (hcalled : CalledRepeat act m_limit m_conunter c w d v)
    (h : repeatLoop (tick act fuel) m_limit k m_conunter c w = some (s, m_conunter', c', w')) :
    Returns act d v := by
  induction k generalizing m_conunter c w with
  | zero => cases h
  | succ k ih =>
    have hcase := repeatLoop_succ h
    cases hcalled with
    | here hmore =>
      obtain ⟨hdone, -⟩ | ⟨-, c'', u, hc, -⟩ := hcase
      · exact absurd hmore hdone
      · exact ⟨c'', u, fuel, hc⟩
    | later hmore htick hrunning hfailure hrest =>
      obtain ⟨hdone, -⟩ | ⟨-, c'', u, hc, hrest'⟩ := hcase
      · exact absurd hmore hdone
      · obtain ⟨rfl, rfl⟩ := Ticks.unique htick ⟨fuel, hc⟩
        obtain ⟨rfl | rfl, hstatus, -⟩ | ⟨-, -, hrest'⟩ := hrest'
        · exact absurd hstatus hrunning
        · exact absurd hstatus hfailure
        · exact ih hrest hrest'

/-- A tick returns only if every tick that it calls does. -/
theorem Returns.of_calls (hb : Returns act b w) (hcalls : Calls act b w d v) :
    Returns act d v := by
  obtain ⟨b', w', fuel, h⟩ := hb
  cases fuel with
  | zero => cases h
  | succ fuel =>
    obtain ⟨n, cs, u, hupdate, -⟩ := tickNode_update h
    generalize b'.m_status = s at hupdate
    unfold Calls at hcalls
    cases update_of_onUpdate hupdate with
    | action hkind =>
      rw [hkind] at hcalls
      exact hcalls.elim
    | sequence hkind hloop =>
      rw [hkind] at hcalls
      exact returns_of_calledWhile hcalls hloop
    | selector hkind hloop =>
      rw [hkind] at hcalls
      exact returns_of_calledWhile hcalls hloop
    | activeSelector hkind hloop =>
      rw [hkind] at hcalls
      exact returns_of_calledWhile hcalls hloop
    | parallel hkind hloop =>
      rw [hkind] at hcalls
      exact returns_of_calledParallel hcalls hloop
    | inverter hkind hcs hc =>
      rw [hkind] at hcalls
      obtain ⟨hchild, rfl⟩ := hcalls
      obtain rfl := List.singleton_inj.mp (hcs.symm.trans hchild)
      exact ⟨_, _, fuel, hc⟩
    | repeats hkind hcs hloop =>
      rw [hkind] at hcalls
      obtain ⟨c, hchild, hcalled⟩ := hcalls
      obtain rfl := List.singleton_inj.mp (hcs.symm.trans hchild)
      exact returns_of_calledRepeat hcalled hloop

theorem Returns.of_comesTo (hb : Returns act b w) (h : ComesTo act b w c v) :
    Returns act c v := by
  induction h with
  | here => exact hb
  | down hcalls hrest ih => exact ih (hb.of_calls hcalls)

/-- With a child that goes on succeeding the loop uses up whatever fuel it is given. -/
theorem repeatLoop_endless {m_limit m_conunter : Int} {k : Nat} (hlimit : m_limit < 0)
    (hc : ∀ k, Succeeds act k c w) :
    repeatLoop (tick act fuel) m_limit k m_conunter c w = none := by
  induction k generalizing m_conunter c w with
  | zero => rfl
  | succ k ih =>
    by_contra hnone
    obtain ⟨⟨s, m_conunter', c', w'⟩, h⟩ := Option.ne_none_iff_exists'.mp hnone
    obtain ⟨hdone, -⟩ | ⟨-, c'', u, htick, hrest⟩ := repeatLoop_succ h
    · exact hdone (.inl hlimit)
    · have hnext : ∀ j, c''.m_status ≠ .running ∧ c''.m_status ≠ .failure ∧
          Succeeds act j c'' u := by
        intro j
        cases hc (j + 1) with
        | succ htick' hrunning hfailure hrest =>
          obtain ⟨rfl, rfl⟩ := Ticks.unique ⟨fuel, htick⟩ htick'
          exact ⟨hrunning, hfailure, hrest⟩
      obtain ⟨rfl | rfl, hstatus, -⟩ | ⟨-, -, hrest⟩ := hrest
      · exact (hnext 0).1 hstatus
      · exact (hnext 0).2.1 hstatus
      · rw [ih fun j => (hnext j).2.2] at hrest
        cases hrest

theorem EndlessRepeat.not_returns (h : EndlessRepeat act b w) : ¬ Returns act b w := by
  rintro ⟨b', w', fuel, htick⟩
  obtain ⟨m_conunter, m_limit, c, hkind, hlimit, hchild, hc⟩ := h
  cases fuel with
  | zero => cases htick
  | succ fuel =>
    obtain ⟨n, cs, u, hupdate, -⟩ := tickNode_update htick
    simp only [onUpdate, hkind, hchild] at hupdate
    rw [repeatLoop_endless hlimit hc] at hupdate
    cases hupdate

theorem exists_tickWhile {go : EStatus}
    (h : ∀ d v, CalledWhile act go cs w d v → Returns act d v) :
    ∃ fuel s cs' k w', tickWhile (tick act fuel) go cs w = some (s, cs', k, w') := by
  induction cs generalizing w with
  | nil => exact ⟨0, _, _, _, _, rfl⟩
  | cons c cs ih =>
    obtain ⟨c', u, fuel₁, hc⟩ := h c w .here
    by_cases hgo : c'.m_status = go
    · obtain ⟨fuel₂, s, rest, k, w', hrest⟩ :=
        ih fun d v hd => h d v (.later ⟨fuel₁, hc⟩ hgo hd)
      have hc' := tick_mono (Nat.le_max_left fuel₁ fuel₂) hc
      obtain ⟨v, hrest', -⟩ :=
        (refines_tick indistinct_eq (Nat.le_max_right fuel₁ fuel₂)).tickWhile rfl hrest
      exact ⟨max fuel₁ fuel₂, s, c' :: rest, k + 1, v, by simp [tickWhile, hc', hgo, hrest']⟩
    · exact ⟨fuel₁, c'.m_status, c' :: cs, 0, u, by simp [tickWhile, hc, hgo]⟩

theorem exists_parallelLoop {m_successPolicy m_failurePolicy : Policy}
    {successCount failureCount : Nat}
    (h : ∀ d v, CalledParallel act m_successPolicy m_failurePolicy cs w d v → Returns act d v) :
    ∃ fuel r, parallelLoop (tick act fuel) m_successPolicy m_failurePolicy cs successCount
      failureCount w = some r := by
  induction cs generalizing w successCount failureCount with
  | nil => exact ⟨0, _, rfl⟩
  | cons c cs ih =>
    obtain ⟨fuel₁, c', u, hc⟩ :
        ∃ fuel c' u, tickUnterminated (tick act fuel) c w = some (c', u) := by
      cases hterminated : c.isTerminated with
      | true => exact ⟨0, c, w, if_pos hterminated⟩
      | false =>
        obtain ⟨c', u, fuel, hc⟩ := h c w (.here hterminated)
        exact ⟨fuel, c', u, by rw [tickUnterminated, hterminated]; exact hc⟩
    have hcalled : ∀ d v, Parallel.stops m_successPolicy m_failurePolicy c'.m_status = false →
        CalledParallel act m_successPolicy m_failurePolicy cs u d v → Returns act d v := by
      intro d v hstops hd
      cases hterminated : c.isTerminated with
      | true =>
        rw [tickUnterminated, if_pos hterminated] at hc
        cases hc
        exact h d v (.passed hterminated hstops hd)
      | false =>
        rw [tickUnterminated, hterminated] at hc
        exact h d v (.later hterminated ⟨fuel₁, hc⟩ hstops hd)
    cases hstops : Parallel.stops m_successPolicy m_failurePolicy c'.m_status with
    | true => exact ⟨fuel₁, _, (parallelLoop_eq hc).trans (if_pos hstops)⟩
    | false =>
      obtain ⟨fuel₂, ⟨early, rest, sc, fc, w'⟩, hrest⟩ : ∃ fuel r, parallelLoop (tick act fuel)
          m_successPolicy m_failurePolicy cs
          (if c'.isSuccess then successCount + 1 else successCount)
          (if c'.isFailure then failureCount + 1 else failureCount) u = some r :=
        ih fun d v hd => hcalled d v hstops hd
      obtain ⟨_, hc', rfl⟩ := (refines_tick indistinct_eq
        (Nat.le_max_left fuel₁ fuel₂)).tickUnterminated _ _ _ _ _ rfl hc
      obtain ⟨v, hrest', -⟩ :=
        (refines_tick indistinct_eq (Nat.le_max_right fuel₁ fuel₂)).parallelLoop rfl hrest
      refine ⟨max fuel₁ fuel₂, (early, c' :: rest, sc, fc, v), (parallelLoop_eq hc').trans ?_⟩
      rw [if_neg (Bool.eq_false_iff.mp hstops)]
      exact Option.map_eq_some_iff.mpr ⟨_, hrest', rfl⟩

/-- So many more rounds at most, as the limit tells, or because the child does not succeed so
often. -/
theorem exists_repeatLoop {m_limit m_conunter : Int} {k : Nat}
    (h : ∀ d v, CalledRepeat act m_limit m_conunter c w d v → Returns act d v)
    (hk : (0 ≤ m_limit ∧ m_limit ≤ m_conunter + k) ∨ (m_limit < 0 ∧ ¬ Succeeds act k c w)) :
    ∃ fuel r, repeatLoop (tick act fuel) m_limit fuel m_conunter c w = some r := by
  induction k generalizing m_conunter c w with
  | zero =>
    obtain ⟨hlimit, hle⟩ | ⟨-, hnot⟩ := hk
    · exact ⟨1, _, if_neg (by omega)⟩
    · exact absurd .zero hnot
  | succ k ih =>
    by_cases hmore : m_limit < 0 ∨ m_conunter < m_limit
    · obtain ⟨c', u, fuel₁, hc⟩ := h c w (.here hmore)
      by_cases hrunning : c'.m_status = .running
      · refine ⟨fuel₁ + 1, (.running, m_conunter, c', u), ?_⟩
        simp [repeatLoop, hmore, tick_mono (Nat.le_succ fuel₁) hc, hrunning]
      by_cases hfailure : c'.m_status = .failure
      · refine ⟨fuel₁ + 1, (.failure, m_conunter, c', u), ?_⟩
        simp [repeatLoop, hmore, tick_mono (Nat.le_succ fuel₁) hc, hfailure]
      have hcalled : ∀ d v, CalledRepeat act m_limit (m_conunter + 1) c' u d v →
          Returns act d v :=
        fun d v hd => h d v (.later hmore ⟨fuel₁, hc⟩ hrunning hfailure hd)
      have hk' : (0 ≤ m_limit ∧ m_limit ≤ m_conunter + 1 + k) ∨
          (m_limit < 0 ∧ ¬ Succeeds act k c' u) := by
        obtain ⟨hlimit, hle⟩ | ⟨hlimit, hnot⟩ := hk
        · exact .inl ⟨hlimit, by push_cast at hle; omega⟩
        · exact .inr ⟨hlimit, fun hs => hnot (.succ ⟨fuel₁, hc⟩ hrunning hfailure hs)⟩
      obtain ⟨fuel₂, ⟨s, n, d, w'⟩, hrest⟩ := ih hcalled hk'
      have hle : fuel₂ ≤ max fuel₁ fuel₂ := Nat.le_max_right ..
      have hc' := tick_mono (Nat.le_succ_of_le (Nat.le_max_left fuel₁ fuel₂)) hc
      obtain ⟨v, hrest', -⟩ := (refines_tick indistinct_eq (Nat.le_succ_of_le hle)).repeatLoop
        hle rfl hrest
      refine ⟨max fuel₁ fuel₂ + 1, (s, n, d, v), ?_⟩
      simp [repeatLoop, hmore, hc', hrunning, hfailure, hrest']
    · exact ⟨1, _, if_neg hmore⟩

/-! ## The nodes of which the ticks return -/

variable {limits : Int → Prop} {height : Nat}

theorem Built.of_calledRepeat {m_limit m_conunter : Int}
    (h : CalledRepeat act m_limit m_conunter c w d v) (hc : Built limits height c) :
    Built limits height d := by
  induction h with
  | here => exact hc
  | later _ htick _ _ _ ih =>
    obtain ⟨fuel, htick⟩ := htick
    exact ih (hc.of_tick htick)

theorem mem_of_calledWhile {go : EStatus} (h : CalledWhile act go cs w d v) : d ∈ cs := by
  induction h with
  | here => exact List.mem_cons_self
  | later _ _ _ ih => exact List.mem_cons_of_mem _ ih

theorem mem_of_calledParallel {m_successPolicy m_failurePolicy : Policy}
    (h : CalledParallel act m_successPolicy m_failurePolicy cs w d v) : d ∈ cs := by
  induction h with
  | here => exact List.mem_cons_self
  | passed _ _ _ ih => exact List.mem_cons_of_mem _ ih
  | later _ _ _ _ ih => exact List.mem_cons_of_mem _ ih

theorem Built.of_calls (hb : Built limits (height + 1) b) (h : Calls act b w d v) :
    Built limits height d := by
  obtain ⟨-, -, hcs⟩ := hb
  unfold Calls at h
  split at h
  · exact h.elim
  · exact hcs d (List.mem_of_mem_drop (mem_of_calledWhile h))
  · exact hcs d (mem_of_calledWhile h)
  · exact hcs d (mem_of_calledWhile h)
  · exact hcs d (mem_of_calledParallel h)
  · exact hcs d (by simp [h.1])
  · obtain ⟨c, hchild, hcalled⟩ := h
    exact Built.of_calledRepeat hcalled (hcs c (by simp [hchild]))

theorem Built.of_comesTo (h : ComesTo act b w c v) (hb : Built limits height b) :
    ∃ height, Built limits height c := by
  induction h generalizing height with
  | here => exact ⟨height, hb⟩
  | down hcalls hrest ih =>
    cases height with
    | zero => exact hb.elim
    | succ height => exact ih (hb.of_calls hcalls)

/-- If the ticks that the update calls return, and it is not that of an endless `Repeat`, the
update itself returns. -/
theorem Built.exists_onUpdate (hb : Built limits (height + 1) b)
    (hcalls : ∀ d v, Calls act b w d v → Returns act d v) (hend : ¬ EndlessRepeat act b w) :
    ∃ fuel, (onUpdate act (tick act fuel) fuel b.entered b.m_children w).isSome = true := by
  have hchild : b.entered.kind.getType = .decorator → ∃ c, b.m_children = [c] := by
    intro hdecorator
    refine List.length_eq_one_iff.mp (hb.1 ?_)
    rw [← entered_kind]
    generalize b.entered.kind = kind at hdecorator
    cases kind <;> first | rfl | cases hdecorator
  unfold Calls at hcalls
  unfold EndlessRepeat at hend
  cases hkind : b.entered.kind with
  | action => exact ⟨0, by simp [onUpdate, hkind]⟩
  | sequence isFilter m =>
    simp only [hkind] at hcalls
    obtain ⟨fuel, s, cs', k, w', hloop⟩ := exists_tickWhile hcalls
    exact ⟨fuel, by simp [onUpdate, hkind, hloop]⟩
  | selector m =>
    simp only [hkind] at hcalls
    obtain ⟨fuel, s, cs', k, w', hloop⟩ := exists_tickWhile hcalls
    exact ⟨fuel, by simp [onUpdate, hkind, hloop]⟩
  | activeSelector m =>
    simp only [hkind] at hcalls
    obtain ⟨fuel, s, cs', k, w', hloop⟩ := exists_tickWhile hcalls
    exact ⟨fuel, by simp [onUpdate, hkind, hloop]⟩
  | parallel isMonitor sp fp =>
    simp only [hkind] at hcalls
    obtain ⟨fuel, ⟨early, cs', sc, fc, w'⟩, hloop⟩ : ∃ fuel r,
        parallelLoop (tick act fuel) sp fp b.m_children 0 0 w = some r :=
      exists_parallelLoop hcalls
    exact ⟨fuel, by simp [onUpdate, hkind, hloop]⟩
  | inverter =>
    obtain ⟨c, hc⟩ := hchild (by rw [hkind]; rfl)
    simp only [hkind] at hcalls
    obtain ⟨c', u, fuel, htick⟩ := hcalls c w ⟨hc, rfl⟩
    exact ⟨fuel, by simp [onUpdate, hkind, hc, htick]⟩
  | repeats m_conunter m_limit =>
    obtain ⟨c, hc⟩ := hchild (by rw [hkind]; rfl)
    simp only [hkind] at hcalls
    obtain ⟨k, hk⟩ : ∃ k : Nat, (0 ≤ m_limit ∧ m_limit ≤ m_conunter + k) ∨
        (m_limit < 0 ∧ ¬ Succeeds act k c w) := by
      by_cases hlimit : m_limit < 0
      · have hnot : ¬ ∀ k, Succeeds act k c w := fun h => hend ⟨_, _, c, hkind, hlimit, hc, h⟩
        obtain ⟨k, hk⟩ := not_forall.mp hnot
        exact ⟨k, .inr ⟨hlimit, hk⟩⟩
      · exact ⟨(m_limit - m_conunter).toNat, .inl ⟨by omega, by omega⟩⟩
    obtain ⟨fuel, ⟨s, n, c', w'⟩, hloop⟩ :=
      exists_repeatLoop (fun d v hd => hcalls d v ⟨c, hc, hd⟩) hk
    exact ⟨fuel, by simp [onUpdate, hkind, hc, hloop]⟩

theorem Built.returns (hb : Built limits height b)
    (h : ∀ c v, ComesTo act b w c v → ¬ EndlessRepeat act c v) : Returns act b w := by
  induction height generalizing b w with
  | zero => exact hb.elim
  | succ height ih =>
    have hcalls : ∀ d v, Calls act b w d v → Returns act d v := fun d v hd =>
      ih (hb.of_calls hd) fun c u hc => h c u (.down hd hc)
    obtain ⟨fuel, hsome⟩ := hb.exists_onUpdate hcalls (h b w .here)
    obtain ⟨b', w', htick⟩ := exists_tickNode hsome
    exact ⟨b', w', fuel + 1, htick⟩

theorem Built.returns_iff (hb : Built limits height b) :
    Returns act b w ↔ ¬ ∃ c v, ComesTo act b w c v ∧ EndlessRepeat act c v := by
  constructor
  · rintro hreturns ⟨c, v, hc, hend⟩
    exact hend.not_returns (hreturns.of_comesTo hc)
  · exact fun h => hb.returns fun c v hc hend => h ⟨c, v, hc, hend⟩

end

/-! ## Every tree that is built -/

namespace Behavior

/-- Every decorator has been given its child. -/
def Decorated (b : Behavior) : Prop :=
  b.Everywhere fun n cs => n.kind.getType = .decorator → cs.length = 1

instance (b : Behavior) : Decidable b.Decorated :=
  inferInstanceAs (Decidable (∀ c ∈ b.nodes, c.self.kind.getType = .decorator →
    c.m_children.length = 1))

/-- No `Repeat` is without limit. -/
def Limited (b : Behavior) : Prop :=
  b.Everywhere fun n _ => ∀ m_conunter m_limit, n.kind = .repeats m_conunter m_limit → 0 ≤ m_limit

end Behavior

theorem Built.mono {limits : Int → Prop} {height height' : Nat} {b : Behavior}
    (hle : height ≤ height') (hb : Built limits height b) : Built limits height' b := by
  induction height generalizing b height' with
  | zero => exact hb.elim
  | succ height ih =>
    obtain ⟨height', rfl⟩ := Nat.exists_eq_add_of_le' hle
    obtain ⟨hchild, hlimit, hcs⟩ := hb
    exact ⟨hchild, hlimit, fun c hc => ih (Nat.le_add_left ..) (hcs c hc)⟩

section

variable {limits : Int → Prop}

open Behavior

mutual

theorem exists_built : (b : Behavior) → b.Decorated →
    b.Everywhere (fun n _ => ∀ m_conunter m_limit, n.kind = .repeats m_conunter m_limit →
      limits m_limit) → ∃ height, Built limits height b
  | .mk n cs, hchild, hlimit => by
    obtain ⟨hself, hbelow⟩ := everywhere_iff.mp hchild
    obtain ⟨hself', hbelow'⟩ := everywhere_iff.mp hlimit
    obtain ⟨height, hcs⟩ := exists_builtAll cs hbelow hbelow'
    refine ⟨height + 1, fun hdecorator => hself ?_, fun m_limit hkind => ?_, hcs⟩
    · change n.kind.onInitialize.getType = _ at hdecorator
      change n.kind.getType = _
      cases hkind : n.kind <;> rw [hkind] at hdecorator <;> first | rfl | cases hdecorator
    · change n.kind.onInitialize = _ at hkind
      cases hkind' : n.kind <;> rw [hkind'] at hkind <;> cases hkind
      exact hself' _ _ hkind'

theorem exists_builtAll : (cs : List Behavior) → (∀ c ∈ cs, c.Decorated) →
    (∀ c ∈ cs, c.Everywhere (fun n _ => ∀ m_conunter m_limit,
      n.kind = .repeats m_conunter m_limit → limits m_limit)) →
      ∃ height, ∀ c ∈ cs, Built limits height c
  | [], _, _ => ⟨0, nofun⟩
  | c :: cs, hchild, hlimit => by
    obtain ⟨hc, hcs⟩ := List.forall_mem_cons.mp hchild
    obtain ⟨hc', hcs'⟩ := List.forall_mem_cons.mp hlimit
    obtain ⟨height₁, h₁⟩ := exists_built c hc hc'
    obtain ⟨height₂, h₂⟩ := exists_builtAll cs hcs hcs'
    refine ⟨max height₁ height₂, List.forall_mem_cons.mpr ⟨?_, fun d hd => ?_⟩⟩
    · exact h₁.mono (Nat.le_max_left ..)
    · exact (h₂ d hd).mono (Nat.le_max_right ..)

end

end

/-- With a limit at every `Repeat` a tick returns. -/
theorem Built.returns_of_limited {W : Type} {act : String → W → EStatus × W} {height : Nat}
    {b : Behavior} {w : World W} (hb : Built (0 ≤ ·) height b) : Returns act b w := by
  refine hb.returns fun c v hc hend => ?_
  obtain ⟨height', hc⟩ := hb.of_comesTo hc
  obtain ⟨m_conunter, m_limit, d, hkind, hlimit, -, -⟩ := hend
  cases height' with
  | zero => exact hc
  | succ height' =>
    have hnot : 0 ≤ m_limit := hc.2.1 m_limit (by rw [← entered_kind, hkind]; rfl)
    omega

theorem Built.of_run {W : Type} {act : String → W → EStatus × W} {limits : Int → Prop}
    {height : Nat} {s t : BehaviorTree W} {es : List (Event W)}
    (h : run (step act) s es = some t) (hs : Built limits height s.m_root) :
    Built limits height t.m_root := by
  refine run_preserves (I := fun s => Built limits height s.m_root) ?_ h hs
  intro s e t hst hs
  cases e with
  | tick fuel =>
    obtain ⟨⟨b', w'⟩, htick, rfl⟩ := Option.map_eq_some_iff.mp hst
    exact hs.of_tick htick
  | passes env =>
    cases hst
    exact hs

/-- A tree in which every decorator has its child returns from a tick, wherever it has come to in
its run, unless the tick comes to a `Repeat` without limit whose child goes on succeeding. If all
limits are there, it always returns. -/
theorem tick_returns_iff {W : Type} (act : String → W → EStatus × W) (b : Behavior)
    (hb : b.Decorated) (env : W) (es : List (Event W)) (t : BehaviorTree W)
    (h : run (step act) ⟨b, { env := env }⟩ es = some t) :
    (Returns act t.m_root t.world ↔
      ¬ ∃ c v, ComesTo act t.m_root t.world c v ∧ EndlessRepeat act c v) ∧
    (b.Limited → Returns act t.m_root t.world) := by
  obtain ⟨height, hbuilt⟩ : ∃ height, Built (fun _ => True) height b :=
    exists_built b hb fun _ _ _ _ _ => trivial
  refine ⟨(Built.of_run h hbuilt).returns_iff, fun hlimited => ?_⟩
  obtain ⟨height', hbuilt'⟩ := exists_built b hb hlimited
  exact (Built.of_run h hbuilt').returns_of_limited

/-- The knocking is repeated without limit until it goes on running. -/
theorem tick_returns_iff_knock : ∃ t, run (step Watched.scripted)
      ⟨(Tree.decorator (.repeats (-1)) "again" (.action "knock")).toBehavior,
        { env := [.success, .running, .success] }⟩ [.tick 3] = some t ∧
    (Returns Watched.scripted t.m_root t.world ↔ ¬ ∃ c v,
      ComesTo Watched.scripted t.m_root t.world c v ∧ EndlessRepeat Watched.scripted c v) ∧
    ((Tree.decorator (.repeats (-1)) "again" (.action "knock")).toBehavior.Limited →
      Returns Watched.scripted t.m_root t.world) := by
  have h : run (step Watched.scripted)
    ⟨(Tree.decorator (.repeats (-1)) "again" (.action "knock")).toBehavior,
      { env := [.success, .running, .success] }⟩ [.tick 3] = some _ := rfl
  exact ⟨_, h, tick_returns_iff _ _ (by decide) _ _ _ h⟩

/-- An action that succeeds at once, repeated without limit. -/
theorem busy_never_returns :
    (Tree.decorator (.repeats (-1)) "again" (.action "busy")).toBehavior.Decorated ∧
    ∀ fuel, tick (fun _ (env : Unit) => (.success, env)) fuel
      (Tree.decorator (.repeats (-1)) "again" (.action "busy")).toBehavior { env := () } =
        none := by
  refine ⟨by decide, fun fuel => ?_⟩
  have hsucceeds : ∀ (k : Nat) (n : Node) (w : World Unit), n.kind = .action →
      Succeeds (fun _ (env : Unit) => (.success, env)) k (.mk n []) w := by
    intro k
    induction k with
    | zero => exact fun _ _ _ => .zero
    | succ k ih =>
      intro n w hkind
      obtain ⟨n', w', htick, hkind', hstatus⟩ : ∃ n' w',
          tick (fun _ env => (.success, env)) 1 (.mk n []) w = some (.mk n' [], w') ∧
            n'.kind = .action ∧ n'.m_status = .success := by
        cases hrunning : (Behavior.mk n []).isRunning <;>
          simp [tick, hrunning, onUpdate, hkind, Node.onInitialize, Kind.onInitialize,
            Behavior.onTerminate, Kind.isParallel]
      refine .succ ⟨1, htick⟩ ?_ ?_ (ih n' w' hkind')
      · simp [hstatus]
      · simp [hstatus]
  by_contra hnone
  obtain ⟨⟨b', w'⟩, htick⟩ := Option.ne_none_iff_exists'.mp hnone
  exact EndlessRepeat.not_returns ⟨0, -1, _, rfl, by decide, rfl, fun k => hsucceeds k _ _ rfl⟩
    ⟨b', w', fuel, htick⟩

end NBRaft.BehaviorTree
