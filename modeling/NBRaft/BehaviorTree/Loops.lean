import NBRaft.BehaviorTree.Behavior

/-!
# What the loops over the children keep

The updates tick children through a function `f`. What `f` keeps of one child, the loops keep of
all of them, in ticks that do not come across certain things.
-/

namespace NBRaft.BehaviorTree

@[simp] theorem World.env_noteIf {W : Type} (b : Bool) (note : Note) (w : World W) :
    (w.noteIf b note).env = w.env := by
  unfold World.noteIf
  split <;> rfl

/-- Nothing of this has been come across. -/
def World.Clean {W : Type} (bad : List Note) (w : World W) : Prop := ∀ note ∈ bad, note ∉ w.notes

section

variable {W : Type} {bad : List Note} {w w' : World W} {b : Bool} {note : Note}

theorem World.Clean.of_noteIf (h : (w.noteIf b note).Clean bad) : w.Clean bad := by
  intro bad hbad hmem
  refine h bad hbad ?_
  unfold World.noteIf
  split
  · exact List.mem_append_left _ hmem
  · exact hmem

theorem World.Clean.noteIf (h : w.Clean bad) (hnote : note ∉ bad) :
    (w.noteIf b note).Clean bad := by
  intro note' hbad hmem
  unfold World.noteIf at hmem
  split at hmem
  · rcases List.mem_append.mp hmem with hmem | hmem
    · exact h note' hbad hmem
    · obtain rfl := List.mem_singleton.mp hmem
      exact hnote hbad
  · exact h note' hbad hmem

/-- What is not to be come across is not noted. -/
theorem World.Clean.eq_false (h : (w.noteIf b note).Clean bad) (hnote : note ∈ bad) :
    b = false := by
  cases b with
  | false => rfl
  | true => exact absurd (List.mem_append_right _ (List.mem_singleton.mpr rfl)) (h note hnote)

end

/-- A tick with these notes left out keeps `I`, and leaves the child with `Q`. -/
structure Keeps {W : Type} (bad : List Note) (I Q : Behavior → Prop) (f : Tick W) : Prop where
  clean : ∀ {c w c' w'}, f c w = some (c', w') → w'.Clean bad → w.Clean bad
  keeps : ∀ {c w c' w'}, f c w = some (c', w') → w'.Clean bad → I c → I c' ∧ Q c'

theorem World.clean_nil {W : Type} (w : World W) : w.Clean [] := nofun

/-- Nothing is asked of the ticks. -/
theorem Keeps.nothing {W : Type} (f : Tick W) : Keeps [] (fun _ => True) (fun _ => True) f :=
  ⟨fun _ _ => World.clean_nil _, fun _ _ _ => ⟨trivial, trivial⟩⟩

section

variable {W : Type} {bad : List Note} {I Q : Behavior → Prop} {f : Tick W} {w w' : World W}
  {cs cs' : List Behavior}

section

variable {go s : EStatus} {k : Nat}

theorem tickWhile_cons {c : Behavior} (h : tickWhile f go (c :: cs) w = some (s, cs', k, w')) :
    ∃ c' u, f c w = some (c', u) ∧
      ((c'.m_status ≠ go ∧ s = c'.m_status ∧ cs' = c' :: cs ∧ k = 0 ∧ w' = u) ∨
        ∃ cs'' k', c'.m_status = go ∧ tickWhile f go cs u = some (s, cs'', k', w') ∧
          cs' = c' :: cs'' ∧ k = k' + 1) := by
  simp only [tickWhile, Option.bind_eq_bind, Option.bind_eq_some_iff] at h
  obtain ⟨⟨c', u⟩, hf, h⟩ := h
  refine ⟨c', u, hf, ?_⟩
  split_ifs at h with hgo
  · cases h
    exact .inl ⟨hgo, rfl, rfl, rfl, rfl⟩
  · obtain ⟨⟨s', cs'', k', w''⟩, hrest, h⟩ := Option.bind_eq_some_iff.mp h
    cases h
    exact .inr ⟨cs'', k', not_not.mp hgo, hrest, rfl, rfl⟩

theorem Keeps.clean_tickWhile (hf : Keeps bad I Q f)
    (h : tickWhile f go cs w = some (s, cs', k, w')) (hw : w'.Clean bad) : w.Clean bad := by
  induction cs generalizing cs' k w with
  | nil =>
    cases h
    exact hw
  | cons c cs ih =>
    obtain ⟨c', u, hc, ⟨-, -, -, -, rfl⟩ | ⟨cs'', k', -, hrest, -, -⟩⟩ := tickWhile_cons h
    · exact hf.clean hc hw
    · exact hf.clean hc (ih hrest)

/-- The children that have come to `go`, the one that has not, and those not ticked. -/
theorem Keeps.tickWhile (hf : Keeps bad I Q f)
    (h : tickWhile f go cs w = some (s, cs', k, w')) (hw : w'.Clean bad) (hI : ∀ c ∈ cs, I c) :
    (∀ c ∈ cs', I c) ∧ ∃ done rest, cs' = done ++ rest ∧ done.length = k ∧
      (∀ c ∈ done, c.m_status = go) ∧
      ((rest = [] ∧ s = go) ∨
        ∃ c, rest = c :: cs.drop (k + 1) ∧ Q c ∧ c.m_status = s ∧ s ≠ go) := by
  induction cs generalizing cs' k w with
  | nil =>
    cases h
    exact ⟨hI, [], [], rfl, rfl, nofun, .inl ⟨rfl, rfl⟩⟩
  | cons c cs ih =>
    obtain ⟨hIc, hIcs⟩ := List.forall_mem_cons.mp hI
    obtain ⟨c', u, hc, ⟨hgo, rfl, rfl, rfl, rfl⟩ | ⟨cs'', k', hgo, hrest, rfl, rfl⟩⟩ :=
      tickWhile_cons h
    · obtain ⟨hI', hQ'⟩ := hf.keeps hc hw hIc
      refine ⟨List.forall_mem_cons.mpr ⟨hI', hIcs⟩, [], _, rfl, rfl, nofun, ?_⟩
      exact .inr ⟨c', rfl, hQ', rfl, hgo⟩
    · obtain ⟨hI', -⟩ := hf.keeps hc (hf.clean_tickWhile hrest hw) hIc
      obtain ⟨hall, done, rest, rfl, rfl, hdone, hend⟩ := ih hrest hIcs
      refine ⟨List.forall_mem_cons.mpr ⟨hI', hall⟩, c' :: done, rest, rfl, rfl, ?_, hend⟩
      exact List.forall_mem_cons.mpr ⟨hgo, hdone⟩

end

section

variable {m_successPolicy m_failurePolicy : Policy} {successCount failureCount : Nat}
  {successCount' failureCount' : Nat} {early : Option EStatus}

theorem parallelLoop_cons {c : Behavior}
    (h : parallelLoop f m_successPolicy m_failurePolicy (c :: cs) successCount failureCount w =
      some (early, cs', successCount', failureCount', w')) :
    ∃ c' u, tickUnterminated f c w = some (c', u) ∧
      ((cs' = c' :: cs ∧ w' = u ∧ (early = some .success ∨ early = some .failure)) ∨
        ∃ cs'' successCount'' failureCount'', cs' = c' :: cs'' ∧
          parallelLoop f m_successPolicy m_failurePolicy cs successCount'' failureCount'' u =
            some (early, cs'', successCount', failureCount', w')) := by
  simp only [parallelLoop, Option.bind_eq_bind] at h
  obtain ⟨⟨c', u⟩, hc, h⟩ := Option.bind_eq_some_iff.mp h
  refine ⟨c', u, hc, ?_⟩
  by_cases hsuccess : c'.isSuccess = true ∧ m_successPolicy = .requireOne
  · rw [if_pos hsuccess] at h
    cases h
    exact .inl ⟨rfl, rfl, .inl rfl⟩
  by_cases hfailure : c'.isFailure = true ∧ m_failurePolicy = .requireOne
  · rw [if_neg hsuccess, if_pos hfailure] at h
    cases h
    exact .inl ⟨rfl, rfl, .inr rfl⟩
  · rw [if_neg hsuccess, if_neg hfailure] at h
    obtain ⟨⟨early', cs'', sc, fc, w''⟩, hrest, h⟩ := Option.bind_eq_some_iff.mp h
    cases h
    exact .inr ⟨cs'', _, _, rfl, hrest⟩

/-- `Parallel` returns from within its loop. -/
def Parallel.stops (m_successPolicy m_failurePolicy : Policy) (s : EStatus) : Bool :=
  (s = .success ∧ m_successPolicy = .requireOne) ∨ (s = .failure ∧ m_failurePolicy = .requireOne)

/-- The loop, once its first child has had its turn. -/
theorem parallelLoop_eq {c c' : Behavior} {u : World W}
    (hc : tickUnterminated f c w = some (c', u)) :
    parallelLoop f m_successPolicy m_failurePolicy (c :: cs) successCount failureCount w =
      if Parallel.stops m_successPolicy m_failurePolicy c'.m_status then
        some (some c'.m_status, c' :: cs, if c'.isSuccess then successCount + 1 else successCount,
          if c'.isFailure then failureCount + 1 else failureCount, u)
      else
        (parallelLoop f m_successPolicy m_failurePolicy cs
          (if c'.isSuccess then successCount + 1 else successCount)
          (if c'.isFailure then failureCount + 1 else failureCount) u).map
            fun r => (r.1, c' :: r.2.1, r.2.2) := by
  simp only [parallelLoop, hc, Option.bind_eq_bind, Option.bind_some]
  by_cases hsuccess : c'.isSuccess = true ∧ m_successPolicy = .requireOne
  · have hs : c'.m_status = .success := of_decide_eq_true hsuccess.1
    simp [Parallel.stops, Behavior.isSuccess, Behavior.isFailure, hs, hsuccess.2]
  by_cases hfailure : c'.isFailure = true ∧ m_failurePolicy = .requireOne
  · have hs : c'.m_status = .failure := of_decide_eq_true hfailure.1
    simp [Parallel.stops, Behavior.isSuccess, Behavior.isFailure, hs, hfailure.2]
  · have hnot : ¬ Parallel.stops m_successPolicy m_failurePolicy c'.m_status = true := by
      simp only [Behavior.isSuccess, Behavior.isFailure, decide_eq_true_eq] at hsuccess hfailure
      simp [Parallel.stops, hsuccess, hfailure]
    rw [if_neg hsuccess, if_neg hfailure, if_neg hnot, Option.map_eq_bind]
    rfl

theorem Keeps.tickUnterminated (hf : Keeps bad I Q f) :
    Keeps bad I (fun _ => True) (BehaviorTree.tickUnterminated f) := by
  constructor
  · intro c w c' w' h hw
    unfold BehaviorTree.tickUnterminated at h
    split_ifs at h
    · cases h
      exact hw
    · exact hf.clean h hw
  · intro c w c' w' h hw hI
    unfold BehaviorTree.tickUnterminated at h
    split_ifs at h
    · cases h
      exact ⟨hI, trivial⟩
    · exact ⟨(hf.keeps h hw hI).1, trivial⟩

theorem Keeps.clean_parallelLoop (hf : Keeps bad I Q f)
    (h : parallelLoop f m_successPolicy m_failurePolicy cs successCount failureCount w =
      some (early, cs', successCount', failureCount', w')) (hw : w'.Clean bad) :
    w.Clean bad := by
  induction cs generalizing cs' successCount failureCount w with
  | nil =>
    cases h
    exact hw
  | cons c cs ih =>
    obtain ⟨c', u, hc, ⟨-, rfl, -⟩ | ⟨cs'', sc, fc, -, hrest⟩⟩ := parallelLoop_cons h
    · exact hf.tickUnterminated.clean hc hw
    · exact hf.tickUnterminated.clean hc (ih hrest)

theorem Keeps.parallelLoop (hf : Keeps bad I Q f)
    (h : parallelLoop f m_successPolicy m_failurePolicy cs successCount failureCount w =
      some (early, cs', successCount', failureCount', w')) (hw : w'.Clean bad)
    (hI : ∀ c ∈ cs, I c) :
    (∀ c ∈ cs', I c) ∧ (early = none ∨ early = some .success ∨ early = some .failure) := by
  induction cs generalizing cs' successCount failureCount w with
  | nil =>
    cases h
    exact ⟨hI, .inl rfl⟩
  | cons c cs ih =>
    obtain ⟨hIc, hIcs⟩ := List.forall_mem_cons.mp hI
    obtain ⟨c', u, hc, ⟨rfl, rfl, hearly⟩ | ⟨cs'', sc, fc, rfl, hrest⟩⟩ := parallelLoop_cons h
    · have hI' := (hf.tickUnterminated.keeps hc hw hIc).1
      exact ⟨List.forall_mem_cons.mpr ⟨hI', hIcs⟩, .inr hearly⟩
    · have hI' := (hf.tickUnterminated.keeps hc (hf.clean_parallelLoop hrest hw) hIc).1
      obtain ⟨hall, hearly⟩ := ih hrest hIcs
      exact ⟨List.forall_mem_cons.mpr ⟨hI', hall⟩, hearly⟩

end

section

variable {m_limit m_conunter m_conunter' : Int} {fuel : Nat} {s : EStatus} {c c' : Behavior}

theorem repeatLoop_succ
    (h : repeatLoop f m_limit (fuel + 1) m_conunter c w = some (s, m_conunter', c', w')) :
    (¬ (m_limit < 0 ∨ m_conunter < m_limit) ∧ s = .success ∧ m_conunter' = m_conunter ∧
        c' = c ∧ w' = w) ∨
      (m_limit < 0 ∨ m_conunter < m_limit) ∧ ∃ c'' u, f c w = some (c'', u) ∧
        (((s = .running ∨ s = .failure) ∧ c''.m_status = s ∧ m_conunter' = m_conunter ∧
            c' = c'' ∧ w' = u) ∨
          (c''.m_status ≠ .running ∧ c''.m_status ≠ .failure ∧
            repeatLoop f m_limit fuel (m_conunter + 1) c'' u = some (s, m_conunter', c', w'))) := by
  simp only [repeatLoop, Option.bind_eq_bind] at h
  by_cases hmore : m_limit < 0 ∨ m_conunter < m_limit
  · rw [if_pos hmore] at h
    obtain ⟨⟨c'', u⟩, hc, h⟩ := Option.bind_eq_some_iff.mp h
    refine .inr ⟨hmore, c'', u, hc, ?_⟩
    dsimp only at h
    split_ifs at h with hrunning hfailure
    · cases h
      exact .inl ⟨.inl rfl, hrunning, rfl, rfl, rfl⟩
    · cases h
      exact .inl ⟨.inr rfl, hfailure, rfl, rfl, rfl⟩
    · exact .inr ⟨hrunning, hfailure, h⟩
  · rw [if_neg hmore] at h
    cases h
    exact .inl ⟨hmore, rfl, rfl, rfl, rfl⟩

theorem Keeps.clean_repeatLoop (hf : Keeps bad I Q f)
    (h : repeatLoop f m_limit fuel m_conunter c w = some (s, m_conunter', c', w'))
    (hw : w'.Clean bad) : w.Clean bad := by
  induction fuel generalizing m_conunter c w with
  | zero => cases h
  | succ fuel ih =>
    obtain ⟨-, -, -, -, rfl⟩ | ⟨-, c'', u, hc, ⟨-, -, -, -, rfl⟩ | ⟨-, -, hrest⟩⟩ :=
      repeatLoop_succ h
    · exact hw
    · exact hf.clean hc hw
    · exact hf.clean hc (ih hrest)

theorem Keeps.repeatLoop (hf : Keeps bad I Q f)
    (h : repeatLoop f m_limit fuel m_conunter c w = some (s, m_conunter', c', w'))
    (hw : w'.Clean bad) (hI : I c) : I c' := by
  induction fuel generalizing m_conunter c w with
  | zero => cases h
  | succ fuel ih =>
    obtain ⟨-, -, -, rfl, -⟩ | ⟨-, c'', u, hc, ⟨-, -, -, rfl, rfl⟩ | ⟨-, -, hrest⟩⟩ :=
      repeatLoop_succ h
    · exact hI
    · exact (hf.keeps hc hw hI).1
    · exact ih hrest (hf.keeps hc (hf.clean_repeatLoop hrest hw) hI).1

theorem repeatLoop_outcome
    (h : repeatLoop f m_limit fuel m_conunter c w = some (s, m_conunter', c', w')) :
    s = .running ∨ s = .failure ∨ s = .success := by
  induction fuel generalizing m_conunter c w with
  | zero => cases h
  | succ fuel ih =>
    obtain ⟨-, rfl, -⟩ | ⟨-, c'', u, -, ⟨hs, -⟩ | ⟨-, -, hrest⟩⟩ := repeatLoop_succ h
    · exact .inr (.inr rfl)
    · exact hs.imp id .inl
    · exact ih hrest

/-- A `Repeat` is running exactly as long as its child is, and then it has not reached its
limit. -/
theorem repeatLoop_running
    (h : repeatLoop f m_limit fuel m_conunter c w = some (s, m_conunter', c', w'))
    (hc : c.m_status = .running → m_limit < 0 ∨ m_conunter < m_limit) :
    (s = .running → m_limit < 0 ∨ m_conunter' < m_limit) ∧
      (s ≠ .running → c'.m_status ≠ .running) := by
  induction fuel generalizing m_conunter c w with
  | zero => cases h
  | succ fuel ih =>
    obtain ⟨hdone, rfl, rfl, rfl, -⟩ | ⟨hmore, c'', u, -, ⟨hs, hstatus, rfl, rfl, -⟩ |
      ⟨hrunning, -, hrest⟩⟩ := repeatLoop_succ h
    · exact ⟨nofun, fun _ hr => hdone (hc hr)⟩
    · exact ⟨fun _ => hmore, fun hne hr => hne (hstatus.symm.trans hr)⟩
    · exact ih hrest fun hr => absurd hr hrunning

end

section

variable {act : String → W → EStatus × W} {fuel : Nat} {n n' : Node} {s : EStatus}

/-- What an update can do, for each class of node. -/
inductive Update (act : String → W → EStatus × W) (f : Tick W) (fuel : Nat) (n : Node)
    (cs : List Behavior) (w : World W) : EStatus → Node → List Behavior → World W → Prop where
  | action (hkind : n.kind = .action) :
      Update act f fuel n cs w (act n.m_uid w.env).1 n cs
        { w with env := (act n.m_uid w.env).2 }
  | sequence {isFilter : Bool} {m_currentChild k : Nat} {s : EStatus} {rest : List Behavior}
      {u : World W} (hkind : n.kind = .sequence isFilter m_currentChild)
      (hloop : tickWhile f .success (cs.drop m_currentChild) w = some (s, rest, k, u)) :
      Update act f fuel n cs w s { n with kind := .sequence isFilter (m_currentChild + k) }
        (cs.take m_currentChild ++ rest) u
  | selector {m_currentChild k : Nat} {s : EStatus} {cs' : List Behavior} {u : World W}
      (hkind : n.kind = .selector m_currentChild)
      (hloop : tickWhile f .failure cs w = some (s, cs', k, u)) :
      Update act f fuel n cs w s n cs' (Selector.stopsAt k s cs' u)
  | activeSelector {prev k : Nat} {s : EStatus} {rest cs' : List Behavior} {u : World W}
      (hkind : n.kind = .activeSelector prev)
      (hloop : tickWhile f .failure cs w = some (s, rest, k, u))
      (hprev : cs' = rest ∨ prev ≠ 0 ∧ cs' = rest.modify prev Behavior.abort) :
      Update act f fuel n cs w s n.onInitialize cs'
        ((Selector.stopsAt k s cs' u).noteIf true .activeSelectorUpdated)
  | parallel {isMonitor : Bool} {m_successPolicy m_failurePolicy : Policy}
      {successCount failureCount : Nat} {early : Option EStatus} {cs' : List Behavior}
      {u : World W} (hkind : n.kind = .parallel isMonitor m_successPolicy m_failurePolicy)
      (hloop : parallelLoop f m_successPolicy m_failurePolicy cs 0 0 w =
        some (early, cs', successCount, failureCount, u)) :
      Update act f fuel n cs w (early.getD (parallelResult m_successPolicy m_failurePolicy
        cs'.length successCount failureCount)) n cs' u
  | inverter {c c' : Behavior} {u : World W} (hkind : n.kind = .inverter) (hcs : cs = [c])
      (hc : f c w = some (c', u)) :
      Update act f fuel n cs w
        (if c'.isFailure then .success else if c'.isSuccess then .failure else .running) n [c'] u
  | repeats {m_conunter m_conunter' m_limit : Int} {s : EStatus} {c c' : Behavior} {u : World W}
      (hkind : n.kind = .repeats m_conunter m_limit) (hcs : cs = [c])
      (hloop : repeatLoop f m_limit fuel m_conunter c w = some (s, m_conunter', c', u)) :
      Update act f fuel n cs w s { n with kind := .repeats m_conunter' m_limit } [c'] u

theorem update_of_onUpdate (h : onUpdate act f fuel n cs w = some (s, n', cs', w')) :
    Update act f fuel n cs w s n' cs' w' := by
  unfold onUpdate at h
  split at h
  · rename_i hkind
    cases h
    exact .action hkind
  · rename_i hkind
    obtain ⟨⟨s, rest, k, u⟩, hloop, h⟩ := Option.bind_eq_some_iff.mp h
    cases h
    exact .sequence hkind hloop
  · rename_i hkind
    obtain ⟨⟨s, rest, k, u⟩, hloop, h⟩ := Option.bind_eq_some_iff.mp h
    cases h
    exact .selector hkind hloop
  · rename_i prev hkind
    obtain ⟨⟨s, rest, k, u⟩, hloop, h⟩ := Option.bind_eq_some_iff.mp h
    cases h
    refine .activeSelector hkind hloop ?_
    split
    · rename_i hne
      exact .inr ⟨Ne.symm hne.2, rfl⟩
    · exact .inl rfl
  · rename_i hkind
    obtain ⟨⟨early, rest, sc, fc, u⟩, hloop, h⟩ := Option.bind_eq_some_iff.mp h
    cases h
    exact .parallel hkind hloop
  · rename_i hkind
    split at h
    · obtain ⟨⟨c, u⟩, hc, h⟩ := Option.bind_eq_some_iff.mp h
      cases h
      exact .inverter hkind rfl hc
    · cases h
  · rename_i hkind
    split at h
    · obtain ⟨⟨s, k, c, u⟩, hloop, h⟩ := Option.bind_eq_some_iff.mp h
      cases h
      exact .repeats hkind rfl hloop
    · cases h

theorem Keeps.clean_onUpdate (hf : Keeps bad I Q f)
    (h : onUpdate act f fuel n cs w = some (s, n', cs', w')) (hw : w'.Clean bad) :
    w.Clean bad := by
  cases update_of_onUpdate h with
  | action => exact hw
  | sequence hkind hloop => exact hf.clean_tickWhile hloop hw
  | selector hkind hloop => exact hf.clean_tickWhile hloop hw.of_noteIf
  | activeSelector hkind hloop => exact hf.clean_tickWhile hloop hw.of_noteIf.of_noteIf
  | parallel hkind hloop => exact hf.clean_parallelLoop hloop hw
  | inverter hkind hcs hc => exact hf.clean hc hw
  | repeats hkind hcs hloop => exact hf.clean_repeatLoop hloop hw

/-- An update keeps what the ticks of the children keep. Only an `ActiveSelector` calls a hook of
its own, and might abort a child. -/
theorem Keeps.onUpdate (hf : Keeps bad I Q f)
    (h : onUpdate act f fuel n cs w = some (s, n', cs', w')) (hw : w'.Clean bad)
    (hI : ∀ c ∈ cs, I c)
    (hactive : ∀ prev, n.kind = .activeSelector prev → prev ≠ 0 →
      .activeSelectorUpdated ∈ bad) :
    (∀ c ∈ cs', I c) ∧ (.activeSelectorUpdated ∈ bad → n'.hooks = n.hooks) := by
  cases update_of_onUpdate h with
  | action => exact ⟨hI, fun _ => rfl⟩
  | sequence hkind hloop =>
    have hrest := (hf.tickWhile hloop hw fun c hc => hI c (List.mem_of_mem_drop hc)).1
    refine ⟨fun c hc => ?_, fun _ => rfl⟩
    rcases List.mem_append.mp hc with hc | hc
    · exact hI c (List.mem_of_mem_take hc)
    · exact hrest c hc
  | selector hkind hloop => exact ⟨(hf.tickWhile hloop hw.of_noteIf hI).1, fun _ => rfl⟩
  | activeSelector hkind hloop hprev =>
    have hnot : .activeSelectorUpdated ∉ bad := fun hbad => by
      cases hw.eq_false hbad
    refine ⟨?_, fun hbad => absurd hbad hnot⟩
    obtain rfl | ⟨hne, rfl⟩ := hprev
    · exact (hf.tickWhile hloop hw.of_noteIf.of_noteIf hI).1
    · exact absurd (hactive _ hkind hne) hnot
  | parallel hkind hloop => exact ⟨(hf.parallelLoop hloop hw hI).1, fun _ => rfl⟩
  | inverter hkind hcs hc =>
    subst hcs
    refine ⟨?_, fun _ => rfl⟩
    simpa using (hf.keeps hc hw (hI _ (List.mem_singleton.mpr rfl))).1
  | repeats hkind hcs hloop =>
    subst hcs
    refine ⟨?_, fun _ => rfl⟩
    simpa using hf.repeatLoop hloop hw (hI _ (List.mem_singleton.mpr rfl))

/-- `Behavior::tick` of a node whose children tick as `f` tells. -/
def tickNode (act : String → W → EStatus × W) (f : Tick W) (fuel : Nat) : Tick W := fun b w => do
  let n := if b.isRunning then b.self else b.self.onInitialize
  let (s, n, cs, w) ← BehaviorTree.onUpdate act f fuel n b.m_children w
  let b := Behavior.mk { n with m_status := s } cs
  if s = .running then some (b, w)
  else some (b.onTerminate, w.noteIf (n.kind.isParallel && !b.clears) .abortedAbove)

/-- A tick: the update, and what follows from its result. -/
theorem tickNode_eq_some {b b' : Behavior} (h : tickNode act f fuel b w = some (b', w')) :
    ∃ s n cs u, BehaviorTree.onUpdate act f fuel
        (if b.isRunning then b.self else b.self.onInitialize) b.m_children w =
          some (s, n, cs, u) ∧
      ((s = .running ∧ b' = .mk { n with m_status := s } cs ∧ w' = u) ∨
        (s ≠ .running ∧ b' = (Behavior.mk { n with m_status := s } cs).onTerminate ∧
          w' = u.noteIf (n.kind.isParallel && !(Behavior.mk { n with m_status := s } cs).clears)
            .abortedAbove)) := by
  simp only [tickNode, Option.bind_eq_bind] at h
  obtain ⟨⟨s, n, cs, u⟩, hupdate, h⟩ := Option.bind_eq_some_iff.mp h
  refine ⟨s, n, cs, u, hupdate, ?_⟩
  dsimp only at h
  split_ifs at h with hs
  · cases h
    exact .inl ⟨hs, rfl, rfl⟩
  · cases h
    exact .inr ⟨hs, rfl, rfl⟩

theorem tick_succ {b b' : Behavior} (h : tick act (fuel + 1) b w = some (b', w')) :
    ∃ s n cs u, BehaviorTree.onUpdate act (tick act fuel) fuel
        (if b.isRunning then b.self else b.self.onInitialize) b.m_children w =
          some (s, n, cs, u) ∧
      ((s = .running ∧ b' = .mk { n with m_status := s } cs ∧ w' = u) ∨
        (s ≠ .running ∧ b' = (Behavior.mk { n with m_status := s } cs).onTerminate ∧
          w' = u.noteIf (n.kind.isParallel && !(Behavior.mk { n with m_status := s } cs).clears)
            .abortedAbove)) :=
  tickNode_eq_some h

/-- What one tick does is noted, and stays so. -/
theorem clean_tick {b b' : Behavior} (h : tick act fuel b w = some (b', w'))
    (hw : w'.Clean bad) : w.Clean bad := by
  induction fuel generalizing b b' w w' with
  | zero => cases h
  | succ fuel ih =>
    have hf : Keeps bad (fun _ => True) (fun _ => True) (tick act fuel) :=
      ⟨ih, fun _ _ _ => ⟨trivial, trivial⟩⟩
    obtain ⟨s, n, cs, u, hupdate, ⟨-, -, rfl⟩ | ⟨-, -, rfl⟩⟩ := tick_succ h
    · exact hf.clean_onUpdate hupdate hw
    · exact hf.clean_onUpdate hupdate hw.of_noteIf

end

end

end NBRaft.BehaviorTree
