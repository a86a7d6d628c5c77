import NBRaft.BehaviorTree.Preempt

/-!
# Repeat from tick to tick

A `Repeat` counts the successes of its child in `m_conunter`. The loop of `onUpdate` may tick the
child several times in one tick, and is suspended where the child is running; the counter is set
back where the node is entered.
-/

namespace NBRaft.BehaviorTree

open Transition

/-- How often the child has succeeded. -/
def successes (vs : List Visit) : Nat := (vs.map Visit.status).count .success

/-- The result once the child has been ticked like this since the activation began. -/
def Repeat.result (m_limit : Int) (vs : List Visit) : EStatus :=
  if ∃ v ∈ vs, v.status = .failure then .failure
  else if (successes vs : Int) = m_limit then .success
  else .running

/-- The ticks of an activation. The child is ticked as long as it has neither failed nor
succeeded often enough. -/
structure RepeatActivation (m_limit : Int) (a : List Turn) : Prop where
  returned : ∀ pre t, pre ++ [t] <+: a → t.returned = Repeat.result m_limit (visitsOf (pre ++ [t]))
  ongoing : ∀ pre t t', pre ++ [t, t'] <+: a → t.returned = .running
  ticked : ∀ pre v post, visitsOf a = pre ++ v :: post → v.ticked = true ∧
    (successes pre : Int) < m_limit ∧ ∀ u ∈ pre, u.status ≠ .failure

@[simp] theorem successes_append (vs us : List Visit) :
    successes (vs ++ us) = successes vs + successes us := by
  simp [successes]

/-- The child succeeds so many times, and then comes to `s` if that is not the end. -/
def repetitions (s : EStatus) : Nat → List Visit
  | 0 => if s = .success then [] else [{ position := 0, status := s }]
  | k + 1 => { position := 0, status := .success } :: repetitions s k

section

variable {s : EStatus} {k : Nat}

@[simp] theorem successes_repetitions : successes (repetitions s k) = k := by
  induction k with
  | zero =>
    unfold repetitions successes
    split
    · rfl
    · rename_i hs
      simp [hs]
  | succ k ih => simpa [repetitions, successes] using ih

theorem mem_repetitions {v : Visit} (hv : v ∈ repetitions s k) :
    v.ticked = true ∧ (v.status = .success ∨ (v.status = s ∧ s ≠ .success)) := by
  induction k with
  | zero => grind [repetitions]
  | succ k ih => grind [repetitions]

theorem last_repetitions (hs : s ≠ .success) :
    { position := 0, status := s } ∈ repetitions s k := by
  induction k with
  | zero => simp [repetitions, hs]
  | succ k ih => exact List.mem_cons_of_mem _ ih

/-- In front of each of the ticks the child has only succeeded. -/
theorem repetitions_split {pre post : List Visit} {v : Visit}
    (h : repetitions s k = pre ++ v :: post) :
    (∀ u ∈ pre, u.status = .success) ∧
      (successes pre < k ∨ (successes pre = k ∧ s ≠ .success)) := by
  induction k generalizing pre with
  | zero =>
    unfold repetitions at h
    split at h
    · simp at h
    · rename_i hs
      obtain ⟨rfl, -⟩ | ⟨rfl, h⟩ := List.singleton_eq_append_iff.mp h
      · exact ⟨nofun, .inr ⟨rfl, hs⟩⟩
      · cases h
  | succ k ih =>
    cases pre with
    | nil => exact ⟨nofun, .inl (Nat.succ_pos k)⟩
    | cons u pre =>
      obtain ⟨rfl, hrest⟩ := List.cons.inj h
      obtain ⟨hall, hcount⟩ := ih hrest
      refine ⟨List.forall_mem_cons.mpr ⟨rfl, hall⟩, ?_⟩
      have hcons : successes ({ position := 0, status := .success } :: pre) =
          successes pre + 1 := by simp [successes]
      rw [hcons]
      exact hcount.imp (fun h => by omega) fun h => ⟨by omega, h.2⟩

variable {W : Type} {f : Tick W} {m_limit m_conunter m_conunter' : Int} {fuel : Nat}
  {c c' : Behavior} {w w' : World W}

/-- What the loop does, by what the child comes to. -/
theorem visitsRepeat_eq (hf : ReturnsOutcomes f) (hlimit : 0 ≤ m_limit)
    (hle : m_conunter ≤ m_limit)
    (h : repeatLoop f m_limit fuel m_conunter c w = some (s, m_conunter', c', w')) :
    ∃ k : Nat, visitsRepeat f m_limit fuel m_conunter c w = repetitions s k ∧
      m_conunter' = m_conunter + k ∧
      ((s = .success ∧ m_conunter' = m_limit) ∨
        ((s = .running ∨ s = .failure) ∧ m_conunter' < m_limit)) := by
  induction fuel generalizing m_conunter c w with
  | zero => cases h
  | succ fuel ih =>
    obtain ⟨hdone, rfl, rfl, rfl, rfl⟩ | ⟨hmore, c'', u, hc, ⟨hs, hstatus, rfl, rfl, rfl⟩ |
      ⟨hrunning, hfailure, hrest⟩⟩ := repeatLoop_succ h
    · exact ⟨0, if_neg hdone, by simp, .inl ⟨rfl, by omega⟩⟩
    · have hne : s ≠ .success := by rcases hs with rfl | rfl <;> nofun
      refine ⟨0, ?_, by simp, .inr ⟨hs, by omega⟩⟩
      simp [visitsRepeat, hmore, hc, hstatus, hs, repetitions, hne]
    · obtain ⟨k, hvisits, hcount, hend⟩ := ih (by omega) hrest
      have hsuccess : c''.m_status = .success :=
        (hf _ _ _ _ hc).resolve_right fun h => h.elim hfailure hrunning
      refine ⟨k + 1, ?_, by push_cast; omega, hend⟩
      simp [visitsRepeat, hmore, hc, hsuccess, hvisits, repetitions]

/-- Where the child returns from its ticks, so does the loop. -/
theorem repeatLoop_isSome (hf : ∀ c w, (f c w).isSome = true) (hlimit : 0 ≤ m_limit)
    (hfuel : m_limit - m_conunter < fuel) (hpos : 0 < fuel) :
    (repeatLoop f m_limit fuel m_conunter c w).isSome = true := by
  induction fuel generalizing m_conunter c w with
  | zero => cases hpos
  | succ fuel ih =>
    unfold repeatLoop
    split_ifs with hmore
    · obtain ⟨⟨c', u⟩, hc⟩ := Option.isSome_iff_exists.mp (hf c w)
      simp only [hc, Option.bind_eq_bind, Option.bind_some]
      split_ifs
      · rfl
      · rfl
      · push_cast at hfuel
        exact ih (by omega) (by omega)
    · rfl

end

/-- The activation goes on, or has just begun, and the counter tells how often the child has
succeeded in it. -/
structure Counts (m_limit m_conunter : Int) (a : List Turn) : Prop where
  activation : RepeatActivation m_limit a
  counter : (successes (visitsOf a) : Int) = m_conunter
  noFailure : ∀ v ∈ visitsOf a, v.status ≠ .failure
  ongoing : ∀ t ∈ a.getLast?, t.returned = .running

theorem Counts.nil {m_limit : Int} : Counts m_limit 0 [] :=
  ⟨⟨fun pre t h => by simp at h, fun pre t t' h => by simp at h,
    fun pre v post h => by simp [visitsOf] at h⟩, rfl, nofun, nofun⟩

section

variable {m_limit m_conunter m_conunter' : Int} {a : List Turn} {t : Turn} {s : EStatus} {k : Nat}

/-- The result of the tick is that of the whole activation. -/
theorem Counts.result (h : Counts m_limit m_conunter a) (hcount : m_conunter' = m_conunter + k)
    (hend : (s = .success ∧ m_conunter' = m_limit) ∨
      ((s = .running ∨ s = .failure) ∧ m_conunter' < m_limit)) :
    Repeat.result m_limit (visitsOf a ++ repetitions s k) = s := by
  have hsuccesses : (successes (visitsOf a ++ repetitions s k) : Int) = m_conunter' := by
    rw [successes_append, successes_repetitions, hcount, ← h.counter]
    push_cast
    rfl
  have hfailure : (∃ v ∈ visitsOf a ++ repetitions s k, v.status = .failure) ↔ s = .failure := by
    constructor
    · rintro ⟨v, hv, hfailure⟩
      rcases List.mem_append.mp hv with hv | hv
      · exact absurd hfailure (h.noFailure v hv)
      · obtain ⟨-, hv⟩ := mem_repetitions hv
        grind
    · rintro rfl
      exact ⟨_, List.mem_append_right _ (last_repetitions nofun), rfl⟩
  unfold Repeat.result
  rw [hsuccesses]
  simp only [hfailure]
  obtain ⟨rfl, rfl⟩ | ⟨rfl | rfl, hlt⟩ := hend
  · simp
  · simp [Int.ne_of_lt hlt]
  · simp

theorem Counts.append (h : Counts m_limit m_conunter a)
    (hvisits : t.visits = repetitions s k) (hreturned : t.returned = s)
    (hcount : m_conunter' = m_conunter + k)
    (hend : (s = .success ∧ m_conunter' = m_limit) ∨
      ((s = .running ∨ s = .failure) ∧ m_conunter' < m_limit)) :
    RepeatActivation m_limit (a ++ [t]) ∧
      (s = .running → Counts m_limit m_conunter' (a ++ [t])) := by
  have hall : visitsOf (a ++ [t]) = visitsOf a ++ repetitions s k := by
    rw [visitsOf_append, hvisits]
  have hactivation : RepeatActivation m_limit (a ++ [t]) := by
    refine ⟨fun pre t' hpre => ?_, fun pre t₁ t₂ hpre => ?_, fun pre v post hsplit => ?_⟩
    · rcases List.prefix_concat_iff.mp hpre with heq | hold
      · obtain ⟨rfl, h₂⟩ := List.append_inj' heq rfl
        obtain rfl := List.singleton_inj.mp h₂
        rw [hall, h.result hcount hend]
        exact hreturned
      · exact h.activation.returned pre t' hold
    · have hpair : pre ++ [t₁, t₂] = (pre ++ [t₁]) ++ [t₂] := by simp
      rw [hpair] at hpre
      rcases List.prefix_concat_iff.mp hpre with heq | hold
      · obtain ⟨rfl, -⟩ := List.append_inj' heq rfl
        exact h.ongoing t₁ (by simp)
      · exact h.activation.ongoing pre t₁ t₂ (by rwa [hpair])
    · rw [hall] at hsplit
      -- a tick of the child is one of the new tick or an earlier one
      have hnew : ∀ us, pre = visitsOf a ++ us → repetitions s k = us ++ v :: post →
          v.ticked = true ∧ (successes pre : Int) < m_limit ∧ ∀ u ∈ pre, u.status ≠ .failure := by
        rintro us rfl hus
        obtain ⟨hsuccess, hlt⟩ := repetitions_split hus
        have hv : v ∈ repetitions s k := by simp [hus]
        refine ⟨(mem_repetitions hv).1, ?_, fun u hu => ?_⟩
        · rw [successes_append]
          push_cast
          rw [h.counter]
          obtain hlt | ⟨heq, hs⟩ := hlt
          · omega
          · have := (hend.resolve_left fun h => hs h.1).2
            omega
        · rcases List.mem_append.mp hu with hu | hu
          · exact h.noFailure u hu
          · simp [hsuccess u hu]
      obtain ⟨us, hpre, hus⟩ | ⟨bs, hpre, hbs⟩ := List.append_eq_append_iff.mp hsplit
      · exact hnew us hpre hus
      · cases bs with
        | nil => exact hnew [] (by simpa using hpre.symm) hbs.symm
        | cons u bs =>
          obtain ⟨rfl, -⟩ := List.cons.inj hbs
          exact h.activation.ticked pre v bs hpre
  refine ⟨hactivation, fun hs => ⟨hactivation, ?_, ?_, ?_⟩⟩
  · rw [hall, successes_append, successes_repetitions, hcount, ← h.counter]
    push_cast
    rfl
  · intro v hv
    rw [hall] at hv
    rcases List.mem_append.mp hv with hv | hv
    · exact h.noFailure v hv
    · obtain ⟨-, hv⟩ := mem_repetitions hv
      grind
  · intro t' ht
    obtain rfl : t = t' := by simpa using ht
    exact hreturned.trans hs

end

section

variable {W : Type} {act : String → W → EStatus × W} {f : Tick W} {fuel : Nat}
  {m_limit m_conunter : Int} {b b' c : Behavior} {w w' : World W}

/-- The tick of a `Repeat` in terms of its loop. -/
theorem tickNode_repeats (hkind : b.entered.kind = .repeats m_conunter m_limit)
    (hchild : b.m_children = [c]) (hf : ReturnsOutcomes f) (hlimit : 0 ≤ m_limit)
    (hle : m_conunter ≤ m_limit) (h : tickNode act f fuel b w = some (b', w')) :
    ∃ (k : Nat) (m_conunter' : Int) (c' : Behavior),
      visits f fuel b.entered b.m_children w = repetitions b'.m_status k ∧
      b'.self.kind = .repeats m_conunter' m_limit ∧ b'.m_children = [c'] ∧
      m_conunter' = m_conunter + k ∧
      ((b'.m_status = .success ∧ m_conunter' = m_limit) ∨
        ((b'.m_status = .running ∨ b'.m_status = .failure) ∧ m_conunter' < m_limit)) := by
  obtain ⟨n, cs, u, hupdate, hnode, -, hcs⟩ := tickNode_update h
  simp only [onUpdate, hkind, hchild] at hupdate
  obtain ⟨⟨s, m_conunter', c', u'⟩, hloop, hresult⟩ := Option.bind_eq_some_iff.mp hupdate
  simp only [Option.some.injEq, Prod.mk.injEq] at hresult
  obtain ⟨rfl, rfl, rfl, rfl⟩ := hresult
  obtain ⟨k, hvisits, hcount, hend⟩ := visitsRepeat_eq hf hlimit hle hloop
  rw [if_neg (by simp [Kind.isParallel])] at hcs
  refine ⟨k, m_conunter', c', ?_, hnode, hcs, hcount, hend⟩
  simp only [visits, hkind, hchild]
  exact hvisits

/-- What the runs of a `Repeat` keep. -/
structure RepeatRun (m_limit : Int) (s : Watched W) : Prop where
  kind : ∃ m_conunter, s.node.self.kind = .repeats m_conunter m_limit
  child : ∃ c, s.node.m_children = [c]
  recorded : ∀ a ∈ s.activations, RepeatActivation m_limit a
  counts : s.node.isRunning = true → ∃ m_conunter a as,
    s.node.self.kind = .repeats m_conunter m_limit ∧ m_conunter ≤ m_limit ∧
    s.activations = a :: as ∧ Counts m_limit m_conunter a

/-- The counter that the update finds is the one of the activation it belongs to. -/
theorem RepeatRun.entered {s : Watched W} (hs : RepeatRun m_limit s) (hlimit : 0 ≤ m_limit)
    (t : Turn) : ∃ m_conunter a rest, s.node.entered.kind = .repeats m_conunter m_limit ∧
      m_conunter ≤ m_limit ∧ record s.node.isRunning t s.activations = (a ++ [t]) :: rest ∧
      Counts m_limit m_conunter a ∧ ∀ a ∈ rest, RepeatActivation m_limit a := by
  have hcounts : s.node.isRunning = true → ∃ a rest, s.activations = a :: rest ∧
      ∃ m_conunter, s.node.entered.kind = .repeats m_conunter m_limit ∧ m_conunter ≤ m_limit ∧
        Counts m_limit m_conunter a := by
    intro hrunning
    obtain ⟨m_conunter, a, rest, hkind, hle, has, ha⟩ := hs.counts hrunning
    exact ⟨a, rest, has, m_conunter, by simp [kind_entered, hrunning, hkind], hle, ha⟩
  have hanew : s.node.isRunning = false → ∃ m_conunter,
      s.node.entered.kind = .repeats m_conunter m_limit ∧ m_conunter ≤ m_limit ∧
        Counts m_limit m_conunter [] := by
    intro hrunning
    obtain ⟨m_conunter, hkind⟩ := hs.kind
    exact ⟨0, by simp [kind_entered, hrunning, hkind, Kind.onInitialize], hlimit, .nil⟩
  obtain ⟨a, rest, hrecord, ⟨m_conunter, hkind, hle, ha⟩, -, hrest⟩ :=
    exists_record hcounts hanew t
  exact ⟨m_conunter, a, rest, hkind, hle, hrecord, ha,
    fun a' ha' => hs.recorded a' (hrest a' ha')⟩

theorem RepeatRun.step {s t : Watched W} {e : Watched.Event W}
    (h : Watched.step act s e = some t) (he : e.ReturnsOutcomes) (hlimit : 0 ≤ m_limit)
    (hs : RepeatRun m_limit s) : RepeatRun m_limit t := by
  cases e with
  | passes env =>
    cases h
    exact ⟨hs.kind, hs.child, hs.recorded, hs.counts⟩
  | tick f fuel =>
    obtain ⟨htick, hrecord⟩ := Watched.step_tick.mp h
    obtain ⟨c, hchild⟩ := hs.child
    obtain ⟨m_conunter, a, rest, hentered, hle, heq, ha, hrest⟩ :=
      hs.entered hlimit (s.turn f fuel t.node)
    obtain ⟨k, m_conunter', c', hvisits, hkind, hchild', hcount, hend⟩ :=
      tickNode_repeats hentered hchild he hlimit hle htick
    obtain ⟨hactivation, hgoing⟩ :=
      ha.append (t := s.turn f fuel t.node) hvisits rfl hcount hend
    rw [heq] at hrecord
    refine ⟨⟨_, hkind⟩, ⟨c', hchild'⟩, ?_, fun hrunning => ?_⟩
    · rw [hrecord]
      exact List.forall_mem_cons.mpr ⟨hactivation, hrest⟩
    · refine ⟨m_conunter', _, rest, hkind, ?_, hrecord, hgoing (of_decide_eq_true hrunning)⟩
      omega

theorem RepeatRun.onlyTicks {s : Watched W} (hs : RepeatRun m_limit s) :
    s.node.self.kind.onlyTicks = true := by
  obtain ⟨m, hkind⟩ := hs.kind
  rw [hkind]
  rfl

theorem RepeatRun.returns {s : Watched W} (hs : RepeatRun m_limit s) (hlimit : 0 ≤ m_limit)
    (hf : ∀ c w, (f c w).isSome = true) :
    ∃ fuel, (Watched.step act s (.tick f fuel)).isSome = true := by
  obtain ⟨c, hchild⟩ := hs.child
  obtain ⟨m_conunter, -, -, hentered, -⟩ := hs.entered hlimit ⟨[], [], .running, []⟩
  refine ⟨(m_limit - m_conunter).toNat + 1, ?_⟩
  have hloop : (repeatLoop f m_limit ((m_limit - m_conunter).toNat + 1) m_conunter c
      s.world).isSome = true :=
    repeatLoop_isSome hf hlimit (by omega) (by omega)
  obtain ⟨⟨r, m_conunter', c', u⟩, hr⟩ := Option.isSome_iff_exists.mp hloop
  have hupdate : (onUpdate act f ((m_limit - m_conunter).toNat + 1) s.node.entered
      s.node.m_children s.world).isSome = true := by
    simp [onUpdate, hentered, hchild, hr]
  obtain ⟨b', w', htick⟩ := exists_tickNode hupdate
  simp [Watched.step, htick]

end

/-- In every activation of a `Repeat` with a limit the results are those of counting the successes
of the child, which is ticked no longer than that; the activations are those of the run, tick by
tick; and where the child returns from its ticks, so does the `Repeat`. -/
theorem repeat_counts {W : Type} (act : String → W → EStatus × W) (b c : Behavior)
    (m_conunter m_limit : Int) (hkind : b.self.kind = .repeats m_conunter m_limit)
    (hchild : b.m_children = [c]) (hlimit : 0 ≤ m_limit) (hb : b.isRunning = false)
    (world : World W) (es : List (Watched.Event W)) (hes : ∀ e ∈ es, e.ReturnsOutcomes)
    (t : Watched W) (h : run (Watched.step act) ⟨b, world, []⟩ es = some t) :
    (∀ a ∈ t.activations, RepeatActivation m_limit a) ∧
      Along (Watched.step act) (Watched.IsRecorded act) ⟨b, world, []⟩ es ∧
      ∀ f : Tick W, (∀ c w, (f c w).isSome = true) →
        ∃ fuel, (Watched.step act t (.tick f fuel)).isSome = true := by
  have hstart : RepeatRun m_limit (⟨b, world, []⟩ : Watched W) :=
    ⟨⟨_, hkind⟩, ⟨c, hchild⟩, nofun, fun hrunning => by cases hb.symm.trans hrunning⟩
  have hrun := run_preserves_of_forall (C := Watched.Event.ReturnsOutcomes)
    (fun _ _ _ h he hs => RepeatRun.step h he hlimit hs) h hes hstart
  refine ⟨hrun.recorded, ?_, fun f hf => hrun.returns hlimit hf⟩
  exact along_of_preserves (E := Watched.Event.ReturnsOutcomes)
    (fun _ _ _ hst he hs => RepeatRun.step hst he hlimit hs)
    (fun _ e _ hs => Watched.isRecorded_of_onlyTicks hs.onlyTicks e) hes hstart

open Watched in
/-- Two activations: one is suspended once and ends with its second success, the other one fails. -/
theorem repeat_counts_knock : ∃ t, run (Watched.step scripted)
      ⟨Behavior.ofActions (.repeats 0 2) ["knock"],
        { env := [.success, .running, .success, .failure] }, []⟩ (ticks 3) = some t ∧
    t.activations.map List.length = [1, 2] ∧ (∀ a ∈ t.activations, RepeatActivation 2 a) ∧
      Along (Watched.step scripted) (IsRecorded scripted)
        ⟨Behavior.ofActions (.repeats 0 2) ["knock"],
          { env := [.success, .running, .success, .failure] }, []⟩ (ticks 3) ∧
      ∀ f : Tick (List EStatus), (∀ c w, (f c w).isSome = true) →
        ∃ fuel, (Watched.step scripted t (.tick f fuel)).isSome = true := by
  have h : run (Watched.step scripted) ⟨Behavior.ofActions (.repeats 0 2) ["knock"],
    { env := [.success, .running, .success, .failure] }, []⟩ (ticks 3) = some _ := rfl
  exact ⟨_, h, rfl, repeat_counts scripted _ _ 0 2 rfl rfl (by decide) (by decide) _ _
    returnsOutcomes_ticks _ h⟩

end NBRaft.BehaviorTree
