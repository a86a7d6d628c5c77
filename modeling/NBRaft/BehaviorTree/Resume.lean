import NBRaft.BehaviorTree.Activations

/-!
# Resuming where the node stopped

A `Sequence` keeps in `m_currentChild` the child that it has come to, and the next tick of the
activation goes on from there. `Selector` inherits the cursor and its `onInitialize`, but the loop
of its `onUpdate` has an iterator of its own: every tick begins with the first child. What is
asked of an activation is the same for both, with `Success` for the one and `Failure` for the
other as the status with which a child lets the next one come.
-/

namespace NBRaft.BehaviorTree

open Transition

/-- After a child that has come to `go` follows the next one, and after one that is running the
same one. -/
def Follows (go : EStatus) (v v' : Visit) : Prop :=
  (v.status = go ∧ v'.position = v.position + 1) ∨
    (v.status = .running ∧ v'.position = v.position)

/-- The result for `n` children, of which these have been ticked since the activation began. -/
def activationResult (go : EStatus) (n : Nat) (vs : List Visit) : EStatus :=
  match vs.find? fun v => v.status ≠ go ∧ v.status ≠ .running with
  | some v => v.status
  | none => if ∀ i < n, ∃ v ∈ vs, v.position = i ∧ v.status = go then go else .running

/-- In these ticks of an activation the node has gone through its `n` children in their order,
each tick going on from the child that the tick before has left running. -/
structure Resumes (go : EStatus) (n : Nat) (a : List Turn) : Prop where
  ticked : ∀ v ∈ visitsOf a, v.ticked = true
  first : ∀ v ∈ (visitsOf a).head?, v.position = 0
  order : (visitsOf a).IsChain (Follows go)
  once : (visitsOf a).Pairwise fun v v' => v.status = go → v'.position ≠ v.position
  starts : ∀ pre t t', pre ++ [t, t'] <+: a → t.returned = .running ∧
    ∃ v v', t.visits.getLast? = some v ∧ v.status = .running ∧
      t'.visits.head? = some v' ∧ v'.position = v.position
  result : ∀ pre t, pre ++ [t] <+: a →
    t.returned = activationResult go n (visitsOf (pre ++ [t]))

/-! ## A way through the children -/

/-- So many children from this one on come to `go`, and the next one, if there is one left, to
`s`. -/
def passage (go s : EStatus) : Nat → Nat → List Visit
  | position, 0 => if s = go then [] else [{ position := position, status := s }]
  | position, k + 1 => { position := position, status := go } :: passage go s (position + 1) k

section

variable {go s : EStatus} {k m n p : Nat} {vs : List Visit} {v : Visit}

theorem mem_passage (hv : v ∈ passage go s p k) :
    v.ticked = true ∧ ((v.status = go ∧ p ≤ v.position ∧ v.position < p + k) ∨
      (s ≠ go ∧ v = { position := p + k, status := s })) := by
  induction k generalizing p with
  | zero => grind [passage]
  | succ k ih => grind [passage]

theorem passage_done {i : Nat} (hle : p ≤ i) (hlt : i < p + k) :
    ∃ v ∈ passage go s p k, v.position = i ∧ v.status = go := by
  induction k generalizing p with
  | zero => omega
  | succ k ih =>
    by_cases h : i = p
    · exact ⟨_, List.mem_cons_self, h.symm, rfl⟩
    · obtain ⟨v, hv, hi⟩ := ih (p := p + 1) (by omega) (by omega)
      exact ⟨v, List.mem_cons_of_mem _ hv, hi⟩

theorem head_passage (hv : v ∈ (passage go s p k).head?) : v.position = p := by
  cases k with
  | zero => grind [passage]
  | succ k => grind [passage]

theorem last_passage (hs : s ≠ go) :
    (passage go s p k).getLast? = some { position := p + k, status := s } := by
  induction k generalizing p with
  | zero => simp [passage, hs]
  | succ k ih => grind [passage]

theorem chain_passage : (passage go s p k).IsChain (Follows go) := by
  induction k generalizing p with
  | zero =>
    unfold passage
    split
    · exact .nil
    · exact .singleton _
  | succ k ih =>
    rw [passage]
    refine List.IsChain.cons (ih (p := p + 1)) fun v hv => ?_
    exact .inl ⟨rfl, head_passage hv⟩

/-- What the loop comes to. -/
theorem visitsWhile_eq_passage {W : Type} {f : Tick W} {cs cs' : List Behavior} {w w' : World W}
    (h : tickWhile f go cs w = some (s, cs', k, w')) :
    visitsWhile f go p cs w = passage go s p k ∧
      ((s = go ∧ k = cs.length) ∨ (s ≠ go ∧ k < cs.length)) := by
  induction cs generalizing p cs' k w with
  | nil =>
    cases h
    exact ⟨by simp [visitsWhile, passage], .inl ⟨rfl, rfl⟩⟩
  | cons c cs ih =>
    obtain ⟨c', u, hc, ⟨hgo, rfl, rfl, rfl, rfl⟩ | ⟨rest, k', hgo, hrest, rfl, rfl⟩⟩ :=
      tickWhile_cons h
    · exact ⟨by simp [visitsWhile, passage, hc, hgo], .inr ⟨hgo, Nat.succ_pos _⟩⟩
    · obtain ⟨hvisits, hend⟩ := ih (p := p + 1) hrest
      refine ⟨by simp [visitsWhile, passage, hc, hgo, hvisits], ?_⟩
      rw [List.length_cons]
      obtain ⟨hs, hk⟩ | ⟨hs, hk⟩ := hend
      · exact .inl ⟨hs, by omega⟩
      · exact .inr ⟨hs, by omega⟩

/-- The visits of an activation that waits for the child at this position: all before it have
come to `go`, and it is running, unless nothing has been ticked yet. -/
structure Reached (go : EStatus) (m : Nat) (vs : List Visit) : Prop where
  ticked : ∀ v ∈ vs, v.ticked = true
  first : ∀ v ∈ vs.head?, v.position = 0
  order : vs.IsChain (Follows go)
  last : (vs = [] ∧ m = 0) ∨
    ∃ v, vs.getLast? = some v ∧ v.status = .running ∧ v.position = m
  done : ∀ i < m, ∃ v ∈ vs, v.position = i ∧ v.status = go
  before : ∀ v ∈ vs, (v.status = go ∧ v.position < m) ∨ v.status = .running

theorem Reached.nil : Reached go 0 [] :=
  ⟨nofun, nofun, .nil, .inl ⟨rfl, rfl⟩, nofun, nofun⟩

section

variable (h : Reached go m vs)

include h

theorem Reached.ticked_append : ∀ v ∈ vs ++ passage go s m k, v.ticked = true := by
  intro v hv
  rcases List.mem_append.mp hv with hv | hv
  · exact h.ticked v hv
  · exact (mem_passage hv).1

theorem Reached.first_append :
    ∀ v ∈ (vs ++ passage go s m k).head?, v.position = 0 := by
  intro v hv
  obtain ⟨rfl, rfl⟩ | ⟨u, hu, -⟩ := h.last
  · exact head_passage hv
  · cases vs with
    | nil => cases hu
    | cons u vs => exact h.first v hv

theorem Reached.order_append : (vs ++ passage go s m k).IsChain (Follows go) := by
  refine h.order.append chain_passage fun u hu v hv => ?_
  obtain ⟨rfl, -⟩ | ⟨u', hu', hrunning, hposition⟩ := h.last
  · cases hu
  · obtain rfl := Option.some.inj (hu'.symm.trans hu)
    exact .inr ⟨hrunning, (head_passage hv).trans hposition.symm⟩

theorem Reached.before_append (hv : v ∈ vs ++ passage go s m k) :
    (v.status = go ∧ v.position < m + k) ∨ v.status = .running ∨ (s ≠ go ∧ v.status = s) := by
  rcases List.mem_append.mp hv with hv | hv
  · obtain ⟨hgo, hlt⟩ | hrunning := h.before v hv
    · exact .inl ⟨hgo, by omega⟩
    · exact .inr (.inl hrunning)
  · obtain ⟨-, ⟨hgo, -, hlt⟩ | ⟨hs, rfl⟩⟩ := mem_passage hv
    · exact .inl ⟨hgo, hlt⟩
    · exact .inr (.inr ⟨hs, rfl⟩)

theorem Reached.done_append {i : Nat} (hi : i < m + k) :
    ∃ v ∈ vs ++ passage go s m k, v.position = i ∧ v.status = go := by
  by_cases hlt : i < m
  · obtain ⟨v, hv, hdone⟩ := h.done i hlt
    exact ⟨v, List.mem_append_left _ hv, hdone⟩
  · obtain ⟨v, hv, hdone⟩ : ∃ v ∈ passage go s m k, v.position = i ∧ v.status = go :=
      passage_done (Nat.le_of_not_lt hlt) hi
    exact ⟨v, List.mem_append_right _ hv, hdone⟩

/-- The next tick goes on from where the last one has stopped, and its result is that of the
whole activation. -/
theorem Reached.result (hgo : go ≠ .running)
    (hend : (s = go ∧ m + k = n) ∨ (s ≠ go ∧ m + k < n)) :
    activationResult go n (vs ++ passage go s m k) = s := by
  have hbefore := fun v => h.before_append (s := s) (k := k) (v := v)
  unfold activationResult
  split
  · rename_i v hfind
    have hv := List.find?_some hfind
    simp only [decide_eq_true_eq] at hv
    rcases hbefore v (List.mem_of_find?_eq_some hfind) with ⟨hv', -⟩ | hv' | ⟨-, hv'⟩
    · exact absurd hv' hv.1
    · exact absurd hv' hv.2
    · exact hv'
  · rename_i hfind
    rw [List.find?_eq_none] at hfind
    rcases hend with ⟨rfl, rfl⟩ | ⟨hs, hlt⟩
    · exact if_pos fun i hi => h.done_append hi
    · have hlast : { position := m + k, status := s } ∈ vs ++ passage go s m k :=
        List.mem_append_right _ (List.mem_of_getLast? (last_passage hs))
      have hrunning : s = .running := by simpa [hs] using hfind _ hlast
      rw [if_neg, hrunning]
      intro hall
      -- the child that is running has not come to `go` before
      obtain ⟨v, hv, hposition, hstatus⟩ := hall (m + k) hlt
      rcases hbefore v hv with ⟨-, hv'⟩ | hv' | ⟨hs', hv'⟩
      · omega
      · exact hgo (hstatus.symm.trans hv')
      · exact hs (hv'.symm.trans hstatus)

theorem Reached.append (hgo : go ≠ .running) (hs : s = .running) :
    Reached go (m + k) (vs ++ passage go s m k) := by
  have hne : s ≠ go := fun h => hgo (h.symm.trans hs)
  refine ⟨h.ticked_append, h.first_append, h.order_append, 
    .inr ⟨{ position := m + k, status := s }, ?_, hs, rfl⟩, ?_, ?_⟩
  · rw [List.getLast?_append, last_passage hne]
    rfl
  · exact fun i hi => h.done_append hi
  · intro v hv
    rcases h.before_append hv with hv' | hv' | ⟨-, hv'⟩
    · exact .inl hv'
    · exact .inr hv'
    · exact .inr (hv'.trans hs)

end

end

/-! ## Going on with an activation -/

/-- No child is ticked again once it has come to `go`. -/
theorem once_of_order {go : EStatus} {vs : List Visit} (hgo : go ≠ .running)
    (h : vs.IsChain (Follows go)) :
    vs.Pairwise fun v v' => v.status = go → v'.position ≠ v.position := by
  let ahead (v v' : Visit) : Prop :=
    v.position + (if v.status = .running then 0 else 1) ≤ v'.position
  have : Trans ahead ahead ahead := ⟨fun hab hbc => by grind⟩
  have hahead : vs.IsChain ahead := h.imp fun v v' hv => by
    unfold Follows at hv
    grind
  refine hahead.pairwise.imp fun {v v'} hv hstatus heq => ?_
  have hne : v.status ≠ .running := fun hr => hgo (hstatus.symm.trans hr)
  simp only [ahead, if_neg hne] at hv
  omega

theorem visitsOf_append (a : List Turn) (t : Turn) :
    visitsOf (a ++ [t]) = visitsOf a ++ t.visits := by
  simp [visitsOf]

/-- The activation goes on, or has just begun, and waits for the child at this position. -/
structure Waits (go : EStatus) (n m : Nat) (a : List Turn) : Prop where
  resumes : Resumes go n a
  reached : Reached go m (visitsOf a)
  last : ∀ t ∈ a.getLast?, t.returned = .running ∧ m < n ∧
    ∃ v, t.visits.getLast? = some v ∧ v.status = .running ∧ v.position = m

theorem Waits.nil {go : EStatus} {n : Nat} : Waits go n 0 [] :=
  ⟨⟨nofun, nofun, .nil, .nil, fun pre t t' h => by simp at h, fun pre t h => by simp at h⟩,
    .nil, nofun⟩

section

variable {go s : EStatus} {k m n : Nat} {a : List Turn} {t : Turn}

theorem Waits.resumes_append (h : Waits go n m a) (hgo : go ≠ .running)
    (hvisits : t.visits = passage go s m k) (hreturned : t.returned = s)
    (hend : (s = go ∧ m + k = n) ∨ (s ≠ go ∧ m + k < n)) : Resumes go n (a ++ [t]) := by
  have hall : visitsOf (a ++ [t]) = visitsOf a ++ passage go s m k := by
    rw [visitsOf_append, hvisits]
  have horder := h.reached.order_append (s := s) (k := k)
  refine ⟨?_, ?_, ?_, ?_, fun pre t₁ t₂ hpre => ?_, fun pre t₁ hpre => ?_⟩
  · rw [hall]
    exact h.reached.ticked_append
  · rw [hall]
    exact h.reached.first_append
  · rw [hall]
    exact horder
  · rw [hall]
    exact once_of_order hgo horder
  · have hsplit : pre ++ [t₁, t₂] = (pre ++ [t₁]) ++ [t₂] := by simp
    rw [hsplit] at hpre
    rcases List.prefix_concat_iff.mp hpre with heq | hold
    · -- the tick is the new one, and the one before it is the last of the activation
      obtain ⟨rfl, h₂⟩ := List.append_inj' heq rfl
      obtain rfl := List.singleton_inj.mp h₂
      obtain ⟨hreturned', hlt, v, hv, hrunning, hposition⟩ := h.last t₁ (by simp)
      obtain ⟨v', hv'⟩ : ∃ v', (passage go s m k).head? = some v' := by
        cases k with
        | zero => grind [passage]
        | succ k => exact ⟨_, rfl⟩
      refine ⟨hreturned', v, v', hv, hrunning, by rw [hvisits, hv'], ?_⟩
      exact (head_passage hv').trans hposition.symm
    · exact h.resumes.starts pre t₁ t₂ (by rwa [hsplit])
  · rcases List.prefix_concat_iff.mp hpre with heq | hold
    · obtain ⟨rfl, h₂⟩ := List.append_inj' heq rfl
      obtain rfl := List.singleton_inj.mp h₂
      rw [hall, h.reached.result hgo hend]
      exact hreturned
    · exact h.resumes.result pre t₁ hold

theorem Waits.append (h : Waits go n m a) (hgo : go ≠ .running)
    (hvisits : t.visits = passage go s m k) (hreturned : t.returned = s) (hs : s = .running)
    (hend : m + k < n) : Waits go n (m + k) (a ++ [t]) := by
  have hne : s ≠ go := fun h => hgo (h.symm.trans hs)
  refine ⟨h.resumes_append hgo hvisits hreturned (.inr ⟨hne, hend⟩), ?_, fun t' ht => ?_⟩
  · rw [visitsOf_append, hvisits]
    exact h.reached.append hgo hs
  · obtain rfl : t = t' := by simpa using ht
    exact ⟨hreturned.trans hs, hend, _, by rw [hvisits, last_passage hne], hs, rfl⟩

/-- The tick goes on with the activation that waits, or begins one with the first child. -/
theorem resumes_record {running : Bool} {as : List (List Turn)} (hgo : go ≠ .running)
    (hold : ∀ a ∈ as, Resumes go n a)
    (hwaits : running = true → ∃ a rest, as = a :: rest ∧ Waits go n m a)
    (hentered : running = false → m = 0)
    (hvisits : t.visits = passage go s m k) (hreturned : t.returned = s)
    (hend : (s = go ∧ m + k = n) ∨ (s ≠ go ∧ m + k < n)) :
    (∀ a ∈ record running t as, Resumes go n a) ∧
      (s = .running → ∃ a rest, record running t as = a :: rest ∧ Waits go n (m + k) a) := by
  obtain ⟨a, rest, hrecord, ha, -, hrest⟩ :=
    exists_record hwaits (fun hrunning => hentered hrunning ▸ .nil) t
  rw [hrecord]
  refine ⟨List.forall_mem_cons.mpr ⟨?_, fun a' ha' => hold a' (hrest a' ha')⟩,
    fun hs => ⟨_, _, rfl, ?_⟩⟩
  · exact ha.resumes_append hgo hvisits hreturned hend
  · have hne : s ≠ go := fun h => hgo (h.symm.trans hs)
    exact ha.append hgo hvisits hreturned hs (hend.resolve_left fun h => hne h.1).2

end

/-! ## Sequence -/

section

variable {W : Type} {act : String → W → EStatus × W} {f : Tick W} {fuel : Nat}
  {b b' : Behavior} {w w' : World W}

/-- A `Sequence` goes on from its cursor, and leaves it at the child that it has stopped with. -/
theorem tickNode_sequence {isFilter : Bool} {m : Nat}
    (hkind : b.entered.kind = .sequence isFilter m) (hm : m ≤ b.m_children.length)
    (h : tickNode act f fuel b w = some (b', w')) :
    ∃ k, visits f fuel b.entered b.m_children w = passage .success b'.m_status m k ∧
      b'.self.kind = .sequence isFilter (m + k) ∧
      b'.m_children.length = b.m_children.length ∧
      ((b'.m_status = .success ∧ m + k = b.m_children.length) ∨
        (b'.m_status ≠ .success ∧ m + k < b.m_children.length)) := by
  obtain ⟨n, cs, u, hupdate, hnode, -, hcs⟩ := tickNode_update h
  have hvisits : visits f fuel b.entered b.m_children w =
      visitsWhile f .success m (b.m_children.drop m) w := by
    simp only [visits, hkind]
  simp only [onUpdate, hkind] at hupdate
  obtain ⟨⟨s, rest, k, u'⟩, hloop, hresult⟩ := Option.bind_eq_some_iff.mp hupdate
  simp only [Option.some.injEq, Prod.mk.injEq] at hresult
  obtain ⟨rfl, rfl, rfl, rfl⟩ := hresult
  obtain ⟨hpassage, hend⟩ := visitsWhile_eq_passage (p := m) hloop
  have hlength := (visited_visitsWhile [] hloop).length_eq
  rw [if_neg (by simp [Kind.isParallel])] at hcs
  simp only [List.nil_append, List.length_drop] at hlength hend
  refine ⟨k, hvisits.trans hpassage, hnode, ?_, ?_⟩
  · rw [hcs, List.length_append, List.length_take, hlength]
    omega
  · exact hend.imp (fun h => ⟨h.1, by omega⟩) fun h => ⟨h.1, by omega⟩

/-- What the runs of a `Sequence` of `n` children keep. -/
structure SequenceRun (n : Nat) (s : Watched W) : Prop where
  size : s.node.m_children.length = n
  kind : ∃ isFilter m, s.node.self.kind = .sequence isFilter m
  recorded : ∀ a ∈ s.activations, Resumes .success n a
  waits : s.node.isRunning = true → ∃ isFilter m a as, s.node.self.kind = .sequence isFilter m ∧
    m ≤ n ∧ s.activations = a :: as ∧ Waits .success n m a

theorem SequenceRun.step {n : Nat} {s t : Watched W} {e : Watched.Event W}
    (h : Watched.step act s e = some t) (hs : SequenceRun n s) : SequenceRun n t := by
  cases e with
  | passes env =>
    cases h
    exact ⟨hs.size, hs.kind, hs.recorded, hs.waits⟩
  | tick f fuel =>
    obtain ⟨htick, hrecord⟩ := Watched.step_tick.mp h
    obtain ⟨isFilter, m, hentered, hm, hwaits, hzero⟩ : ∃ isFilter m,
        s.node.entered.kind = .sequence isFilter m ∧ m ≤ n ∧
        (s.node.isRunning = true → ∃ a rest, s.activations = a :: rest ∧ Waits .success n m a) ∧
        (s.node.isRunning = false → m = 0) := by
      rw [kind_entered]
      cases hrunning : s.node.isRunning with
      | true =>
        obtain ⟨isFilter, m, a, as, hkind, hm, has, ha⟩ := hs.waits hrunning
        exact ⟨isFilter, m, hkind, hm, fun _ => ⟨a, as, has, ha⟩, nofun⟩
      | false =>
        obtain ⟨isFilter, m, hkind⟩ := hs.kind
        exact ⟨isFilter, 0, by simp [hkind, Kind.onInitialize], Nat.zero_le _, nofun, fun _ => rfl⟩
    rw [← hs.size] at hm
    obtain ⟨k, hvisits, hkind, hsize, hend⟩ := tickNode_sequence hentered hm htick
    rw [hs.size] at hsize hend hm
    obtain ⟨hall, hgoing⟩ := resumes_record (t := s.turn f fuel t.node) (by simp) hs.recorded
      hwaits hzero hvisits rfl hend
    rw [← hrecord] at hall hgoing
    refine ⟨hsize, ⟨_, _, hkind⟩, hall, fun hrunning => ?_⟩
    obtain ⟨a, rest, has, ha⟩ := hgoing (of_decide_eq_true hrunning)
    exact ⟨isFilter, m + k, a, rest, hkind, by omega, has, ha⟩

theorem SequenceRun.onlyTicks {n : Nat} {s : Watched W} (hs : SequenceRun n s) :
    s.node.self.kind.onlyTicks = true := by
  obtain ⟨isFilter, m, hkind⟩ := hs.kind
  rw [hkind]
  rfl

end

/-- In every activation of a `Sequence` the children are ticked in their order, none again after
it has succeeded, every tick goes on from the child that has been left running, and the results
are those of the children; and the activations are those of the run, tick by tick. -/
theorem sequence_resumes {W : Type} (act : String → W → EStatus × W) (b : Behavior)
    (isFilter : Bool) (m_currentChild : Nat)
    (hkind : b.self.kind = .sequence isFilter m_currentChild)
    (hb : b.isRunning = false) (world : World W) (es : List (Watched.Event W)) (t : Watched W)
    (h : run (Watched.step act) ⟨b, world, []⟩ es = some t) :
    (∀ a ∈ t.activations, Resumes .success b.m_children.length a) ∧
      Along (Watched.step act) (Watched.IsRecorded act) ⟨b, world, []⟩ es := by
  have hstart : SequenceRun b.m_children.length (⟨b, world, []⟩ : Watched W) :=
    ⟨rfl, ⟨_, _, hkind⟩, nofun, fun hrunning => by simp [hb] at hrunning⟩
  refine ⟨(run_preserves (fun _ _ _ => SequenceRun.step) h hstart).recorded, ?_⟩
  exact along_of_preserves (E := fun _ => True) (fun _ _ _ hst _ hs => hs.step hst)
    (fun _ e _ hs => Watched.isRecorded_of_onlyTicks hs.onlyTicks e) (fun _ _ => trivial) hstart

open Watched in
/-- Two ticks of an activation, and one of the next. -/
theorem sequence_resumes_door : ∃ t, run (Watched.step scripted)
      ⟨Behavior.ofActions (.sequence false 2) ["door", "key"],
        { env := [.success, .running, .failure, .running] }, []⟩ (ticks 3) = some t ∧
    t.activations.map List.length = [1, 2] ∧ (∀ a ∈ t.activations, Resumes .success 2 a) ∧
    Along (Watched.step scripted) (IsRecorded scripted)
      ⟨Behavior.ofActions (.sequence false 2) ["door", "key"],
        { env := [.success, .running, .failure, .running] }, []⟩ (ticks 3) := by
  have h : run (Watched.step scripted) ⟨Behavior.ofActions (.sequence false 2) ["door", "key"],
    { env := [.success, .running, .failure, .running] }, []⟩ (ticks 3) = some _ := rfl
  exact ⟨_, h, rfl, sequence_resumes scripted _ false 2 rfl (by decide) _ _ _ h⟩

/-! ## Selector -/

theorem Resumes.of_append {go : EStatus} {n : Nat} {a a' : List Turn}
    (h : Resumes go n (a ++ a')) : Resumes go n a := by
  have hvisits : visitsOf (a ++ a') = visitsOf a ++ visitsOf a' := by simp [visitsOf]
  obtain ⟨hticked, hfirst, horder, honce, hstarts, hresult⟩ := h
  rw [hvisits] at hticked hfirst horder honce
  refine ⟨fun v hv => hticked v (List.mem_append_left _ hv), fun v hv => hfirst v ?_,
    (List.isChain_append.mp horder).1, (List.pairwise_append.mp honce).1,
    fun pre t t' hpre => hstarts pre t t' (hpre.trans (List.prefix_append ..)),
    fun pre t hpre => hresult pre t (hpre.trans (List.prefix_append ..))⟩
  cases hvs : visitsOf a with
  | nil => simp [hvs] at hv
  | cons u us => simpa [hvs] using hv

/-- If an activation has gone on from its first child, that one had been left running. -/
theorem Resumes.position_eq_zero {go s : EStatus} {n k : Nat} {a : List Turn} {t t' : Turn}
    {v : Visit} (h : Resumes go n (a ++ [t'])) (ht : a.getLast? = some t)
    (hv : t.visits.getLast? = some v) (hvisits : t'.visits = passage go s 0 k) :
    v.position = 0 := by
  obtain ⟨pre, rfl⟩ := List.getLast?_eq_some_iff.mp ht
  obtain ⟨-, v₁, v₂, h₁, -, h₂, hposition⟩ := h.starts pre t t' (by simp)
  obtain rfl := Option.some.inj (hv.symm.trans h₁)
  rw [hvisits] at h₂
  exact hposition.symm.trans (head_passage h₂)

section

variable {W : Type} {act : String → W → EStatus × W} {f : Tick W} {fuel : Nat}
  {b b' : Behavior} {w w' : World W}

/-- A `Selector` begins with its first child, whatever it has come to. -/
theorem tickNode_selector {m : Nat} (hkind : b.entered.kind = .selector m)
    (h : tickNode act f fuel b w = some (b', w')) :
    ∃ k, visits f fuel b.entered b.m_children w = passage .failure b'.m_status 0 k ∧
      b'.self.kind = .selector m ∧ b'.m_children.length = b.m_children.length ∧
      ((b'.m_status = .failure ∧ k = b.m_children.length) ∨
        (b'.m_status ≠ .failure ∧ k < b.m_children.length)) ∧
      (b'.m_status = .running →
        (k = 0 ↔ ∀ c ∈ b'.m_children.head?, c.isRunning = true)) := by
  obtain ⟨n, cs, u, hupdate, hnode, -, hcs⟩ := tickNode_update h
  have hvisits : visits f fuel b.entered b.m_children w =
      visitsWhile f .failure 0 b.m_children w := by
    simp only [visits, hkind]
  simp only [onUpdate, hkind] at hupdate
  obtain ⟨⟨s, rest, k, u'⟩, hloop, hresult⟩ := Option.bind_eq_some_iff.mp hupdate
  simp only [Option.some.injEq, Prod.mk.injEq] at hresult
  obtain ⟨rfl, rfl, rfl, rfl⟩ := hresult
  obtain ⟨hpassage, hend⟩ := visitsWhile_eq_passage (p := 0) hloop
  rw [if_neg (by simp [hkind, Kind.isParallel])] at hcs
  obtain ⟨-, done, rest', hrest, hk, hdone, hlast⟩ :=
    (Keeps.nothing f).tickWhile hloop (World.clean_nil _) (fun _ _ => trivial)
  refine ⟨k, hvisits.trans hpassage, hnode.trans hkind, ?_, hend, fun hrunning => ?_⟩
  · rw [hcs]
    exact (visited_visitsWhile [] hloop).length_eq
  · rw [hcs, hrest]
    obtain ⟨-, hfailure⟩ | ⟨c, rfl, -, hstatus, -⟩ := hlast
    · cases hrunning.symm.trans hfailure
    · cases done with
      | nil => simpa [← hk, Behavior.isRunning] using hstatus.trans hrunning
      | cons d done =>
        have hd := hdone d List.mem_cons_self
        simp [← hk, Behavior.isRunning, hd]

/-- What the runs of a `Selector` of `n` children keep, whether or not they resume: what is
recorded last is the child that has been left running. -/
structure SelectorRun (n : Nat) (s : Watched W) : Prop where
  size : s.node.m_children.length = n
  kind : ∃ m, s.node.self.kind = .selector m
  waits : s.node.isRunning = true → ∃ t v a as, s.activations = a :: as ∧ a.getLast? = some t ∧
    t.visits.getLast? = some v ∧ (Resumes .failure n a → Waits .failure n v.position a) ∧
    (v.position = 0 ↔ ∀ c ∈ s.node.m_children.head?, c.isRunning = true)

/-- The tick does not go on with an activation in which the child left running has others in
front of it. -/
def RunningFirst (s : Watched W) : Watched.Event W → Prop
  | .tick _ _ =>
    s.node.isRunning = true → ∀ c ∈ s.node.m_children.head?, c.isRunning = true
  | .passes _ => True

theorem SelectorRun.step {n : Nat} {s t : Watched W} {e : Watched.Event W}
    (h : Watched.step act s e = some t) (hs : SelectorRun n s) :
    SelectorRun n t ∧ ((∀ a ∈ t.activations, Resumes .failure n a) →
        (∀ a ∈ s.activations, Resumes .failure n a) ∧ RunningFirst s e) ∧
      ((∀ a ∈ s.activations, Resumes .failure n a) → RunningFirst s e →
        ∀ a ∈ t.activations, Resumes .failure n a) := by
  cases e with
  | passes env =>
    cases h
    exact ⟨⟨hs.size, hs.kind, hs.waits⟩, fun hP => ⟨hP, trivial⟩, fun hP _ => hP⟩
  | tick f fuel =>
    obtain ⟨htick, hrecord⟩ := Watched.step_tick.mp h
    obtain ⟨m, hentered⟩ : ∃ m, s.node.entered.kind = .selector m := by
      obtain ⟨m, hkind⟩ := hs.kind
      rw [kind_entered, hkind]
      split
      · exact ⟨m, rfl⟩
      · exact ⟨0, rfl⟩
    obtain ⟨k, hvisits, hkind, hsize, hend, hhead⟩ := tickNode_selector hentered htick
    rw [hs.size] at hsize hend
    have hend' : (t.node.m_status = .failure ∧ 0 + k = n) ∨
        (t.node.m_status ≠ .failure ∧ 0 + k < n) := by
      simpa using hend
    -- the activation that the tick belongs to, as it has been before
    obtain ⟨a, rest, hturn, hactivations, hbroken, hwaits⟩ : ∃ a rest,
        t.activations = (a ++ [s.turn f fuel t.node]) :: rest ∧
        (a = [] ∧ s.activations = rest ∨ s.activations = a :: rest) ∧
        (Resumes .failure n (a ++ [s.turn f fuel t.node]) → RunningFirst s (.tick f fuel)) ∧
        (Resumes .failure n a → RunningFirst s (.tick f fuel) → Waits .failure n 0 a) := by
      cases hrunning : s.node.isRunning with
      | true =>
        obtain ⟨t₀, v, a, rest, has, hlast, hv, hwaits, hzero⟩ := hs.waits hrunning
        rw [hrunning, has] at hrecord
        refine ⟨a, rest, hrecord, .inr has, fun hR _ => ?_, fun hR hfirst => ?_⟩
        · exact hzero.mp (hR.position_eq_zero hlast hv hvisits)
        · rw [← hzero.mpr (hfirst hrunning)]
          exact hwaits hR
      | false =>
        rw [hrunning, record_entered] at hrecord
        refine ⟨[], s.activations, hrecord, .inl ⟨rfl, rfl⟩, fun _ h => ?_, fun _ _ => .nil⟩
        cases hrunning.symm.trans h
    rw [hturn]
    refine ⟨⟨hsize, ⟨m, hkind⟩, fun hrunning => ?_⟩, fun hP => ?_, fun hP hfirst => ?_⟩
    · have hstatus : t.node.m_status = .running := of_decide_eq_true hrunning
      have hne : t.node.m_status ≠ .failure := by simp [hstatus]
      refine ⟨s.turn f fuel t.node, { position := 0 + k, status := t.node.m_status },
        _, rest, hturn, by simp, ?_, fun hR => ?_, ?_⟩
      · change (visits ..).getLast? = _
        rw [hvisits, last_passage hne]
      · have ha := hwaits hR.of_append (hbroken hR)
        exact ha.append (by simp) hvisits rfl hstatus (hend'.resolve_left fun h => hne h.1).2
      · simpa using hhead hstatus
    · obtain ⟨ha, hrest⟩ := List.forall_mem_cons.mp hP
      refine ⟨?_, hbroken ha⟩
      obtain ⟨-, heq⟩ | heq := hactivations
      · rwa [heq]
      · rw [heq]
        exact List.forall_mem_cons.mpr ⟨ha.of_append, hrest⟩
    · have ha : Resumes .failure n a ∧ ∀ a ∈ rest, Resumes .failure n a := by
        obtain ⟨rfl, heq⟩ | heq := hactivations
        · exact ⟨Waits.nil.resumes, heq ▸ hP⟩
        · exact List.forall_mem_cons.mp (heq ▸ hP)
      refine List.forall_mem_cons.mpr ⟨?_, ha.2⟩
      exact (hwaits ha.1 hfirst).resumes_append (by simp) hvisits rfl hend'

end

/-- A `Selector` resumes where it has stopped in exactly those runs in which nothing but the first
child is ever left running. -/
theorem selector_resumes_iff {W : Type} (act : String → W → EStatus × W) (b : Behavior)
    (m_currentChild : Nat) (hkind : b.self.kind = .selector m_currentChild)
    (hb : b.isRunning = false) (world : World W) (es : List (Watched.Event W)) (t : Watched W)
    (h : run (Watched.step act) ⟨b, world, []⟩ es = some t) :
    (∀ a ∈ t.activations, Resumes .failure b.m_children.length a) ↔
      Along (Watched.step act) RunningFirst ⟨b, world, []⟩ es := by
  refine run_iff_along (I := SelectorRun b.m_children.length)
    (P := fun s => ∀ a ∈ s.activations, Resumes .failure b.m_children.length a)
    (fun s e t hst hs => (hs.step hst).1) (fun s e t hst hs hP => ((hs.step hst).2.1 hP).1)
    (fun s e t hst hs hP => ⟨fun hP' => ((hs.step hst).2.1 hP').2, (hs.step hst).2.2 hP⟩)
    h ⟨rfl, ⟨_, hkind⟩, fun hrunning => ?_⟩ nofun
  cases hb.symm.trans hrunning

open Watched in
/-- The first child is running, then it fails, and the second one succeeds. -/
theorem selector_resumes_iff_door : ∃ t, run (Watched.step scripted)
      ⟨Behavior.ofActions (.selector 2) ["door", "window"],
        { env := [.running, .failure, .success] }, []⟩ (ticks 2) = some t ∧
    ((∀ a ∈ t.activations, Resumes .failure 2 a) ↔
      Along (Watched.step scripted) RunningFirst
        ⟨Behavior.ofActions (.selector 2) ["door", "window"],
          { env := [.running, .failure, .success] }, []⟩ (ticks 2)) := by
  have h : run (Watched.step scripted) ⟨Behavior.ofActions (.selector 2) ["door", "window"],
    { env := [.running, .failure, .success] }, []⟩ (ticks 2) = some _ := rfl
  exact ⟨_, h, selector_resumes_iff scripted _ 2 rfl (by decide) _ _ _ h⟩

open Watched in
/-- The door has failed, and is tried again in the second tick of the same activation. -/
theorem door_tried_again : ∃ t, run (Watched.step scripted)
      ⟨Behavior.ofActions (.selector 2) ["door", "window"],
        { env := [.failure, .running, .failure, .running] }, []⟩ (ticks 2) = some t ∧
    ¬ ∀ a ∈ t.activations, Resumes .failure 2 a := by
  have h : run (Watched.step scripted) ⟨Behavior.ofActions (.selector 2) ["door", "window"],
    { env := [.failure, .running, .failure, .running] }, []⟩ (ticks 2) = some _ := rfl
  refine ⟨_, h, fun hall => ?_⟩
  have honce := (hall _ List.mem_cons_self).once
  revert honce
  decide

end NBRaft.BehaviorTree
