import Mathlib.Tactic.Positivity
import NBRaft.Library.ShortCircuit
import NBRaft.BehaviorTree.DoubleInversion

/-!
# Trees of actions that do not wait

Over actions that succeed or fail at once a tree without `Parallel` is a program: a `Sequence` is a
conjunction, a `Selector` a disjunction, an `Inverter` a negation and a `Repeat` a repetition. Each
tick of the root computes that program, in every run; no cursor, counter or status that an earlier
tick has left behind plays a part. So the laws of the programs are laws of the trees.
-/

namespace NBRaft.BehaviorTree

open ShortCircuit

/-- The status an action or a node comes to at once. -/
def outcome : Bool → EStatus
  | true => .success
  | false => .failure

theorem outcome_injective {a b : Bool} (h : outcome a = outcome b) : a = b := by
  cases a <;> cases b <;> first | rfl | cases h

theorem outcome_ne_running (a : Bool) : outcome a ≠ .running := by
  cases a <;> decide

/-- Every action succeeds or fails at once. -/
def Immediate {W : Type} (act : String → W → EStatus × W) : Prop :=
  ∀ uid env, ∃ r, (act uid env).1 = outcome r

section

variable {W : Type} (act : String → W → EStatus × W)

def Action.program (uid : String) : Program W := fun env =>
  ((act uid env).1 = .success, (act uid env).2)

/-- The program of a node over those of its children, if it has one. -/
def Node.program (n : Node) (ps : List (Program W)) : Option (Program W) :=
  match n.kind with
  | .action => some (Action.program act n.m_uid)
  | .sequence _ _ => some (inOrder true ps)
  | .selector _ | .activeSelector _ => some (inOrder false ps)
  | .parallel _ _ _ => none
  | .inverter =>
    match ps with
    | [p] => some (negate p)
    | _ => none
  | .repeats _ m_limit =>
    match ps with
    | [p] => if 0 ≤ m_limit then some (times m_limit.toNat p) else none
    | _ => none

mutual

/-- The program a tree is, if there is no `Parallel` in it and a limit at every `Repeat`. -/
def Behavior.meaning : Behavior → Option (Program W)
  | .mk n cs => (meanings cs).bind (n.program act)

def Behavior.meanings : List Behavior → Option (List (Program W))
  | [] => some []
  | c :: cs => do
    let p ← c.meaning
    let ps ← meanings cs
    some (p :: ps)

end

/-- Nothing in the tree is running, and this is its program. -/
structure Means (p : Program W) (b : Behavior) : Prop where
  idle : b.Everywhere fun n _ => n.m_status ≠ .running
  meaning : b.meaning act = some p

/-- A tick that computes the program of what is ticked. -/
def Computes (f : Tick W) : Prop :=
  ∀ {p : Program W} {b b' : Behavior} {w w' : World W}, Means act p b → f b w = some (b', w') →
    Means act p b' ∧ b'.m_status = outcome (p w.env).1 ∧ w'.env = (p w.env).2

end

section

variable {W : Type} {act : String → W → EStatus × W} {f : Tick W} {p : Program W}
  {ps : List (Program W)} {b b' : Behavior} {n n' : Node} {cs cs' : List Behavior}
  {w w' : World W} {s : EStatus} {fuel : Nat}

open Behavior

/-- The children, one by one. -/
theorem means_all : List.Forall₂ (Means act) ps cs ↔
    (∀ c ∈ cs, c.Everywhere fun n _ => n.m_status ≠ .running) ∧ meanings act cs = some ps := by
  induction cs generalizing ps with
  | nil =>
    rw [List.forall₂_nil_right_iff, meanings, Option.some.injEq]
    exact ⟨fun h => ⟨nofun, h.symm⟩, fun h => h.2.symm⟩
  | cons c cs ih =>
    simp only [meanings, Option.bind_eq_bind, Option.bind_eq_some_iff, Option.some.injEq,
      List.forall_mem_cons]
    constructor
    · rintro (_ | ⟨hc, hcs⟩)
      obtain ⟨hidle, hps⟩ := ih.mp hcs
      exact ⟨⟨hc.idle, hidle⟩, _, hc.meaning, _, hps, rfl⟩
    · rintro ⟨⟨hc, hcs⟩, p, hp, qs, hqs, rfl⟩
      exact .cons ⟨hc, hp⟩ (ih.mpr ⟨hcs, hqs⟩)

/-- A node over its children. -/
theorem means_mk : Means act p (.mk n cs) ↔ n.m_status ≠ .running ∧
    ∃ ps, List.Forall₂ (Means act) ps cs ∧ n.program act ps = some p := by
  constructor
  · rintro ⟨hidle, hmeaning⟩
    obtain ⟨hself, hbelow⟩ := everywhere_iff.mp hidle
    obtain ⟨ps, hps, hp⟩ := Option.bind_eq_some_iff.mp hmeaning
    exact ⟨hself, ps, means_all.mpr ⟨hbelow, hps⟩, hp⟩
  · rintro ⟨hself, ps, hcs, hp⟩
    obtain ⟨hbelow, hps⟩ := means_all.mp hcs
    refine ⟨everywhere_iff.mpr ⟨hself, hbelow⟩, ?_⟩
    rw [Behavior.meaning, hps]
    exact hp

/-- Cursors, counters and statuses are not part of the program. -/
theorem program_congr (huid : n'.m_uid = n.m_uid)
    (hkind : n'.kind.onInitialize = n.kind.onInitialize) :
    n'.program act ps = n.program act ps := by
  unfold Node.program
  rw [huid]
  cases h : n.kind <;> cases h' : n'.kind <;> rw [h, h'] at hkind <;>
    simp_all [Kind.onInitialize]

/-! ## A tick computes the program -/

theorem Computes.tickWhile (hf : Computes act f) (go : Bool) {k : Nat}
    (hcs : List.Forall₂ (Means act) ps cs)
    (h : tickWhile f (outcome go) cs w = some (s, cs', k, w')) :
    List.Forall₂ (Means act) ps cs' ∧ s = outcome (inOrder go ps w.env).1 ∧
      w'.env = (inOrder go ps w.env).2 := by
  induction hcs generalizing cs' k w with
  | nil =>
    cases h
    exact ⟨.nil, rfl, rfl⟩
  | @cons p c ps cs hc hcs ih =>
    obtain ⟨c', u, hu, ⟨hgo, rfl, rfl, -, rfl⟩ | ⟨cs'', k', hgo, hrest, rfl, -⟩⟩ :=
      tickWhile_cons h
    · obtain ⟨hc', hs, henv⟩ := hf hc hu
      have hne : (p w.env).1 ≠ go := fun hp => hgo (hs.trans (congrArg outcome hp))
      rw [inOrder_cons_of_ne hne]
      exact ⟨.cons hc' hcs, hs, henv⟩
    · obtain ⟨hc', hs, henv⟩ := hf hc hu
      have heq : (p w.env).1 = go := outcome_injective (hs.symm.trans hgo)
      obtain ⟨hcs', hs', henv'⟩ := ih hrest
      rw [inOrder_cons_of_eq heq, ← henv]
      exact ⟨.cons hc' hcs', hs', henv'⟩

theorem Computes.repeatLoop (hf : Computes act f) {m_limit m_conunter m_conunter' : Int}
    {c c' : Behavior} (hlimit : 0 ≤ m_limit) (hc : Means act p c)
    (h : repeatLoop f m_limit fuel m_conunter c w = some (s, m_conunter', c', w')) :
    Means act p c' ∧ s = outcome (times (m_limit - m_conunter).toNat p w.env).1 ∧
      w'.env = (times (m_limit - m_conunter).toNat p w.env).2 := by
  induction fuel generalizing m_conunter c w with
  | zero => cases h
  | succ fuel ih =>
    obtain ⟨hdone, rfl, -, rfl, rfl⟩ | ⟨hmore, c'', u, hu, hcases⟩ := repeatLoop_succ h
    · have hzero : (m_limit - m_conunter).toNat = 0 := by omega
      rw [hzero]
      exact ⟨hc, rfl, rfl⟩
    · obtain ⟨hc'', hs, henv⟩ := hf hc hu
      have hsucc : (m_limit - m_conunter).toNat = (m_limit - (m_conunter + 1)).toNat + 1 := by
        omega
      rw [hsucc]
      obtain ⟨hstop, hstatus, -, rfl, rfl⟩ | ⟨-, hfailure, hrest⟩ := hcases
      · -- it has not gone on running, so it has failed
        have hfalse : (p w.env).1 = false := by
          cases hp : (p w.env).1 with
          | false => rfl
          | true => simp_all [outcome]
        rw [times_succ_of_false hfalse]
        exact ⟨hc'', hstatus ▸ hs, henv⟩
      · have htrue : (p w.env).1 = true := by
          cases hp : (p w.env).1 with
          | true => rfl
          | false => exact absurd (hs.trans (congrArg outcome hp)) hfailure
        rw [times_succ_of_true htrue, ← henv]
        exact ih hc'' hrest

/-- An update of a node that starts anew computes the program of the node. -/
theorem Computes.update (hf : Computes act f) (himmediate : Immediate act)
    (hanew : n.kind.onInitialize = n.kind) (hcs : List.Forall₂ (Means act) ps cs)
    (hp : n.program act ps = some p) (h : Update act f fuel n cs w s n' cs' w') :
    List.Forall₂ (Means act) ps cs' ∧ n'.program act ps = some p ∧
      s = outcome (p w.env).1 ∧ w'.env = (p w.env).2 := by
  cases h with
  | action hkind =>
    obtain rfl : Action.program act n.m_uid = p := by simpa [Node.program, hkind] using hp
    obtain ⟨r, hr⟩ := himmediate n.m_uid w.env
    refine ⟨hcs, hp, ?_, rfl⟩
    cases r <;> simp [Action.program, hr, outcome]
  | @sequence isFilter m_currentChild k _ rest _ hkind hloop =>
    obtain rfl : inOrder true ps = p := by simpa [Node.program, hkind] using hp
    obtain rfl : m_currentChild = 0 := by simpa [hkind, Kind.onInitialize, eq_comm] using hanew
    obtain ⟨hcs', hs, henv⟩ := hf.tickWhile true hcs hloop
    refine ⟨by simpa using hcs', ?_, hs, henv⟩
    rw [← hp]
    exact program_congr rfl (by simp [hkind, Kind.onInitialize])
  | selector hkind hloop =>
    obtain rfl : inOrder false ps = p := by simpa [Node.program, hkind] using hp
    obtain ⟨hcs', hs, henv⟩ := hf.tickWhile false hcs hloop
    refine ⟨hcs', hp, hs, ?_⟩
    simpa [Selector.stopsAt] using henv
  | @activeSelector prev k _ rest _ _ hkind hloop hprev =>
    obtain rfl : inOrder false ps = p := by simpa [Node.program, hkind] using hp
    obtain rfl : prev = 0 := by simpa [hkind, Kind.onInitialize, eq_comm] using hanew
    obtain ⟨hcs', hs, henv⟩ := hf.tickWhile false hcs hloop
    obtain rfl : cs' = rest := hprev.resolve_right fun hne => hne.1 rfl
    refine ⟨hcs', ?_, hs, ?_⟩
    · rw [← hp]
      exact program_congr rfl (by simp [Node.onInitialize, hkind, Kind.onInitialize])
    · simpa [Selector.stopsAt] using henv
  | parallel hkind => simp [Node.program, hkind] at hp
  | @inverter c c' _ hkind hone hc =>
    subst hone
    obtain ⟨q, rfl⟩ : ∃ q, ps = [q] := by
      cases hcs with
      | cons _ hnil =>
        cases hnil
        exact ⟨_, rfl⟩
    obtain rfl : negate q = p := by simpa [Node.program, hkind] using hp
    obtain ⟨hc', hs, henv⟩ := hf (List.forall₂_cons.mp hcs).1 hc
    refine ⟨.cons hc' .nil, hp, ?_, henv⟩
    rw [← Behavior.inverse_m_status, hs]
    cases hq : (q w.env).1 <;> simp [negate, hq, outcome, EStatus.inverse]
  | @repeats m_conunter m_conunter' m_limit _ c c' _ hkind hone hloop =>
    subst hone
    obtain ⟨q, rfl⟩ : ∃ q, ps = [q] := by
      cases hcs with
      | cons _ hnil =>
        cases hnil
        exact ⟨_, rfl⟩
    obtain ⟨hlimit, rfl⟩ : 0 ≤ m_limit ∧ times m_limit.toNat q = p := by
      simpa [Node.program, hkind] using hp
    obtain rfl : m_conunter = 0 := by simpa [hkind, Kind.onInitialize, eq_comm] using hanew
    obtain ⟨hc', hs, henv⟩ := hf.repeatLoop hlimit (List.forall₂_cons.mp hcs).1 hloop
    rw [Int.sub_zero] at hs henv
    refine ⟨.cons hc' .nil, ?_, hs, henv⟩
    rw [← hp]
    exact program_congr rfl (by simp [hkind, Kind.onInitialize])

/-- What is not running starts anew, so every tick computes the same program. -/
theorem computes_tick (himmediate : Immediate act) (fuel : Nat) :
    Computes act (tick act fuel) := by
  induction fuel with
  | zero => exact fun _ h => nomatch h
  | succ fuel ih =>
    intro p b b' w w' hb h
    obtain ⟨n₀, cs₀⟩ := b
    obtain ⟨hidle, ps, hcs, hp⟩ := means_mk.mp hb
    have hnot : Behavior.isRunning (.mk n₀ cs₀) = false := decide_eq_false hidle
    obtain ⟨s, n, cs, u, hupdate, hcases⟩ := tick_succ h
    rw [hnot] at hupdate
    have hanew : n₀.onInitialize.kind.onInitialize = n₀.onInitialize.kind :=
      onInitialize_onInitialize n₀.kind
    have hp₀ : n₀.onInitialize.program act ps = some p := by
      rw [← hp]
      exact program_congr rfl hanew
    obtain ⟨hcs', hp', hs, henv⟩ :=
      ih.update himmediate hanew hcs hp₀ (update_of_onUpdate hupdate)
    have hkind : n.kind.isParallel = false := by
      cases hk : n.kind <;> first | rfl | simp [Node.program, hk] at hp'
    obtain ⟨hrunning, -, -⟩ | ⟨hrunning, rfl, rfl⟩ := hcases
    · exact absurd (hs.symm.trans hrunning) (outcome_ne_running _)
    · have hterminated : (Behavior.mk { n with m_status := s } cs).onTerminate =
          .mk { n with m_status := s, hooks := n.hooks ++ [.onTerminate] } cs := by
        simp [Behavior.onTerminate, hkind]
      rw [hterminated]
      refine ⟨means_mk.mpr ⟨hrunning, ps, hcs', ?_⟩, hs, ?_⟩
      · rw [← hp']
        exact program_congr rfl rfl
      · simpa using henv

/-! ## Runs -/

mutual

/-- A tree that has a program is one whose ticks return. -/
theorem decorated_of_meaning : {p : Program W} → (b : Behavior) → b.meaning act = some p →
    b.Decorated ∧ b.Limited
  | p, .mk n cs, h => by
    obtain ⟨ps, hps, hp⟩ := Option.bind_eq_some_iff.mp h
    obtain ⟨hlength, hcs⟩ := decorated_of_meanings cs hps
    refine ⟨everywhere_iff.mpr ⟨fun hkind => ?_, fun c hc => (hcs c hc).1⟩,
      everywhere_iff.mpr ⟨fun m_conunter m_limit hkind => ?_, fun c hc => (hcs c hc).2⟩⟩
    · change n.kind.getType = _ at hkind
      change cs.length = 1
      rw [hlength]
      unfold Node.program at hp
      split at hp <;> simp_all [Kind.getType] <;> split at hp <;> simp_all
    · change n.kind = _ at hkind
      simp only [Node.program, hkind] at hp
      split at hp
      · split_ifs at hp with hlimit
        exact hlimit
      · cases hp

theorem decorated_of_meanings : {ps : List (Program W)} → (cs : List Behavior) →
    meanings act cs = some ps →
      cs.length = ps.length ∧ ∀ c ∈ cs, c.Decorated ∧ c.Limited
  | ps, [], h => by
    obtain rfl := Option.some.inj h
    exact ⟨rfl, nofun⟩
  | ps, c :: cs, h => by
    obtain ⟨p, hp, h⟩ := Option.bind_eq_some_iff.mp h
    obtain ⟨qs, hqs, h⟩ := Option.bind_eq_some_iff.mp h
    obtain rfl := Option.some.inj h
    obtain ⟨hlength, hcs⟩ := decorated_of_meanings cs hqs
    refine ⟨by simp [hlength], List.forall_mem_cons.mpr ⟨decorated_of_meaning c hp, hcs⟩⟩

end

theorem Means.returns (hb : Means act p b) (w : World W) : Returns act b w := by
  obtain ⟨hdecorated, hlimited⟩ := decorated_of_meaning b hb.meaning
  obtain ⟨height, hbuilt⟩ := exists_built b hdecorated hlimited
  exact hbuilt.returns_of_limited

end

/-- What a run of the program shows: its outcomes, the worlds that it leaves, and the actions ticked
until then. -/
def shows {W : Type} (p : Program (W × List String)) (env : W × List String)
    (changes : List (W → W)) : List (EStatus × W × List String) :=
  (play p env (changes.map fun change => Prod.map change id)).map (Prod.map outcome id)

section

variable {W : Type} {act : String → W → EStatus × W} {p : Program (W × List String)}
  {b b' : Behavior}

theorem Immediate.logged (h : Immediate act) : Immediate (logged act) :=
  fun uid env => h uid env.1

theorem Means.transcript_iff (himmediate : Immediate act) (hb : Means (logged act) p b)
    (w : World (W × List String)) (changes : List (W → W))
    (shown : List (EStatus × W × List String)) :
    Transcript act b w changes shown ↔ shown = shows p w.env changes := by
  induction changes generalizing b w shown with
  | nil =>
    constructor
    · rintro ⟨⟩
      rfl
    · rintro rfl
      exact .done
  | cons change changes ih =>
    have htick : ∀ b' w', Ticks (logged act) b
        { w with env := (change w.env.1, w.env.2) } b' w' →
          Means (logged act) p b' ∧ b'.m_status = outcome (p (change w.env.1, w.env.2)).1 ∧
            w'.env = (p (change w.env.1, w.env.2)).2 :=
      fun b' w' ⟨fuel, h⟩ => computes_tick himmediate.logged fuel hb h
    constructor
    · intro h
      cases h with
      | tick hticks hrest =>
        obtain ⟨hb', hs, henv⟩ := htick _ _ hticks
        rw [(ih hb' _ _).mp hrest, hs, henv]
        rfl
    · rintro rfl
      obtain ⟨b', w', hticks⟩ := hb.returns { w with env := (change w.env.1, w.env.2) }
      obtain ⟨hb', hs, henv⟩ := htick b' w' hticks
      have hrest := (ih hb' w' _).mpr rfl
      have hshown : shows p w.env (change :: changes) =
          (b'.m_status, w'.env) :: shows p w'.env changes := by
        rw [hs, henv]
        rfl
      rw [hshown]
      exact .tick hticks hrest

/-- Over actions that succeed or fail at once every run of a tree without `Parallel`, from any state
in which no node is running, is a run of its program: each tick comes to the outcome of the program
in the world it finds, ticks the actions that it comes to, and leaves the world it leaves. -/
theorem transcript_iff_shows {W : Type} (act : String → W → EStatus × W)
    (himmediate : Immediate act) (b : Behavior)
    (hidle : b.Everywhere fun n _ => n.m_status ≠ .running) (p : Program (W × List String))
    (hp : b.meaning (logged act) = some p) (env : W) (changes : List (W → W))
    (shown : List (EStatus × W × List String)) :
    Transcript act b { env := (env, []) } changes shown ↔ shown = shows p (env, []) changes :=
  Means.transcript_iff himmediate ⟨hidle, hp⟩ _ changes shown

/-- Conditions that hold when they are listed. -/
def listed (uid : String) (env : List String) : EStatus × List String :=
  (outcome (decide (uid ∈ env)), env)

theorem immediate_listed : Immediate listed := fun _ _ => ⟨_, rfl⟩

/-- Enter if the door is not locked, or with the key. -/
theorem transcript_iff_shows_door :
    Transcript listed (CompositeClass.selector.over "enter"
        [DecoratorClass.inverter.over "open" (Tree.action "locked").toBehavior,
          (Tree.action "key").toBehavior]) { env := ([], []) }
      [id, fun _ => ["locked"], fun _ => ["locked", "key"]]
      [(.success, [], ["locked"]), (.failure, ["locked"], ["locked", "locked", "key"]),
        (.success, ["locked", "key"], ["locked", "locked", "key", "locked", "key"])] :=
  (transcript_iff_shows listed immediate_listed _
    (by simp [Behavior.Everywhere, CompositeClass.over, DecoratorClass.over, Behavior.nodes,
      Behavior.nodesBelow, Tree.toBehavior, CompositeClass.node, DecoratorClass.node])
    _ rfl [] _ _).mpr (by decide)

/-- Trees of one program show the same in every run. -/
theorem transcript_iff_of_means (himmediate : Immediate act) (hb : Means (logged act) p b)
    (hb' : Means (logged act) p b') (env : W) (changes : List (W → W))
    (shown : List (EStatus × W × List String)) :
    Transcript act b { env := (env, []) } changes shown ↔
      Transcript act b' { env := (env, []) } changes shown := by
  rw [hb.transcript_iff himmediate, hb'.transcript_iff himmediate]

/-! ## Laws of the trees -/

/-- The classes that go on after the outcome `go`. -/
def CompositeClass.GoesOn (c : CompositeClass) (go : Bool) : Prop :=
  (go = true ∧ (c = .sequence ∨ c = .filter)) ∨
    (go = false ∧ (c = .selector ∨ c = .activeSelector))

section

variable {act : String → W → EStatus × W} {p : Program W} {ps : List (Program W)}
  {cs : List Behavior} {c : Behavior}

theorem means_composite {d : CompositeClass} {go : Bool} (hd : d.GoesOn go) (uid : String)
    (hcs : List.Forall₂ (Means act) ps cs) : Means act (inOrder go ps) (d.over uid cs) := by
  refine means_mk.mpr ⟨by simp [CompositeClass.node], ps, hcs, ?_⟩
  obtain ⟨rfl, rfl | rfl⟩ | ⟨rfl, rfl | rfl⟩ := hd <;> rfl

theorem means_inverter (uid : String) (hc : Means act p c) :
    Means act (negate p) (DecoratorClass.inverter.over uid c) :=
  means_mk.mpr ⟨by simp [DecoratorClass.node], [p], .cons hc .nil, rfl⟩

theorem means_repeats (uid : String) {limit : Int} (hlimit : 0 ≤ limit) (hc : Means act p c) :
    Means act (times limit.toNat p) ((DecoratorClass.repeats limit).over uid c) := by
  refine means_mk.mpr ⟨by simp [DecoratorClass.node], [p], .cons hc .nil, ?_⟩
  simp [Node.program, DecoratorClass.node, hlimit]

theorem exists_means (hcs : ∀ c ∈ cs, (c.Everywhere fun n _ => n.m_status ≠ .running) ∧
    (c.meaning act).isSome = true) : ∃ ps, List.Forall₂ (Means act) ps cs := by
  induction cs with
  | nil => exact ⟨[], .nil⟩
  | cons c cs ih =>
    obtain ⟨⟨hidle, hmeaning⟩, hrest⟩ := List.forall_mem_cons.mp hcs
    obtain ⟨p, hp⟩ := Option.isSome_iff_exists.mp hmeaning
    obtain ⟨ps, hps⟩ := ih hrest
    exact ⟨p :: ps, .cons ⟨hidle, hp⟩ hps⟩

end

/-- De Morgan's laws: over actions that succeed or fail at once an `Inverter` over a `Sequence`
shows in every run what a `Selector` over `Inverter`s shows, and the other way round, with a
`Filter` for the `Sequence` and an `ActiveSelector` for the `Selector` too. -/
theorem inverter_composite {W : Type} (act : String → W → EStatus × W)
    (himmediate : Immediate act) (uid uid' : String) (cs : List Behavior)
    (hcs : ∀ c ∈ cs, (c.Everywhere fun n _ => n.m_status ≠ .running) ∧
      (c.meaning (logged act)).isSome = true)
    (c d : CompositeClass) (go : Bool) (hc : c.GoesOn go) (hd : d.GoesOn !go)
    (env : W) (changes : List (W → W)) (shown : List (EStatus × W × List String)) :
    Transcript act (DecoratorClass.inverter.over uid (c.over uid' cs)) { env := (env, []) }
        changes shown ↔
      Transcript act (d.over uid (cs.map (DecoratorClass.inverter.over uid')))
        { env := (env, []) } changes shown := by
  obtain ⟨ps, hps⟩ := exists_means hcs
  have hinverted : List.Forall₂ (Means (logged act)) (ps.map negate)
      (cs.map (DecoratorClass.inverter.over uid')) := by
    rw [List.forall₂_map_left_iff, List.forall₂_map_right_iff]
    exact hps.imp fun _ _ h => means_inverter uid' h
  refine transcript_iff_of_means himmediate ?_ (means_composite hd uid hinverted) env changes shown
  rw [← negate_inOrder]
  exact means_inverter uid (means_composite hc uid' hps)

/-- There is no rain with wind: either there is no rain, or no wind. -/
theorem inverter_composite_weather : Transcript listed (CompositeClass.selector.over "not"
      [DecoratorClass.inverter.over "both" (Tree.action "rain").toBehavior,
        DecoratorClass.inverter.over "both" (Tree.action "wind").toBehavior]) { env := ([], []) }
    [fun _ => ["rain"]] [(.success, ["rain"], ["rain", "wind"])] := by
  have hidle : ∀ c ∈ [(Tree.action "rain").toBehavior, (Tree.action "wind").toBehavior],
      (c.Everywhere fun n _ => n.m_status ≠ .running) ∧
        (c.meaning (logged listed)).isSome = true := by
    intro c hc
    rw [List.mem_pair] at hc
    rcases hc with rfl | rfl <;>
      exact ⟨by simp [Behavior.Everywhere, Behavior.nodes, Behavior.nodesBelow, Tree.toBehavior],
        rfl⟩
  obtain ⟨ps, hps⟩ := exists_means hidle
  have hboth : (Behavior.meanings (logged listed)
      [(Tree.action "rain").toBehavior, (Tree.action "wind").toBehavior]) = some ps :=
    (means_all.mp hps).2
  obtain rfl := Option.some.inj hboth
  refine (inverter_composite listed immediate_listed "not" "both" _ hidle .sequence .selector true
    (.inl ⟨rfl, .inl rfl⟩) (.inr ⟨rfl, .inl rfl⟩) [] _ _).mp ?_
  exact ((means_inverter "not" (means_composite (.inl ⟨rfl, .inl rfl⟩) "both" hps)).transcript_iff
    immediate_listed _ _ _).mpr (by decide)

/-- A `Repeat` over a `Repeat` shows what one `Repeat` with the product of their limits shows, and
what a `Sequence` over so many copies of the child does. -/
theorem repeat_repeat {W : Type} (act : String → W → EStatus × W) (himmediate : Immediate act)
    (uid uid' : String) (t : Behavior) (hidle : t.Everywhere fun n _ => n.m_status ≠ .running)
    (ht : (t.meaning (logged act)).isSome = true) (n m : Nat) (env : W)
    (changes : List (W → W)) (shown : List (EStatus × W × List String)) :
    (Transcript act ((DecoratorClass.repeats n).over uid ((DecoratorClass.repeats m).over uid' t))
        { env := (env, []) } changes shown ↔
      Transcript act ((DecoratorClass.repeats (n * m)).over uid t) { env := (env, []) }
        changes shown) ∧
    (Transcript act ((DecoratorClass.repeats (n * m)).over uid t) { env := (env, []) }
        changes shown ↔
      Transcript act (CompositeClass.sequence.over uid (List.replicate (n * m) t))
        { env := (env, []) } changes shown) := by
  obtain ⟨p, hp⟩ := Option.isSome_iff_exists.mp ht
  have hmeans : Means (logged act) p t := ⟨hidle, hp⟩
  have hproduct : Means (logged act) (times (n * m) p)
      ((DecoratorClass.repeats (n * m)).over uid t) := by
    have hboth := means_repeats uid (show (0 : Int) ≤ n * m by positivity) hmeans
    rwa [← Int.natCast_mul, Int.toNat_natCast] at hboth
  constructor
  · refine transcript_iff_of_means himmediate ?_ hproduct env changes shown
    rw [← times_times]
    exact means_repeats uid (Int.natCast_nonneg n)
      (means_repeats uid' (Int.natCast_nonneg m) hmeans)
  · refine transcript_iff_of_means himmediate hproduct ?_ env changes shown
    have hcopies : List.Forall₂ (Means (logged act)) (List.replicate (n * m) p)
        (List.replicate (n * m) t) := by
      induction n * m with
      | zero => exact .nil
      | succ k ih => exact .cons hmeans ih
    exact means_composite (d := .sequence) (.inl ⟨rfl, .inl rfl⟩) uid hcopies

/-- Three times twice, without a break. -/
theorem repeat_repeat_knock : Transcript listed
    ((DecoratorClass.repeats (3 * 2)).over "all" (Tree.action "knock").toBehavior)
    { env := ([], []) } [fun _ => ["knock"]] [(.success, ["knock"], List.replicate 6 "knock")] := by
  have hidle : (Tree.action "knock").toBehavior.Everywhere fun n _ => n.m_status ≠ .running := by
    simp [Behavior.Everywhere, Behavior.nodes, Behavior.nodesBelow, Tree.toBehavior]
  have hmeans : Means (logged listed) (Action.program (logged listed) "knock")
      (Tree.action "knock").toBehavior := ⟨hidle, rfl⟩
  have hnested := means_repeats "all" (show (0 : Int) ≤ (3 : Nat) by decide)
    (means_repeats "each" (show (0 : Int) ≤ (2 : Nat) by decide) hmeans)
  exact (repeat_repeat listed immediate_listed "all" "each" (Tree.action "knock").toBehavior hidle
    rfl 3 2 [] _ _).1.mp ((hnested.transcript_iff immediate_listed _ _ _).mpr (by decide))

end

end NBRaft.BehaviorTree
