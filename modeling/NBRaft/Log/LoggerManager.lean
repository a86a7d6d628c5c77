import NBRaft.Library.Threads
import NBRaft.Library.Transition

/-!
# The loggers by name

`LoggerManager::getLogger`, and `AsyncLoggerManager::getLogger`, which is the same for loggers of
the other kind: under a spin lock the name is looked up, and a logger is made and entered for a
name that is not found. Any number of threads call it, and each access to the flag of the lock
and to the map is a step.
-/

namespace NBRaft.Log

open Transition Threads

/-- `SpinLock`. -/
structure SpinLock where
  flag : Bool := false
  deriving DecidableEq, Repr

namespace SpinLock

/-- `flag.test_and_set`, and what it returns. -/
def testAndSet (m : SpinLock) : Bool × SpinLock := (m.flag, { flag := true })

theorem testAndSet_of_flag {m : SpinLock} (h : m.flag = true) : m.testAndSet.2 = m := by
  cases m
  cases h
  rfl

/-- `unlock`. -/
def clear (_ : SpinLock) : SpinLock := { flag := false }

end SpinLock

namespace LoggerManager

abbrev Addr := Nat

/-- Where a thread is in `getLogger`. -/
inductive Pc where
  | idle
  /-- In the loop of `lock`. -/
  | locking (name : String)
  | finding (name : String)
  | creating (name : String)
  | inserting (name : String) (logger : Addr)
  | unlocking (name : String) (logger : Addr)
  deriving DecidableEq, Repr

inductive Event where
  | getLogger (tid : Nat) (name : String)
  | advance (tid : Nat)
  /-- `new Logger(name)`, at this address. -/
  | create (tid : Nat) (addr : Addr)
  deriving DecidableEq, Repr

end LoggerManager

open LoggerManager

/-- `m_name` gives the loggers that have been made, by their names; `returned` is what the calls
have returned. -/
structure LoggerManager where
  m_mutex : SpinLock := {}
  m_loggers : String → Option Addr := fun _ => none
  m_name : Addr → Option String := fun _ => none
  threads : Nat → Pc := fun _ => .idle
  returned : List (String × Addr) := []

namespace LoggerManager

def goto (tid : Nat) (pc : Pc) (m : LoggerManager) : LoggerManager :=
  { m with threads := Function.update m.threads tid pc }

def advance (tid : Nat) (m : LoggerManager) : Pc → Option LoggerManager
  | .locking name =>
    let (wasSet, m_mutex) := m.m_mutex.testAndSet
    let m := { m with m_mutex := m_mutex }
    if wasSet then some m else some (m.goto tid (.finding name))
  | .finding name =>
    match m.m_loggers name with
    | some logger => some (m.goto tid (.unlocking name logger))
    | none => some (m.goto tid (.creating name))
  | .inserting name logger =>
    some ({ m with m_loggers := Function.update m.m_loggers name (some logger) }.goto tid
      (.unlocking name logger))
  | .unlocking name logger =>
    some ({ m with
      m_mutex := m.m_mutex.clear
      returned := m.returned ++ [(name, logger)] }.goto tid .idle)
  | .idle | .creating _ => none

def step (m : LoggerManager) : Event → Option LoggerManager
  | .getLogger tid name =>
    match m.threads tid with
    | .idle => some (m.goto tid (.locking name))
    | _ => none
  | .advance tid => m.advance tid (m.threads tid)
  | .create tid addr =>
    match m.threads tid, m.m_name addr with
    | .creating name, none =>
      some ({ m with m_name := Function.update m.m_name addr (some name) }.goto tid
        (.inserting name addr))
    | _, _ => none

/-! ## What a step can do -/

inductive Move (m : LoggerManager) : LoggerManager → Prop where
  | call {tid : Nat} {name : String} : m.threads tid = .idle → Move m (m.goto tid (.locking name))
  | spin : m.m_mutex.flag = true → Move m m
  | lock {tid : Nat} {name : String} : m.threads tid = .locking name → m.m_mutex.flag = false →
    Move m ({ m with m_mutex := { flag := true } }.goto tid (.finding name))
  | found {tid : Nat} {name : String} {logger : Addr} : m.threads tid = .finding name →
    m.m_loggers name = some logger → Move m (m.goto tid (.unlocking name logger))
  | missing {tid : Nat} {name : String} : m.threads tid = .finding name →
    m.m_loggers name = none → Move m (m.goto tid (.creating name))
  | create {tid : Nat} {name : String} {addr : Addr} : m.threads tid = .creating name →
    m.m_name addr = none →
      Move m ({ m with m_name := Function.update m.m_name addr (some name) }.goto tid
        (.inserting name addr))
  | insert {tid : Nat} {name : String} {logger : Addr} : m.threads tid = .inserting name logger →
    Move m ({ m with m_loggers := Function.update m.m_loggers name (some logger) }.goto tid
      (.unlocking name logger))
  | unlock {tid : Nat} {name : String} {logger : Addr} : m.threads tid = .unlocking name logger →
    Move m ({ m with
      m_mutex := { flag := false }
      returned := m.returned ++ [(name, logger)] }.goto tid .idle)

variable {m m' : LoggerManager} {e : Event} {tid : Nat} {pc : Pc}

theorem move_of_advance (hpc : m.threads tid = pc) (h : m.advance tid pc = some m') :
    Move m m' := by
  cases pc with
  | locking name =>
    simp only [advance] at h
    split_ifs at h with hflag <;> cases h
    · have hsame : m.m_mutex.testAndSet.2 = m.m_mutex := SpinLock.testAndSet_of_flag hflag
      rw [hsame]
      exact .spin hflag
    · exact .lock hpc (Bool.eq_false_iff.mpr hflag)
  | finding name =>
    simp only [advance] at h
    split at h <;> rename_i hfind <;> cases h
    · exact .found hpc hfind
    · exact .missing hpc hfind
  | inserting name logger =>
    cases h
    exact .insert hpc
  | unlocking name logger =>
    cases h
    exact .unlock hpc
  | idle | creating => cases h

/-- Every step is one of these. -/
theorem move_of_step (h : m.step e = some m') : Move m m' := by
  cases e with
  | getLogger tid name =>
    simp only [step] at h
    split at h
    · rename_i hidle
      cases h
      exact .call hidle
    · cases h
  | advance tid => exact move_of_advance rfl h
  | create tid addr =>
    simp only [step] at h
    split at h
    · rename_i name hpc hfree
      cases h
      exact .create hpc hfree
    · cases h

/-! ## What the calls keep -/

def Pc.isInside : Pc → Bool
  | .idle | .locking _ => false
  | _ => true

/-- What a thread inside knows of the map and of the loggers. -/
def Pc.Knows (m_loggers : String → Option Addr) (m_name : Addr → Option String) : Pc → Prop
  | .creating name => m_loggers name = none
  | .inserting name logger => m_loggers name = none ∧ m_name logger = some name
  | .unlocking name logger => m_loggers name = some logger
  | _ => True

theorem Pc.knows_of_outside {m_loggers : String → Option Addr} {m_name : Addr → Option String}
    (h : pc.isInside = false) : pc.Knows m_loggers m_name := by
  cases pc with
  | idle | locking => trivial
  | _ => cases h

structure Sound (m : LoggerManager) : Prop where
  mutex : ∃ owner : Option Nat, Listed Pc.isInside m.threads owner.toList ∧
    m.m_mutex.flag = owner.isSome
  knows : ∀ tid, (m.threads tid).Knows m.m_loggers m.m_name
  named : ∀ name logger, m.m_loggers name = some logger → m.m_name logger = some name
  /-- A logger is in the map, or about to be entered. -/
  placed : ∀ name logger, m.m_name logger = some name → m.m_loggers name = some logger ∨
    ∃ tid, m.threads tid = .inserting name logger
  returned : ∀ name logger, (name, logger) ∈ m.returned → m.m_loggers name = some logger

theorem sound_initial : ({} : LoggerManager).Sound where
  mutex := ⟨none, ⟨List.nodup_nil, fun i => by simp [Pc.isInside]⟩, rfl⟩
  knows _ := trivial
  named := nofun
  placed := nofun
  returned := nofun

/-- Two threads are never inside at once. -/
theorem Sound.exclusive (hm : m.Sound) {i j : Nat} (hi : (m.threads i).isInside = true)
    (hj : (m.threads j).isInside = true) : i = j := by
  obtain ⟨owner, hlisted, -⟩ := hm.mutex
  exact hlisted.exclusive hi hj

/-- The thread inside goes on: what the others know is nothing. -/
theorem Sound.knows_update (hm : m.Sound) (hin : (m.threads tid).isInside = true)
    {m_loggers : String → Option Addr} {m_name : Addr → Option String}
    (hpc : pc.Knows m_loggers m_name) (t : Nat) :
    (Function.update m.threads tid pc t).Knows m_loggers m_name := by
  by_cases ht : t = tid
  · subst ht
    rwa [Function.update_self]
  · rw [Function.update_of_ne ht]
    apply Pc.knows_of_outside
    rw [Bool.eq_false_iff]
    intro h
    exact ht (hm.exclusive h hin)

/-- A logger that some thread is about to enter is one that another thread does not touch. -/
theorem Sound.placed_update (hm : m.Sound) {m_loggers : String → Option Addr}
    {name : String} {logger : Addr} (hne : m.threads tid ≠ .inserting name logger)
    (hkeep : m.m_loggers name = some logger → m_loggers name = some logger)
    (h : m.m_name logger = some name) : m_loggers name = some logger ∨
      ∃ t, Function.update m.threads tid pc t = .inserting name logger := by
  rcases hm.placed name logger h with hin | ⟨t, ht⟩
  · exact .inl (hkeep hin)
  · exact .inr ⟨t, update_of (P := (· = Pc.inserting name logger)) hne ht⟩

theorem Move.sound (h : Move m m') (hm : m.Sound) : m'.Sound := by
  obtain ⟨owner, hlisted, hflag⟩ := hm.mutex
  cases h with
  | spin => exact hm
  | @call tid name hidle =>
    exact ⟨⟨owner, hlisted.keep (by rw [hidle]; rfl), hflag⟩,
      (forall_update_iff_of_forall hm.knows).mpr trivial, hm.named,
      fun n l => hm.placed_update (by rw [hidle]; nofun) id, hm.returned⟩
  | @lock tid name hpc hfree =>
    obtain rfl : owner = none := by
      cases owner
      · rfl
      · cases hfree.symm.trans hflag
    exact ⟨⟨some tid, hlisted.lock rfl, rfl⟩,
      (forall_update_iff_of_forall hm.knows).mpr trivial, hm.named,
      fun n l => hm.placed_update (by rw [hpc]; nofun) id, hm.returned⟩
  | found hpc hfind =>
    exact ⟨⟨owner, hlisted.keep (by rw [hpc]; rfl), hflag⟩,
      hm.knows_update (by rw [hpc]; rfl) hfind, hm.named,
      fun n l => hm.placed_update (by rw [hpc]; nofun) id, hm.returned⟩
  | missing hpc hfind =>
    exact ⟨⟨owner, hlisted.keep (by rw [hpc]; rfl), hflag⟩,
      hm.knows_update (by rw [hpc]; rfl) hfind, hm.named,
      fun n l => hm.placed_update (by rw [hpc]; nofun) id, hm.returned⟩
  | @create tid name addr hpc hfree =>
    have hknows := hm.knows tid
    rw [hpc] at hknows
    have hname : ∀ {l n}, m.m_name l = some n → l ≠ addr := by
      rintro l n hl rfl
      cases hfree.symm.trans hl
    refine ⟨⟨owner, hlisted.keep (by rw [hpc]; rfl), hflag⟩,
      hm.knows_update (by rw [hpc]; rfl) ⟨hknows, Function.update_self ..⟩, fun n l hl => ?_,
      fun n l hl => ?_, hm.returned⟩
    · have hl := hm.named n l hl
      exact (Function.update_of_ne (hname hl) ..).trans hl
    · by_cases hne : l = addr
      · subst hne
        simp only [goto, Function.update_self, Option.some.injEq] at hl
        subst hl
        exact .inr ⟨tid, Function.update_self ..⟩
      · simp only [goto, Function.update_of_ne hne] at hl
        exact hm.placed_update (by rw [hpc]; nofun) id hl
  | @insert tid name logger hpc =>
    have hknows := hm.knows tid
    rw [hpc] at hknows
    obtain ⟨hnone, hname⟩ := hknows
    have hkeep : ∀ {n l}, m.m_loggers n = some l →
        Function.update m.m_loggers name (some logger) n = some l := by
      intro n l hl
      have hne : n ≠ name := by
        rintro rfl
        cases hnone.symm.trans hl
      rwa [Function.update_of_ne hne]
    refine ⟨⟨owner, hlisted.keep (by rw [hpc]; rfl), hflag⟩,
      hm.knows_update (by rw [hpc]; rfl) (Function.update_self ..), fun n l hl => ?_,
      fun n l hl => ?_, fun n l hl => hkeep (hm.returned n l hl)⟩
    · by_cases hne : n = name
      · subst hne
        simp only [goto, Function.update_self, Option.some.injEq] at hl
        exact hl ▸ hname
      · simp only [goto, Function.update_of_ne hne] at hl
        exact hm.named n l hl
    · by_cases hinsert : m.threads tid = .inserting n l
      · cases hpc.symm.trans hinsert
        exact .inl (Function.update_self ..)
      · exact hm.placed_update hinsert hkeep hl
  | @unlock tid name logger hpc =>
    have hknows := hm.knows tid
    rw [hpc] at hknows
    obtain rfl : owner = some tid := hlisted.owner_iff.mp (by rw [hpc]; rfl)
    refine ⟨⟨none, hlisted.unlock (by rw [hpc]; rfl) rfl, rfl⟩,
      hm.knows_update (by rw [hpc]; rfl) trivial, hm.named,
      fun n l => hm.placed_update (by rw [hpc]; nofun) id, fun n l hl => ?_⟩
    rcases List.mem_append.mp hl with hl | hl
    · exact hm.returned n l hl
    · cases List.mem_singleton.mp hl
      exact hknows

theorem sound_run {es : List Event} (h : run step {} es = some m) : m.Sound :=
  run_preserves (I := Sound) (fun _ _ _ hst hs => (move_of_step hst).sound hs) h sound_initial

/-- However the calls interleave, two of them return the same logger exactly if they were given the
same name, no two loggers are ever made for one name, and at most one thread at a time is at the
map. -/
theorem getLogger_eq_iff {es : List Event} (h : run step {} es = some m) :
    (∀ r ∈ m.returned, ∀ r' ∈ m.returned, r.2 = r'.2 ↔ r.1 = r'.1) ∧
      (∀ name logger logger', m.m_name logger = some name → m.m_name logger' = some name →
        logger = logger') ∧
      ∀ i j, (m.threads i).isInside = true → (m.threads j).isInside = true → i = j := by
  have hm := sound_run h
  refine ⟨?_, fun name l l' hl hl' => ?_, fun i j => hm.exclusive⟩
  · rintro ⟨n, l⟩ hr ⟨n', l'⟩ hr'
    have hin := hm.returned n l hr
    have hin' := hm.returned n' l' hr'
    constructor
    · intro hsame
      have hname := hm.named n l hin
      have hname' := hm.named n' l' hin'
      simp only at hsame
      rw [hsame, hname'] at hname
      exact (Option.some.inj hname).symm
    · intro hsame
      simp only at hsame
      rw [hsame, hin'] at hin
      exact (Option.some.inj hin).symm
  · have hknows : ∀ t k, m.threads t = .inserting name k → m.m_loggers name = none := by
      intro t k ht
      have := hm.knows t
      rw [ht] at this
      exact this.1
    rcases hm.placed name l hl with hin | ⟨t, ht⟩ <;>
      rcases hm.placed name l' hl' with hin' | ⟨t', ht'⟩
    · exact Option.some.inj (hin.symm.trans hin')
    · cases hin.symm.trans (hknows t' l' ht')
    · cases hin'.symm.trans (hknows t l ht)
    · obtain rfl := hm.exclusive (i := t) (j := t') (by rw [ht]; rfl) (by rw [ht']; rfl)
      cases ht.symm.trans ht'
      rfl

/-- While one thread makes the logger, another one spins, and finds it. -/
theorem getLogger_eq_iff_spinning : ∃ m, run step {} [.getLogger 1 "raft", .getLogger 2 "raft",
      .getLogger 3 "rpc", .advance 1, .advance 2, .advance 1, .create 1 40, .advance 2, .advance 1,
      .advance 1, .advance 3, .advance 3, .create 3 41, .advance 3, .advance 3, .advance 2,
      .advance 2, .advance 2] = some m ∧
    m.returned = [("raft", 40), ("rpc", 41), ("raft", 40)] ∧
    ∀ r ∈ m.returned, ∀ r' ∈ m.returned, r.2 = r'.2 ↔ r.1 = r'.1 := by
  have h : run step {} [.getLogger 1 "raft", .getLogger 2 "raft", .getLogger 3 "rpc", .advance 1,
      .advance 2, .advance 1, .create 1 40, .advance 2, .advance 1, .advance 1, .advance 3,
      .advance 3, .create 3 41, .advance 3, .advance 3, .advance 2, .advance 2,
      .advance 2] = some _ := rfl
  exact ⟨_, h, rfl, (getLogger_eq_iff h).1⟩

end LoggerManager

end NBRaft.Log
