import Mathlib.Algebra.Ring.Nat
import Mathlib.Data.List.Dedup
import Mathlib.Logic.Function.Basic
import Mathlib.Tactic.Common

/-!
# Threads and their program counters

A family of threads, each with a program counter, of which one at a time goes on. `Listed`
says that a list names, each once, the threads whose counter is in some region: those in a
critical section, those that wait, those that still owe something. The owner of a mutex is such
a list of at most one thread.
-/

namespace Threads

variable {ι π : Type*}

structure Listed (p : π → Bool) (threads : ι → π) (l : List ι) : Prop where
  nodup : l.Nodup
  mem_iff : ∀ i, i ∈ l ↔ p (threads i) = true

variable {p : π → Bool} {threads threads' : ι → π} {l : List ι} {i j : ι} {pc : π}
  {owner : Option ι}

theorem Listed.congr (h : Listed p threads l) (hp : ∀ i, p (threads' i) = p (threads i)) :
    Listed p threads' l :=
  ⟨h.nodup, fun i => by rw [hp i]; exact h.mem_iff i⟩

/-- The thread that owns a mutex is the one in its section. -/
theorem Listed.owner_iff (h : Listed p threads owner.toList) :
    p (threads i) = true ↔ owner = some i := by
  rw [← h.mem_iff i, Option.mem_toList]

/-- Two threads are never in the section at once. -/
theorem Listed.exclusive (h : Listed p threads owner.toList) (hi : p (threads i) = true)
    (hj : p (threads j) = true) : i = j :=
  Option.some.inj ((h.owner_iff.mp hi).symm.trans (h.owner_iff.mp hj))

/-- In a region inside the section of a mutex there is at most its owner. -/
theorem Listed.eq_singleton {s : π → Bool} (h : Listed p threads l)
    (howner : Listed s threads owner.toList) (hsub : ∀ pc, p pc = true → s pc = true)
    (hi : p (threads i) = true) : l = [i] := by
  have hall : ∀ j ∈ l, j = i := fun j hj =>
    howner.exclusive (hsub _ ((h.mem_iff j).mp hj)) (hsub _ hi)
  have hmem : i ∈ l := (h.mem_iff i).mpr hi
  have hnodup := h.nodup
  cases l with
  | nil => cases hmem
  | cons a t =>
    obtain rfl := hall a List.mem_cons_self
    cases t with
    | nil => rfl
    | cons b t =>
      have hb := hall b (by simp)
      simp [hb] at hnodup

theorem Listed.eq_nil {s : π → Bool} (h : Listed p threads l)
    (howner : Listed s threads owner.toList) (hsub : ∀ pc, p pc = true → s pc = true)
    (hout : ∀ i, owner = some i → p (threads i) = false) : l = [] := by
  refine List.eq_nil_iff_forall_not_mem.mpr fun i hi => ?_
  have hp := (h.mem_iff i).mp hi
  rw [hout i (howner.owner_iff.mp (hsub _ hp))] at hp
  cases hp

section

variable [DecidableEq ι]

/-- A thread goes on, and something that can be read off its counter stays what it was. -/
theorem map_update {β : Type*} {f : π → β} (hf : f pc = f (threads i)) (j : ι) :
    f (Function.update threads i pc j) = f (threads j) := by
  by_cases hj : j = i
  · subst hj
    rw [Function.update_self, hf]
  · rw [Function.update_of_ne hj]

/-- A thread goes on to where `P` does not hold: where it does, nothing has changed. -/
theorem of_update {P : π → Prop} (hout : ¬ P pc) (h : P (Function.update threads i pc j)) :
    P (threads j) := by
  by_cases hj : j = i
  · subst hj
    rw [Function.update_self] at h
    exact absurd h hout
  · rwa [Function.update_of_ne hj] at h

/-- A thread goes on from where `P` does not hold. -/
theorem update_of {P : π → Prop} (hout : ¬ P (threads i)) (h : P (threads j)) :
    P (Function.update threads i pc j) := by
  have hj : j ≠ i := by
    rintro rfl
    exact hout h
  rwa [Function.update_of_ne hj]

/-- What holds of every thread goes on to do so if it does of the one that goes on. -/
theorem forall_update_iff_of_forall {P : π → Prop} (h : ∀ j, P (threads j)) :
    (∀ j, P (Function.update threads i pc j)) ↔ P pc :=
  (Function.forall_update_iff threads fun _ pc => P pc).trans (and_iff_left fun j _ => h j)

/-- A thread goes on and stays on its side of the region. -/
theorem Listed.keep (h : Listed p threads l) (hp : p pc = p (threads i)) :
    Listed p (Function.update threads i pc) l := h.congr (map_update hp)

theorem Listed.enter (h : Listed p threads l) (hout : p (threads i) = false)
    (hin : p pc = true) : Listed p (Function.update threads i pc) (l ++ [i]) := by
  have hi : i ∉ l := by
    rw [h.mem_iff, hout]
    exact Bool.false_ne_true
  constructor
  · rw [List.nodup_append]
    refine ⟨h.nodup, by simp, fun a ha b hb => ?_⟩
    obtain rfl := List.mem_singleton.mp hb
    exact fun hab => hi (hab ▸ ha)
  · intro j
    by_cases hj : j = i
    · subst hj
      simp [hin]
    · simp [hj, h.mem_iff]

theorem Listed.leave (h : Listed p threads l) (hout : p pc = false) :
    Listed p (Function.update threads i pc) (l.erase i) := by
  constructor
  · exact h.nodup.erase i
  · intro j
    rw [h.nodup.mem_erase_iff]
    by_cases hj : j = i
    · subst hj
      simp [hout]
    · simp [hj, h.mem_iff]

theorem Listed.lock (h : Listed p threads (none : Option ι).toList) (hin : p pc = true) :
    Listed p (Function.update threads i pc) (some i).toList := by
  refine h.enter ?_ hin
  have := (h.mem_iff i).not.mp List.not_mem_nil
  simpa using this

theorem Listed.unlock (h : Listed p threads owner.toList) (hin : p (threads i) = true)
    (hout : p pc = false) : Listed p (Function.update threads i pc) (none : Option ι).toList := by
  have := h.leave (i := i) hout
  rw [h.owner_iff.mp hin] at this
  simpa using this

end

/-! ## Work -/

/-- What the threads of the list have still to do, by a rank of the program counters. -/
def work (rank : π → Nat) (threads : ι → π) (l : List ι) : Nat :=
  (l.map fun i => rank (threads i)).sum

section

variable {rank : π → Nat} {k : Nat}

@[simp] theorem work_cons : work rank threads (i :: l) = rank (threads i) + work rank threads l :=
  rfl

theorem work_congr (h : ∀ i ∈ l, rank (threads' i) = rank (threads i)) :
    work rank threads' l = work rank threads l := by
  unfold work
  rw [List.map_congr_left h]

/-- No thread has more than `k` to do that it did not have before. -/
theorem work_le (h : ∀ i ∈ l, rank (threads' i) ≤ rank (threads i) + k) :
    work rank threads' l ≤ work rank threads l + k * l.length := by
  induction l with
  | nil => simp [work]
  | cons i l ih =>
    obtain ⟨hi, hl⟩ := List.forall_mem_cons.mp h
    have hle := ih hl
    rw [work_cons, work_cons, List.length_cons, Nat.mul_add]
    omega

/-- A thread goes on, and the others stay where they are. -/
theorem work_update [DecidableEq ι] (rank : π → Nat) (threads : ι → π) (pc : π) (hnodup : l.Nodup)
    (hi : i ∈ l) :
    work rank (Function.update threads i pc) l + rank (threads i) =
      work rank threads l + rank pc := by
  induction l with
  | nil => cases hi
  | cons j l ih =>
    obtain ⟨hj, hl⟩ := List.nodup_cons.mp hnodup
    rw [work_cons, work_cons]
    rcases List.mem_cons.mp hi with rfl | hi
    · have hsame : work rank (Function.update threads i pc) l = work rank threads l := by
        refine work_congr fun a ha => ?_
        have hne : a ≠ i := by
          rintro rfl
          exact hj ha
        rw [Function.update_of_ne hne]
      rw [hsame, Function.update_self]
      omega
    · have hne : j ≠ i := fun h => hj (h ▸ hi)
      have hrest := ih hl hi
      rw [Function.update_of_ne hne]
      omega

end

/-- The list names, each once, at least the threads that are busy. -/
structure Covered (busy : π → Bool) (threads : ι → π) (l : List ι) : Prop where
  nodup : l.Nodup
  mem : ∀ i, busy (threads i) = true → i ∈ l

section

variable {busy : π → Bool} {rank : π → Nat} {k : Nat}

theorem Covered.mono (h : Covered busy threads l)
    (hbusy : ∀ i, busy (threads' i) = true → busy (threads i) = true) : Covered busy threads' l :=
  ⟨h.nodup, fun i hi => h.mem i (hbusy i hi)⟩

/-- It may name more threads. -/
theorem Covered.superset {l' : List ι} (h : Covered busy threads l) (hnodup : l'.Nodup)
    (hsub : ∀ i ∈ l, i ∈ l') : Covered busy threads l' :=
  ⟨hnodup, fun i hi => hsub i (h.mem i hi)⟩

variable [DecidableEq ι]

theorem exists_nodup (l more : List ι) :
    ∃ l' : List ι, l'.Nodup ∧ (∀ i ∈ l, i ∈ l') ∧ ∀ i ∈ more, i ∈ l' :=
  ⟨(l ++ more).dedup, List.nodup_dedup _, by simp +contextual, by simp +contextual⟩

theorem Covered.update_of_mem (h : Covered busy threads l) (hi : i ∈ l) :
    Covered busy (Function.update threads i pc) l := by
  refine ⟨h.nodup, fun j hj => ?_⟩
  by_cases hne : j = i
  · exact hne ▸ hi
  · rw [Function.update_of_ne hne] at hj
    exact h.mem j hj

theorem Covered.update (h : Covered busy threads l) (hi : busy (threads i) = true) :
    Covered busy (Function.update threads i pc) l :=
  h.update_of_mem (h.mem i hi)

/-- One more thread may be busy. -/
theorem Covered.exists_update (h : Covered busy threads l) (i : ι) (pc : π) :
    ∃ l', Covered busy (Function.update threads i pc) l' := by
  obtain ⟨l', hnodup, hsub, hmem⟩ := exists_nodup l [i]
  exact ⟨l', (h.superset hnodup hsub).update_of_mem (hmem i List.mem_cons_self)⟩

/-- A busy thread goes on, and leaves the others with no more to do than it had itself. -/
theorem Covered.work_lt (h : Covered busy threads l) (hi : busy (threads i) = true)
    (hsame : threads' i = threads i) (hwork : work rank threads' l ≤ work rank threads l + k)
    (hrank : rank pc + k < rank (threads i)) :
    work rank (Function.update threads' i pc) l < work rank threads l := by
  have hupdate := work_update rank threads' pc h.nodup (h.mem i hi)
  rw [hsame] at hupdate
  omega

end

/-! ## Records of who did what -/

section

variable {α : Type*} [DecidableEq ι]

/-- What one thread has entered into a record, in order. -/
def entriesOf (i : ι) (record : List (ι × α)) : List α :=
  record.filterMap fun entry => if entry.1 = i then some entry.2 else none

@[simp] theorem entriesOf_nil : entriesOf i ([] : List (ι × α)) = [] := rfl

@[simp] theorem entriesOf_append (record record' : List (ι × α)) :
    entriesOf i (record ++ record') = entriesOf i record ++ entriesOf i record' :=
  List.filterMap_append

@[simp] theorem entriesOf_self (xs : List α) : entriesOf i (xs.map (i, ·)) = xs := by
  simp [entriesOf, List.filterMap_map]

theorem entriesOf_other (h : i ≠ j) (xs : List α) : entriesOf i (xs.map (j, ·)) = [] := by
  simp [entriesOf, List.filterMap_map, h.symm]

end

end Threads
