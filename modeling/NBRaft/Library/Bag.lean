import Mathlib.Algebra.BigOperators.Fin
import Mathlib.Data.List.Perm.Basic

/-!
# Bags

A list whose elements are taken in any order: the pending work of a pool, the messages in
flight. Taking the `i`-th element rearranges the bag, so what the elements amount to together
is kept up to permutation.
-/

namespace Bag

variable {α β : Type*}

theorem perm_eraseIdx {l : List α} {i : Nat} {x : α} (h : l[i]? = some x) :
    l.Perm (x :: l.eraseIdx i) := by
  obtain ⟨hi, rfl⟩ := List.getElem?_eq_some_iff.mp h
  exact (List.getElem_cons_eraseIdx_perm hi).symm

/-- What the elements amount to, with the part of the taken element first. -/
theorem flatMap_eraseIdx (value : α → List β) {l : List α} {i : Nat} {x : α}
    (h : l[i]? = some x) : (l.flatMap value).Perm (value x ++ (l.eraseIdx i).flatMap value) := by
  simpa using (perm_eraseIdx h).flatMap_right value

theorem length_eraseIdx {l : List α} {i : Nat} {x : α} (h : l[i]? = some x) :
    l.length = (l.eraseIdx i).length + 1 := by
  simpa using (perm_eraseIdx h).length_eq

/-- An element outside a part of the bag is taken. -/
theorem filter_eraseIdx {p : α → Bool} {l : List α} {i : Nat} {x : α} (h : l[i]? = some x)
    (hp : p x = false) : (l.eraseIdx i).filter p = l.filter p := by
  induction l generalizing i with
  | nil => cases h
  | cons y l ih =>
    cases i with
    | zero =>
      obtain rfl := Option.some.inj h
      simp [hp]
    | succ i => grind

/-- An element of a part of the bag is taken: it has a place in that part, too. -/
theorem exists_filter_eraseIdx {p : α → Bool} {l : List α} {i : Nat} {x : α} (h : l[i]? = some x)
    (hp : p x = true) :
    ∃ j, (l.filter p)[j]? = some x ∧ (l.eraseIdx i).filter p = (l.filter p).eraseIdx j := by
  induction l generalizing i with
  | nil => cases h
  | cons y l ih =>
    cases i with
    | zero =>
      obtain rfl := Option.some.inj h
      exact ⟨0, by simp [hp], by simp [hp]⟩
    | succ i =>
      obtain ⟨j, hj, herase⟩ := ih (by simpa using h)
      by_cases hy : p y = true
      · exact ⟨j + 1, by simpa [hy] using hj, by simp [hy, herase]⟩
      · exact ⟨j, by simpa [hy] using hj, by simp [hy, herase]⟩

/-- The contributions of one source among those of all, where each carries its number. -/
theorem filter_flatMap_zipIdx (value : α × Nat → List β) (tag : β → Nat)
    (htag : ∀ x n, ∀ y ∈ value (x, n), tag y = n) (l : List α) (n k : Nat) :
    ((l.zipIdx n).flatMap value).filter (fun y => tag y == n + k) =
      (l[k]?).elim [] fun x => value (x, n + k) := by
  induction l generalizing n k with
  | nil => rfl
  | cons x xs ih =>
    rw [List.zipIdx_cons, List.flatMap_cons, List.filter_append]
    cases k with
    | zero =>
      have hhead : (value (x, n)).filter (fun y => tag y == n + 0) = value (x, n) :=
        List.filter_eq_self.mpr fun y hy => by simp [htag x n y hy]
      have htail : ((xs.zipIdx (n + 1)).flatMap value).filter (fun y => tag y == n + 0) = [] := by
        refine List.filter_eq_nil_iff.mpr fun y hy => ?_
        obtain ⟨⟨z, m⟩, hz, hy⟩ := List.mem_flatMap.mp hy
        have hle := (List.mk_mem_zipIdx_iff_le_and_getElem?_sub.mp hz).1
        simp only [htag z m y hy, Nat.add_zero, beq_iff_eq]
        omega
      rw [hhead, htail]
      simp
    | succ k =>
      have hhead : (value (x, n)).filter (fun y => tag y == n + (k + 1)) = [] :=
        List.filter_eq_nil_iff.mpr fun y hy => by simp [htag x n y hy]
      rw [hhead, List.nil_append, List.getElem?_cons_succ,
        show n + (k + 1) = n + 1 + k by omega]
      exact ih (n + 1) k

/-- The sum over several bags, of which one has changed. -/
theorem sum_change {ι : Type*} [Fintype ι] [DecidableEq ι] {f g : ι → Nat} (i : ι)
    (h : ∀ j, j ≠ i → f j = g j) : (∑ j, f j) + g i = (∑ j, g j) + f i := by
  have hf := Finset.add_sum_erase Finset.univ f (Finset.mem_univ i)
  have hg := Finset.add_sum_erase Finset.univ g (Finset.mem_univ i)
  have hrest : ∑ j ∈ Finset.univ.erase i, f j = ∑ j ∈ Finset.univ.erase i, g j :=
    Finset.sum_congr rfl fun j hj => h j (Finset.ne_of_mem_erase hj)
  omega

end Bag
