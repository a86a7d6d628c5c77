import Mathlib.Data.Finmap
import Mathlib.Data.Finset.Sort
import Mathlib.Data.List.Nodup

/-!
# Sets and maps without an order

The elements of an unordered set and the entries of an unordered map are kept as a list in the order
of an iteration. That order is not part of the value: two sets are equal if they have as many
elements and each element of the one is in the other, and two maps likewise. Filling a container
from the elements of another one gives an equal container, whatever the order.
-/

/-! ## Sets -/

/-- A set with the order in which its elements are iterated over. -/
structure UnorderedSet (α : Type*) where
  items : List α
  nodup : items.Nodup

namespace UnorderedSet

variable {α : Type*} [DecidableEq α]

instance : EmptyCollection (UnorderedSet α) := ⟨⟨[], List.nodup_nil⟩⟩

instance : BEq (UnorderedSet α) where
  beq s t := s.items.length == t.items.length && s.items.all (· ∈ t.items)

def insert (x : α) (s : UnorderedSet α) : UnorderedSet α :=
  if h : x ∈ s.items then s else ⟨x :: s.items, List.nodup_cons.mpr ⟨h, s.nodup⟩⟩

theorem beq_iff_perm {s t : UnorderedSet α} : s == t ↔ s.items.Perm t.items := by
  change (s.items.length == t.items.length && s.items.all (· ∈ t.items)) = true ↔ _
  rw [Bool.and_eq_true, beq_iff_eq, List.all_eq_true]
  constructor
  · rintro ⟨hlength, hall⟩
    have hsubset : s.items ⊆ t.items := fun x hx => of_decide_eq_true (hall x hx)
    exact (List.subperm_of_subset s.nodup hsubset).perm_of_length_le hlength.ge
  · intro hperm
    exact ⟨hperm.length_eq, fun x hx => decide_eq_true (hperm.subset hx)⟩

instance : EquivBEq (UnorderedSet α) where
  rfl := beq_iff_perm.mpr (.refl _)
  symm h := beq_iff_perm.mpr (beq_iff_perm.mp h).symm
  trans h h' := beq_iff_perm.mpr ((beq_iff_perm.mp h).trans (beq_iff_perm.mp h'))

theorem mem_insert {x y : α} {s : UnorderedSet α} :
    y ∈ (s.insert x).items ↔ y = x ∨ y ∈ s.items := by
  unfold insert
  split
  · rename_i hx
    constructor
    · exact .inr
    · rintro (rfl | hy)
      · exact hx
      · exact hy
  · exact List.mem_cons

theorem mem_foldl_insert {l : List α} {y : α} {s : UnorderedSet α} :
    y ∈ (l.foldl (fun s x => s.insert x) s).items ↔ y ∈ l ∨ y ∈ s.items := by
  induction l generalizing s with
  | nil => simp
  | cons x l ih =>
    rw [List.foldl_cons, ih, mem_insert, List.mem_cons]
    grind

/-- A set that is filled with the elements of another is equal to it. -/
theorem foldl_insert_beq (s : UnorderedSet α) :
    (s.items.foldl (fun t x => t.insert x) ∅ == s) = true := by
  apply beq_iff_perm.mpr
  apply (List.perm_ext_iff_of_nodup (UnorderedSet.nodup _) s.nodup).mpr
  intro y
  rw [mem_foldl_insert]
  exact or_iff_left (List.not_mem_nil)

end UnorderedSet

/-- A finite set that is filled with the elements of a list. -/
theorem Finset.foldl_insert {α : Type*} [DecidableEq α] (l : List α) (s : Finset α) :
    l.foldl (fun s x => insert x s) s = l.toFinset ∪ s := by
  induction l generalizing s with
  | nil => simp
  | cons x l ih =>
    rw [List.foldl_cons, ih, List.toFinset_cons]
    ext y
    simp only [Finset.mem_union, Finset.mem_insert]
    grind

/-! ## Maps -/

section

variable {κ ν : Type*} [DecidableEq κ]

/-- What is found under a key in a map into which some values of `f` have been put. -/
theorem lookup_foldl {M : Type*} {assign : M → κ → ν → M} {lookup : M → κ → Option ν}
    (hlookup : ∀ m k v k', lookup (assign m k v) k' = if k' = k then some v else lookup m k')
    {f : κ → Option ν} {pairs : List (κ × ν)} (hpairs : ∀ p ∈ pairs, f p.1 = some p.2) (m : M)
    (k : κ) : lookup (pairs.foldl (fun m p => assign m p.1 p.2) m) k =
      if k ∈ pairs.map Prod.fst then f k else lookup m k := by
  induction pairs generalizing m with
  | nil => simp
  | cons p pairs ih =>
    obtain ⟨hp, hrest⟩ := List.forall_mem_cons.mp hpairs
    rw [List.foldl_cons, ih hrest, hlookup, List.map_cons]
    by_cases hk : k = p.1
    · subst hk
      simp [hp]
    · rw [if_neg hk]
      simp only [List.mem_cons, hk, false_or]

namespace AList

variable [DecidableEq ν]

/-- The entries are compared as those of a map, not as a list. -/
instance mapBEq : BEq (AList fun _ : κ => ν) where
  beq m n := m.entries.length == n.entries.length &&
    m.entries.all fun e => n.lookup e.1 == some e.2

theorem beq_iff_toFinmap {m n : AList fun _ : κ => ν} : m == n ↔ m.toFinmap = n.toFinmap := by
  rw [AList.toFinmap_eq]
  change (m.entries.length == n.entries.length &&
    m.entries.all fun e => n.lookup e.1 == some e.2) = true ↔ _
  rw [Bool.and_eq_true, beq_iff_eq, List.all_eq_true]
  constructor
  · rintro ⟨hlength, hall⟩
    have hsubset : m.entries ⊆ n.entries := fun e he =>
      AList.mem_lookup_iff.mp (beq_iff_eq.mp (hall e he))
    exact (List.subperm_of_subset m.nodupKeys.nodup hsubset).perm_of_length_le hlength.ge
  · intro hperm
    exact ⟨hperm.length_eq, fun e he =>
      beq_iff_eq.mpr (AList.mem_lookup_iff.mpr (hperm.subset he))⟩

instance mapEquivBEq : EquivBEq (AList fun _ : κ => ν) where
  rfl := beq_iff_toFinmap.mpr rfl
  symm h := beq_iff_toFinmap.mpr (beq_iff_toFinmap.mp h).symm
  trans h h' := beq_iff_toFinmap.mpr ((beq_iff_toFinmap.mp h).trans (beq_iff_toFinmap.mp h'))

theorem beq_of_lookup {m n : AList fun _ : κ => ν} (h : ∀ k, m.lookup k = n.lookup k) :
    (m == n) = true :=
  beq_iff_toFinmap.mpr (Finmap.ext_lookup h)

omit [DecidableEq ν]

/-- The entries in the order of the iteration. -/
def pairs (m : AList fun _ : κ => ν) : List (κ × ν) := m.entries.map fun e => (e.1, e.2)

omit [DecidableEq κ] in
theorem nodup_pairs (m : AList fun _ : κ => ν) : (m.pairs.map Prod.fst).Nodup := by
  rw [pairs, List.map_map]
  exact m.nodupKeys

theorem lookup_pairs (m : AList fun _ : κ => ν) (k : κ) : m.pairs.lookup k = m.lookup k := by
  change (m.entries.map fun e => (e.1, e.2)).lookup k = m.entries.dlookup k
  induction m.entries with
  | nil => rfl
  | cons e entries ih =>
    rw [List.map_cons, List.lookup_cons]
    by_cases hk : k = e.1
    · subst hk
      rw [beq_self_eq_true, List.dlookup_cons_eq]
    · rw [beq_false_of_ne hk, List.dlookup_cons_ne _ _ hk]
      exact ih

theorem lookup_insert_eq (m : AList fun _ : κ => ν) (k : κ) (v : ν) (k' : κ) :
    (m.insert k v).lookup k' = if k' = k then some v else m.lookup k' := by
  by_cases hk : k' = k
  · subst hk
    rw [if_pos rfl, AList.lookup_insert]
  · rw [if_neg hk, AList.lookup_insert_ne hk]

end AList

end

namespace Finmap

variable {κ ν : Type*} [LinearOrder κ]

/-- The entries in the order of their keys. -/
def sortedEntries (m : Finmap fun _ : κ => ν) : List (κ × ν) :=
  (m.keys.sort (· ≤ ·)).filterMap fun k => (m.lookup k).map (k, ·)

theorem lookup_filterMap (f : κ → Option ν) (keys : List κ) (k : κ) :
    (keys.filterMap fun key => (f key).map (key, ·)).lookup k = if k ∈ keys then f k else none := by
  induction keys with
  | nil => rfl
  | cons key keys ih =>
    rw [List.filterMap_cons]
    by_cases hk : k = key
    · subst hk
      cases hf : f k with
      | none => simp [ih, hf]
      | some v => simp
    · have hbeq : (k == key) = false := beq_false_of_ne hk
      cases hf : f key with
      | none => simp [ih, hk]
      | some v => simp [ih, hk, List.lookup_cons, hbeq]

theorem lookup_sortedEntries (m : Finmap fun _ : κ => ν) (k : κ) :
    m.sortedEntries.lookup k = m.lookup k := by
  unfold sortedEntries
  rw [lookup_filterMap]
  by_cases hk : k ∈ m
  · exact if_pos ((Finset.mem_sort _).mpr (Finmap.mem_keys.mpr hk))
  · rw [Finmap.lookup_eq_none.mpr hk]
    exact ite_self none

theorem nodup_sortedEntries (m : Finmap fun _ : κ => ν) :
    (m.sortedEntries.map Prod.fst).Nodup := by
  refine List.Nodup.sublist ?_ (Finset.sort_nodup m.keys (· ≤ ·))
  unfold sortedEntries
  induction m.keys.sort (· ≤ ·) with
  | nil => exact .slnil
  | cons key keys ih =>
    rw [List.filterMap_cons]
    cases m.lookup key with
    | none => exact ih.cons key
    | some v => exact ih.cons_cons key

theorem lookup_insert_eq (m : Finmap fun _ : κ => ν) (k : κ) (v : ν) (k' : κ) :
    (m.insert k v).lookup k' = if k' = k then some v else m.lookup k' := by
  by_cases hk : k' = k
  · subst hk
    rw [if_pos rfl, Finmap.lookup_insert]
  · rw [if_neg hk, Finmap.lookup_insert_of_ne _ hk]

end Finmap

theorem List.foldl_push {α : Type*} (items l : List α) :
    items.foldl (fun l x => l ++ [x]) l = l ++ items := by
  induction items generalizing l with
  | nil => exact (List.append_nil l).symm
  | cons x items ih => rw [List.foldl_cons, ih, List.append_assoc, List.singleton_append]
