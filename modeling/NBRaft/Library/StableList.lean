import Mathlib.Data.List.Nodup

/-!
# Lists with iterators

A list whose elements stay where they are: each has an address of its own, and an iterator is the
address of an element or the end of the list. Taking an element out makes the iterators at it
dangle, and no others; putting one in leaves all of them as they are, since an address is not used
twice.
-/

/-- The elements in order, each with its address. -/
structure StableList (β : Type*) where
  elements : List (Nat × β) := []
  /-- The address of the next element. -/
  fresh : Nat := 0
  nodup : (elements.map Prod.fst).Nodup := by simp
  below : ∀ a ∈ elements.map Prod.fst, a < fresh := by simp

namespace StableList

variable {β : Type*}

def addresses (l : StableList β) : List Nat := l.elements.map Prod.fst

/-- `none` is the end. -/
def begin (l : StableList β) : Option Nat := l.elements.head?.map Prod.fst

/-- The iterator does not dangle. -/
def Valid (l : StableList β) (it : Option Nat) : Prop := ∀ a, it = some a → a ∈ l.addresses

instance (l : StableList β) (it : Option Nat) : Decidable (l.Valid it) :=
  inferInstanceAs (Decidable (∀ a ∈ it, a ∈ l.addresses))

/-- The elements from the iterator on. -/
def since (l : StableList β) : Option Nat → List (Nat × β)
  | none => []
  | some a => l.elements.dropWhile (·.1 ≠ a)

theorem not_mem_fresh (l : StableList β) : l.fresh ∉ l.elements.map Prod.fst :=
  fun h => Nat.lt_irrefl _ (l.below _ h)

def pushBack (l : StableList β) (v : β) : StableList β where
  elements := l.elements ++ [(l.fresh, v)]
  fresh := l.fresh + 1
  nodup := by
    rw [List.map_append, List.nodup_append]
    refine ⟨l.nodup, List.nodup_singleton _, fun a ha b hb => ?_⟩
    obtain rfl : b = l.fresh := List.mem_singleton.mp hb
    rintro rfl
    exact l.not_mem_fresh ha
  below := by
    intro a ha
    rw [List.map_append, List.mem_append] at ha
    rcases ha with ha | ha
    · exact Nat.lt_succ_of_lt (l.below a ha)
    · obtain rfl := List.mem_singleton.mp ha
      exact Nat.lt_succ_self _

def pushFront (l : StableList β) (v : β) : StableList β where
  elements := (l.fresh, v) :: l.elements
  fresh := l.fresh + 1
  nodup := List.nodup_cons.mpr ⟨l.not_mem_fresh, l.nodup⟩
  below := by
    intro a ha
    rcases List.mem_cons.mp ha with rfl | ha
    · exact Nat.lt_succ_self _
    · exact Nat.lt_succ_of_lt (l.below a ha)

/-- Some of the elements, in their order. -/
def restrict (l : StableList β) (elements : List (Nat × β)) (h : elements.Sublist l.elements) :
    StableList β where
  elements := elements
  fresh := l.fresh
  nodup := l.nodup.sublist (h.map _)
  below := fun a ha => l.below a ((h.map _).subset ha)

/-- Take out every element with a value like this. -/
def remove (l : StableList β) (p : β → Bool) : StableList β :=
  l.restrict (l.elements.filter fun e => !p e.2) List.filter_sublist

/-- Take out the first of them. -/
def eraseFirst (l : StableList β) (p : β → Bool) : StableList β :=
  l.restrict (l.elements.eraseP fun e => p e.2) List.eraseP_sublist

def clear (l : StableList β) : StableList β := l.restrict [] (List.nil_sublist _)

section

variable {l : StableList β} {it : Option Nat} {a : Nat} {v w : β} {p : β → Bool}

theorem mem_addresses : a ∈ l.addresses ↔ ∃ v, (a, v) ∈ l.elements := by
  simp [addresses]

theorem valid_some : l.Valid (some a) ↔ a ∈ l.addresses :=
  ⟨fun h => h a rfl, fun h _ ha => Option.some.inj ha ▸ h⟩

theorem valid_none : l.Valid none := by
  intro a ha
  cases ha

theorem valid_begin : l.Valid l.begin := by
  intro a ha
  obtain ⟨e, he, rfl⟩ := Option.map_eq_some_iff.mp ha
  exact List.mem_map_of_mem (List.mem_of_mem_head? he)

theorem since_sublist (l : StableList β) (it : Option Nat) :
    (l.since it).Sublist l.elements := by
  cases it with
  | none => exact List.nil_sublist _
  | some a => exact List.dropWhile_sublist _

/-- There is one value at an address. -/
theorem eq_of_mem (hv : (a, v) ∈ l.elements) (hw : (a, w) ∈ l.elements) : v = w :=
  congrArg Prod.snd (List.inj_on_of_nodup_map l.nodup hv hw rfl)

theorem Valid.pushBack (h : l.Valid it) (v : β) : (l.pushBack v).Valid it := by
  intro a ha
  have hmem := h a ha
  simp only [addresses, StableList.pushBack, List.map_append, List.mem_append] at hmem ⊢
  exact .inl hmem

theorem Valid.pushFront (h : l.Valid it) (v : β) : (l.pushFront v).Valid it :=
  fun a ha => List.mem_cons_of_mem _ (h a ha)

/-- Taking elements out keeps the iterators at the others. -/
theorem valid_remove_iff (h : l.Valid it) :
    (l.remove p).Valid it ↔ ∀ a v, it = some a → (a, v) ∈ l.elements → p v = false := by
  constructor
  · rintro hvalid a v rfl hv
    obtain ⟨w, hw⟩ := mem_addresses.mp (valid_some.mp hvalid)
    obtain ⟨hw, hp⟩ := List.mem_filter.mp hw
    obtain rfl := eq_of_mem hv hw
    simpa using hp
  · rintro hkeep a rfl
    obtain ⟨v, hv⟩ := mem_addresses.mp (valid_some.mp h)
    refine mem_addresses.mpr ⟨v, List.mem_filter.mpr ⟨hv, ?_⟩⟩
    simp [hkeep a v rfl hv]

theorem mem_eraseP_iff {es : List (Nat × β)} (hnodup : (es.map Prod.fst).Nodup)
    (q : Nat × β → Bool) : a ∈ (es.eraseP q).map Prod.fst ↔
      a ∈ es.map Prod.fst ∧ ∀ e, es.find? q = some e → e.1 ≠ a := by
  induction es with
  | nil => simp
  | cons e es ih =>
    obtain ⟨hnot, hnodup⟩ := List.nodup_cons.mp hnodup
    by_cases hq : q e = true
    · simp only [List.eraseP_cons_of_pos hq, List.find?_cons_of_pos hq, List.map_cons,
        List.mem_cons, Option.some.injEq, forall_eq']
      constructor
      · exact fun ha => ⟨.inr ha, fun heq => hnot (heq ▸ ha)⟩
      · rintro ⟨rfl | ha, hne⟩
        · exact absurd rfl hne
        · exact ha
    · simp only [List.eraseP_cons_of_neg hq, List.find?_cons_of_neg hq, List.map_cons,
        List.mem_cons, ih hnodup]
      constructor
      · rintro (rfl | ⟨ha, hne⟩)
        · refine ⟨.inl rfl, fun d hd heq => hnot ?_⟩
          exact heq ▸ List.mem_map_of_mem (List.mem_of_find?_eq_some hd)
        · exact ⟨.inr ha, hne⟩
      · rintro ⟨rfl | ha, hne⟩
        · exact .inl rfl
        · exact .inr ⟨ha, hne⟩

theorem valid_eraseFirst_iff (h : l.Valid it) : (l.eraseFirst p).Valid it ↔
    ∀ a e, it = some a → l.elements.find? (fun e => p e.2) = some e → e.1 ≠ a := by
  constructor
  · rintro hvalid a e rfl
    exact ((mem_eraseP_iff l.nodup _).mp (valid_some.mp hvalid)).2 e
  · rintro hkeep a rfl
    exact (mem_eraseP_iff l.nodup _).mpr ⟨valid_some.mp h, fun e => hkeep a e rfl⟩

theorem valid_clear_iff : l.clear.Valid it ↔ it = none := by
  cases it with
  | none => exact iff_of_true valid_none rfl
  | some a => simp [valid_some, addresses, clear, restrict]

end

end StableList
