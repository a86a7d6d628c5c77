import NBRaft.Configuration.Config
import NBRaft.Library.Unordered

/-!
# The texts of configuration variables

A variable that holds a container is printed as a JSON array or object and read back from one. The
twelve casts for containers are six pairs, and in each pair the reader has to undo what the writer
does to the elements, to their order and to the kind of the root.
-/

namespace NBRaft.Configuration

open Json

/-! ## Elements -/

/-- An array or object of 32-bit integers and strings. -/
def IsFlat (root : Value) : Prop :=
  let plain (item : Value) : Prop := (∃ i, item = .ofInt i) ∨ ∃ s, item = .string s
  (root.isArray = true ∧ ∀ item ∈ root.items, plain item) ∨
    (root.isObject = true ∧ ∀ k item, root.find? k = some item → plain item)

/-- The casts of an element to JSON and back, `LexicalCast<T, Json::Value>` and
`LexicalCast<Json::Value, T>`. -/
class Element (T : Type) extends LinearOrder T where
  toJson : T → Value
  ofJson : Jsoncpp → Value → Except Exception T
  ofJson_toJson : ∀ J t, ofJson J (toJson t) = .ok t
  plain : ∀ t, (∃ i, toJson t = .ofInt i) ∨ ∃ s, toJson t = .string s

instance int32LinearOrder : LinearOrder Int32 where
  le_refl := Int32.le_refl
  le_trans _ _ _ := Int32.le_trans
  le_antisymm _ _ := Int32.le_antisymm
  le_total := Int32.le_total
  lt_iff_le_not_ge i j := by
    rw [Int32.not_le]
    exact ⟨fun h => ⟨Int32.le_of_lt h, h⟩, And.right⟩
  toDecidableLE := inferInstance
  toDecidableEq := inferInstance
  toDecidableLT := inferInstance

instance : Element Int32 where
  toJson := Value.ofInt
  ofJson _ := Value.asInt
  ofJson_toJson _ := Value.asInt_ofInt
  plain i := .inl ⟨i, rfl⟩

instance : Element String where
  toJson := .string
  ofJson := Value.asString
  ofJson_toJson _ _ := rfl
  plain s := .inr ⟨s, rfl⟩

/-! ## Containers -/

/-- `LexicalCast<T, std::string>` and `LexicalCast<std::string, T>`, up to the text of the root. -/
structure LexicalCast (T : Type) where
  toRoot : T → Value
  ofRoot : Jsoncpp → Value → Except Exception T

section

variable {T C : Type} [Element T]

def arrayOf (items : List T) : Value := .ofItems (items.map Element.toJson)

/-- The readers of arrays differ in how an element is added. -/
def ofArray (add : C → T → C) (empty : C) (J : Jsoncpp) (root : Value) : Except Exception C := do
  if !root.isArray then throw .runtimeError
  root.items.foldlM (fun result item => do return add result (← Element.ofJson J item)) empty

def objectOf (pairs : List (String × T)) : Value :=
  Value.emptyObject.assignAll (pairs.map fun pair => (pair.1, Element.toJson pair.2))

/-- The readers of objects differ in how a value is put under a key. -/
def ofObject (assign : C → String → T → C) (empty : C) (J : Jsoncpp) (root : Value) :
    Except Exception C := do
  if !root.isObject then throw .runtimeError
  (← root.getMemberNames).foldlM
    (fun result key => do return assign result key (← Element.ofJson J (← root.get key))) empty

end

section

variable (T : Type) [Element T]

def vectorCast : LexicalCast (List T) where
  toRoot := arrayOf
  ofRoot := ofArray (fun vec item => vec ++ [item]) []

def listCast : LexicalCast (List T) where
  toRoot := arrayOf
  ofRoot := ofArray (fun lst item => lst ++ [item]) []

def setCast : LexicalCast (Finset T) where
  toRoot set := arrayOf (set.sort (· ≤ ·))
  ofRoot := ofArray (fun setResult item => insert item setResult) ∅

def unordered_setCast : LexicalCast (UnorderedSet T) where
  toRoot set := arrayOf set.items
  ofRoot := ofArray (fun setResult item => setResult.insert item) ∅

def mapCast : LexicalCast (Finmap fun _ : String => T) where
  toRoot map := objectOf map.sortedEntries
  ofRoot := ofObject (fun mapResult key item => mapResult.insert key item) ∅

def unordered_mapCast : LexicalCast (UnorderedMap T) where
  toRoot map := objectOf map.pairs
  ofRoot := ofObject (fun mapResult key item => mapResult.insert key item) ∅

end

/-- The containers with casts of their own. -/
inductive Container where
  | vector | list | set | unordered_set | map | unordered_map
  deriving DecidableEq, Repr

namespace Container

abbrev Of (T : Type) [Element T] : Container → Type
  | .vector | .list => List T
  | .set => Finset T
  | .unordered_set => UnorderedSet T
  | .map => Finmap fun _ : String => T
  | .unordered_map => UnorderedMap T

variable (T : Type) [Element T]

def cast : (c : Container) → LexicalCast (c.Of T)
  | .vector => vectorCast T
  | .list => listCast T
  | .set => setCast T
  | .unordered_set => unordered_setCast T
  | .map => mapCast T
  | .unordered_map => unordered_mapCast T

instance : (c : Container) → BEq (c.Of T)
  | .vector | .list => inferInstanceAs (BEq (List T))
  | .set => inferInstanceAs (BEq (Finset T))
  | .unordered_set => inferInstanceAs (BEq (UnorderedSet T))
  | .map => inferInstanceAs (BEq (Finmap fun _ : String => T))
  | .unordered_map => inferInstanceAs (BEq (UnorderedMap T))

end Container

/-! ## Variables -/

namespace ConfigVar

variable {T : Type} (J : Jsoncpp) (cast : LexicalCast T)

def toString (v : ConfigVar T) : Bytes := J.writeString (cast.toRoot v.m_val)

/-- An exception makes for `false` and leaves the variable as it is. -/
def fromString [BEq T] (val : Bytes) (v : ConfigVar T) : Bool × ConfigVar T :=
  let result : Except Exception T := do
    match ← J.parseFromStream val with
    | none => throw .runtimeError
    | some root => cast.ofRoot J root
  match result with
  | .ok val => (true, v.setValue val)
  | .error _ => (false, v)

/-- The text of a value is read back as a value equal to it. -/
theorem fromString_toString [BEq T] [EquivBEq T] {val val' : T}
    (hJ : J.parseFromStream (J.writeString (cast.toRoot val)) = .ok (some (cast.toRoot val)))
    (hroot : cast.ofRoot J (cast.toRoot val) = .ok val') (heq : (val' == val) = true)
    (v : ConfigVar T) :
    (v.fromString J cast (toString J cast ⟨val⟩)).1 = true ∧
      ((v.fromString J cast (toString J cast ⟨val⟩)).2.getValue == val) = true := by
  have hresult : v.fromString J cast (toString J cast ⟨val⟩) = (true, v.setValue val') := by
    unfold fromString toString
    simp only [hJ, hroot, bind, Except.bind]
  rw [hresult]
  exact ⟨rfl, BEq.trans (getValue_setValue v val') heq⟩

end ConfigVar

/-! ## Arrays -/

section

variable {T C : Type} [Element T] (J : Jsoncpp)

theorem foldlM_toJson (add : C → T → C) (items : List T) (c : C) :
    (items.map Element.toJson).foldlM
      (fun result item => do return add result (← Element.ofJson J item) : C → Value →
        Except Exception C) c = .ok (items.foldl add c) := by
  induction items generalizing c with
  | nil => rfl
  | cons item items ih =>
    rw [List.map_cons, List.foldlM_cons, Element.ofJson_toJson]
    exact ih (add c item)

theorem ofArray_arrayOf (add : C → T → C) (empty : C) (items : List T) :
    ofArray add empty J (arrayOf items) = .ok (items.foldl add empty) := by
  unfold ofArray arrayOf
  rw [Value.items_ofItems, foldlM_toJson]
  rfl

theorem isFlat_arrayOf (items : List T) : IsFlat (arrayOf items) := by
  refine .inl ⟨rfl, ?_⟩
  intro item hitem
  rw [arrayOf, Value.items_ofItems] at hitem
  obtain ⟨t, -, rfl⟩ := List.mem_map.mp hitem
  exact Element.plain t

/-! ## Objects -/

theorem find?_objectOf {pairs : List (String × T)} (hnodup : (pairs.map Prod.fst).Nodup)
    (key : String) : (objectOf pairs).find? key = (pairs.lookup key).map Element.toJson := by
  unfold objectOf
  have hnodup' : ((pairs.map fun pair => (pair.1, Element.toJson pair.2)).map Prod.fst).Nodup := by
    rw [List.map_map]
    exact hnodup
  rw [Value.find?_assignAll _ hnodup', Value.find?_emptyObject, Option.or_none]
  clear hnodup hnodup'
  induction pairs with
  | nil => rfl
  | cons pair pairs ih =>
    rw [List.map_cons, List.lookup_cons, List.lookup_cons]
    split
    · rfl
    · exact ih

theorem isObject_objectOf (pairs : List (String × T)) : (objectOf pairs).isObject = true :=
  beq_iff_eq.mpr (Value.type_assignAll _ rfl)

theorem isFlat_objectOf {pairs : List (String × T)} (hnodup : (pairs.map Prod.fst).Nodup) :
    IsFlat (objectOf pairs) := by
  refine .inr ⟨isObject_objectOf pairs, ?_⟩
  intro k item hitem
  rw [find?_objectOf hnodup] at hitem
  obtain ⟨t, -, rfl⟩ := Option.map_eq_some_iff.mp hitem
  exact Element.plain t

omit [Element T] in
/-- Keys that all have values make for entries. -/
theorem exists_pairs {f : String → Option T} {keys : List String}
    (h : ∀ key ∈ keys, (f key).isSome = true) :
    ∃ pairs : List (String × T), pairs.map Prod.fst = keys ∧
      ∀ pair ∈ pairs, f pair.1 = some pair.2 := by
  induction keys with
  | nil => exact ⟨[], rfl, by simp⟩
  | cons key keys ih =>
    obtain ⟨hkey, hkeys⟩ := List.forall_mem_cons.mp h
    obtain ⟨t, ht⟩ := Option.isSome_iff_exists.mp hkey
    obtain ⟨pairs, hfst, hpairs⟩ := ih hkeys
    exact ⟨(key, t) :: pairs, congrArg (key :: ·) hfst, List.forall_mem_cons.mpr ⟨ht, hpairs⟩⟩

theorem foldlM_keys (assign : C → String → T → C) {root : Value} (hroot : root.hasMembers = true)
    {pairs : List (String × T)}
    (hpairs : ∀ pair ∈ pairs, root.find? pair.1 = some (Element.toJson pair.2)) (c : C) :
    (pairs.map Prod.fst).foldlM
      (fun result key => do return assign result key (← Element.ofJson J (← root.get key)) :
        C → String → Except Exception C) c =
      .ok (pairs.foldl (fun result pair => assign result pair.1 pair.2) c) := by
  induction pairs generalizing c with
  | nil => rfl
  | cons pair pairs ih =>
    obtain ⟨hpair, hrest⟩ := List.forall_mem_cons.mp hpairs
    have hitem : root.get pair.1 = .ok (Element.toJson pair.2) := by
      rw [Value.get_eq hroot, hpair, Option.getD_some]
    rw [List.map_cons, List.foldlM_cons, hitem]
    simp only [bind, Except.bind, Element.ofJson_toJson]
    exact ih hrest (assign c pair.1 pair.2)

/-- The order of the members of the object is that of their names, not that in which they have been
written. -/
theorem ofObject_objectOf {assign : C → String → T → C} {empty : C}
    (lookup : C → String → Option T)
    (hlookup : ∀ c k t k', lookup (assign c k t) k' = if k' = k then some t else lookup c k')
    (hempty : ∀ k, lookup empty k = none) {pairs : List (String × T)}
    (hnodup : (pairs.map Prod.fst).Nodup) :
    ∃ c, ofObject assign empty J (objectOf pairs) = .ok c ∧
      ∀ k, lookup c k = pairs.lookup k := by
  have hroot : (objectOf pairs).hasMembers = true :=
    Value.hasMembers_of_object (beq_iff_eq.mp (isObject_objectOf pairs))
  obtain ⟨names, hnames, hmem⟩ := Value.getMemberNames_of_hasMembers hroot
  have hsome : ∀ k, k ∈ names ↔ (pairs.lookup k).isSome = true := by
    intro k
    rw [hmem, find?_objectOf hnodup, Option.isSome_map]
  obtain ⟨sorted, hfst, hsorted⟩ := exists_pairs fun k hk => (hsome k).mp hk
  have hitems : ∀ pair ∈ sorted, (objectOf pairs).find? pair.1 = some (Element.toJson pair.2) := by
    intro pair hpair
    rw [find?_objectOf hnodup, hsorted pair hpair, Option.map_some]
  refine ⟨sorted.foldl (fun result pair => assign result pair.1 pair.2) empty, ?_, ?_⟩
  · unfold ofObject
    rw [isObject_objectOf pairs, hnames, ← hfst]
    exact foldlM_keys J assign hroot hitems empty
  · intro k
    rw [lookup_foldl (f := fun k => pairs.lookup k) hlookup hsorted, hfst, hempty]
    by_cases hk : k ∈ names
    · rw [if_pos hk]
    · rw [if_neg hk]
      exact (Option.not_isSome_iff_eq_none.mp fun h => hk ((hsome k).mpr h)).symm

end

/-! ## All containers -/

namespace Container

variable {T : Type} [Element T] (J : Jsoncpp)

instance : (c : Container) → EquivBEq (c.Of T)
  | .vector | .list => inferInstanceAs (EquivBEq (List T))
  | .set => inferInstanceAs (EquivBEq (Finset T))
  | .unordered_set => inferInstanceAs (EquivBEq (UnorderedSet T))
  | .map => inferInstanceAs (EquivBEq (Finmap fun _ : String => T))
  | .unordered_map => inferInstanceAs (EquivBEq (UnorderedMap T))

theorem isFlat_toRoot (c : Container) (val : c.Of T) : IsFlat ((c.cast T).toRoot val) := by
  cases c with
  | vector | list | set | unordered_set => exact isFlat_arrayOf _
  | map => exact isFlat_objectOf (Finmap.nodup_sortedEntries val)
  | unordered_map => exact isFlat_objectOf (AList.nodup_pairs val)

/-- The casts of each container match. -/
theorem ofRoot_toRoot (c : Container) (val : c.Of T) :
    ∃ val', (c.cast T).ofRoot J ((c.cast T).toRoot val) = .ok val' ∧ (val' == val) = true := by
  cases c with
  | vector | list =>
    exact ⟨_, ofArray_arrayOf J _ _ val, beq_iff_eq.mpr (List.foldl_push val [])⟩
  | set =>
    refine ⟨_, ofArray_arrayOf J _ _ (Finset.sort val (· ≤ ·)), beq_iff_eq.mpr ?_⟩
    rw [Finset.foldl_insert, Finset.sort_toFinset, Finset.union_empty]
  | unordered_set => exact ⟨_, ofArray_arrayOf J _ _ val.items, val.foldl_insert_beq⟩
  | map =>
    obtain ⟨map, hmap, hlookup⟩ :=
      ofObject_objectOf J (fun map k => Finmap.lookup k map) Finmap.lookup_insert_eq
        Finmap.lookup_empty (Finmap.nodup_sortedEntries val)
    refine ⟨map, hmap, beq_iff_eq.mpr (Finmap.ext_lookup ?_)⟩
    intro k
    rw [hlookup, Finmap.lookup_sortedEntries]
  | unordered_map =>
    obtain ⟨map, hmap, hlookup⟩ :=
      ofObject_objectOf J (fun map k => AList.lookup k map) AList.lookup_insert_eq
        AList.lookup_empty (AList.nodup_pairs val)
    refine ⟨map, hmap, AList.beq_of_lookup ?_⟩
    intro k
    rw [hlookup, AList.lookup_pairs]

/-- A variable that reads what a variable with the value has printed has that value. -/
theorem survives_printing (c : Container) (J : Jsoncpp) (val : c.Of T)
    (hJ : IsFlat ((c.cast T).toRoot val) →
      J.parseFromStream (J.writeString ((c.cast T).toRoot val)) =
        .ok (some ((c.cast T).toRoot val)))
    (printed var : ConfigVar (c.Of T)) (hprinted : printed.getValue = val) :
    let result := var.fromString J (c.cast T) (printed.toString J (c.cast T))
    result.1 = true ∧ (result.2.getValue == val) = true := by
  obtain ⟨val', hroot, heq⟩ := ofRoot_toRoot J c val
  obtain rfl : printed = ⟨val⟩ := by rw [← hprinted]; rfl
  exact ConfigVar.fromString_toString J (c.cast T) (hJ (isFlat_toRoot c val)) hroot heq var

def portMap : Container.map.Of Int32 := (Finmap.singleton "udp" 8443).insert "tcp" 8080

def portRoot : Value :=
  (Value.emptyObject.assign "tcp" (Value.ofInt 8080)).assign "udp" (Value.ofInt 8443)

/-- jsoncpp on the one text of the example below. -/
def portMapJsoncpp : Jsoncpp where
  parseFromStream text := .ok <|
    if text = utf8 "\x7b\n\t\"tcp\" : 8080,\n\t\"udp\" : 8443\n\x7d" then some portRoot else none
  writeString _ := utf8 "\x7b\n\t\"tcp\" : 8080,\n\t\"udp\" : 8443\n\x7d"
  toStyledString _ := []
  valueToString _ := ""

theorem survives_printing_port :
    let result := (⟨∅⟩ : ConfigVar (Container.map.Of Int32)).fromString portMapJsoncpp
      (Container.map.cast Int32)
      ((⟨portMap⟩ : ConfigVar _).toString portMapJsoncpp (Container.map.cast Int32))
    result.1 = true ∧ (result.2.getValue == portMap) = true := by
  have hroot : (Container.map.cast Int32).toRoot portMap = portRoot := by
    have hkeys : Finset.sort (Finmap.keys portMap) (· ≤ ·) = ["tcp", "udp"] := by
      have hinsert : Finmap.keys portMap = insert "tcp" {"udp"} := rfl
      rw [hinsert, Finset.sort_insert _ (by simp) (by decide), Finset.sort_singleton]
    have hentries : Finmap.sortedEntries portMap = [("tcp", 8080), ("udp", 8443)] := by
      rw [Finmap.sortedEntries, hkeys]
      rfl
    exact congrArg objectOf hentries
  refine survives_printing .map portMapJsoncpp portMap ?_ ⟨portMap⟩ ⟨∅⟩ rfl
  rw [hroot]
  exact fun _ => rfl

end Container

end NBRaft.Configuration
