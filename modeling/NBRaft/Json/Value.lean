import Mathlib.Algebra.Group.Int.Defs
import Mathlib.Algebra.Group.Nat.Defs
import Mathlib.Data.Finset.Basic
import Mathlib.Data.Fintype.Basic
import Mathlib.Data.List.AList

/-!
# JSON values as jsoncpp holds them

`Value` is `Json::Value`. An object is a finite set of member names with a value for each, so
a name occurs once and two objects are equal exactly when their members are: the equality of
the `std::map` jsoncpp keeps them in. Integers carry the 64-bit types jsoncpp stores, a real is
the bit pattern of its double.

The accessors follow jsoncpp 1.9.5. The ones that assert their receiver's type (`isMember`,
`get`, `asInt`, `asString`, `asBool`) throw `Json::LogicError` where that assertion fails.
-/

namespace NBRaft

/-- A byte string on its way through a socket: a `std::string` or a `char` buffer. -/
abbrev Bytes := List UInt8

/-- The bytes a C++ string literal or a JSON string holds. -/
def utf8 (s : String) : Bytes := s.toUTF8.data.toList

/-- `std::unordered_map<std::string, β>`; the list order of the entries is the map's
unspecified iteration order. -/
abbrev UnorderedMap (β : Type*) := AList fun _ : String => β

/-- The C++ exceptions that the modelled code throws or catches. -/
inductive Exception where
  /-- `Json::LogicError`, from an assertion inside jsoncpp. -/
  | logicError
  /-- Another `std::runtime_error`. -/
  | runtimeError
  /-- `RpcException`, with `err()` and `detail()`. -/
  | rpcException (code : Int32) (detail : String)
  deriving DecidableEq, Repr

namespace Json

/-- `Json::ValueType`. -/
inductive ValueType where
  | nullValue | intValue | uintValue | realValue
  | stringValue | booleanValue | arrayValue | objectValue
  deriving DecidableEq, Repr

/-- A binary64 number, by its bits. -/
structure Double where
  bits : UInt64
  deriving DecidableEq, Repr

inductive Value where
  | null
  | int (i : Int64)
  | uint (u : UInt64)
  | real (x : Double)
  | string (s : String)
  | boolean (b : Bool)
  | array (size : Nat) (items : Fin size → Value)
  | object (names : Finset String) (members : {k // k ∈ names} → Value)

namespace Double

def exponent (x : Double) : Nat := (x.bits.toNat / 2 ^ 52) % 2 ^ 11
def fraction (x : Double) : Nat := x.bits.toNat % 2 ^ 52
def negative (x : Double) : Bool := x.bits.toNat / 2 ^ 63 == 1

/-- The magnitude of a finite double is `significand / scale`. -/
def significand (x : Double) : Nat :=
  (if x.exponent = 0 then x.fraction else 2 ^ 52 + x.fraction) * 2 ^ (max x.exponent 1)

def scale : Nat := 2 ^ 1075

/-- `InRange(real, minInt, maxInt)` and the truncating cast to `int`. NaN and the infinities,
whose exponent field is full, are in no range. -/
def toInt32? (x : Double) : Option Int32 :=
  let bound := if x.negative then 2 ^ 31 else 2 ^ 31 - 1
  if x.exponent ≠ 2047 ∧ x.significand ≤ bound * scale then
    let magnitude : Int := (x.significand / scale : Nat)
    some (Int32.ofInt (if x.negative then -magnitude else magnitude))
  else none

/-- `asBool` of a real: neither a zero nor a NaN. -/
def isTrue (x : Double) : Bool :=
  !(x.exponent == 0 && x.fraction == 0) && !(x.exponent == 2047 && x.fraction != 0)

end Double

namespace Value

def type : Value → ValueType
  | .null => .nullValue
  | .int _ => .intValue
  | .uint _ => .uintValue
  | .real _ => .realValue
  | .string _ => .stringValue
  | .boolean _ => .booleanValue
  | .array _ _ => .arrayValue
  | .object _ _ => .objectValue

def isString (v : Value) : Bool := v.type == .stringValue
def isObject (v : Value) : Bool := v.type == .objectValue

/-- `Json::Value(Json::objectValue)`. -/
def emptyObject : Value := .object ∅ fun k => absurd k.2 (Finset.notMem_empty _)

/-- `Json::Value(int)`. -/
def ofInt (i : Int32) : Value := .int i.toInt64

/-- Null and objects are the receivers on which member access is allowed. -/
def hasMembers (v : Value) : Bool := v.type == .nullValue || v.type == .objectValue

/-- The member under a name, if the value is an object that has it. -/
def find? : Value → String → Option Value
  | .object names members, k => if h : k ∈ names then some (members ⟨k, h⟩) else none
  | _, _ => none

def isMember (v : Value) (k : String) : Except Exception Bool :=
  if v.hasMembers then .ok (v.find? k).isSome else .error .logicError

/-- `v[k]` for reading: a missing member reads as null. -/
def get (v : Value) (k : String) : Except Exception Value :=
  if v.hasMembers then .ok ((v.find? k).getD .null) else .error .logicError

/-- The assignment `v[k] = w` on a null value or an object, the only receivers the modelled
code assigns members of; a null value becomes an object first. -/
def assign : Value → String → Value → Value
  | .object names members, k, w =>
    .object (insert k names) fun n =>
      if h : n.1 ∈ names ∧ n.1 ≠ k then members ⟨n.1, h.1⟩ else w
  | _, k, w => .object {k} fun _ => w

/-- Assignments of several members, one after the other. -/
def assignAll (v : Value) (fields : List (String × Value)) : Value :=
  fields.foldl (fun v f => v.assign f.1 f.2) v

/-- A loop over `begin() .. end()` that stops with `false` at the first child failing `test`,
which receives `it.key().asString()` and `*it`. Only arrays and objects have children. -/
def allChildren (test : String → Value → Bool) : Value → Bool
  | .array size items => decide (∀ i : Fin size, test (toString i.1) (items i) = true)
  | .object names members => decide (∀ k : {k // k ∈ names}, test k.1 (members k) = true)
  | _ => true

def asInt : Value → Except Exception Int32
  | .int i =>
    if -2 ^ 31 ≤ i.toInt ∧ i.toInt < 2 ^ 31 then .ok i.toInt32 else .error .logicError
  | .uint u => if u.toNat < 2 ^ 31 then .ok (Int32.ofNat u.toNat) else .error .logicError
  | .real x => x.toInt32?.elim (.error .logicError) .ok
  | .null => .ok 0
  | .boolean b => .ok (if b then 1 else 0)
  | _ => .error .logicError

def asBool : Value → Except Exception Bool
  | .boolean b => .ok b
  | .null => .ok false
  | .int i => .ok (i != 0)
  | .uint u => .ok (u != 0)
  | .real x => .ok x.isTrue
  | _ => .error .logicError

end Value

/-- What the modelled code uses of jsoncpp's reader and writers, which are not part of the
repository. `parseFromStream` yields `none` where the reader reports an error in the text, and
may throw (on text nested beyond its stack limit). -/
structure Jsoncpp where
  parseFromStream : Bytes → Except Exception (Option Value)
  writeString : Value → Bytes
  toStyledString : Value → Bytes
  /-- The decimal text of a real. -/
  valueToString : Double → String

def Value.asString (J : Jsoncpp) : Value → Except Exception String
  | .string s => .ok s
  | .null => .ok ""
  | .boolean b => .ok (if b then "true" else "false")
  | .int i => .ok (toString i.toInt)
  | .uint u => .ok (toString u.toNat)
  | .real x => .ok (J.valueToString x)
  | _ => .error .logicError

/-! ## Members -/

namespace Value

@[simp] theorem type_null : Value.null.type = .nullValue := rfl
@[simp] theorem type_int (i : Int64) : (Value.int i).type = .intValue := rfl
@[simp] theorem type_string (s : String) : (Value.string s).type = .stringValue := rfl
@[simp] theorem type_boolean (b : Bool) : (Value.boolean b).type = .booleanValue := rfl
@[simp] theorem type_ofInt (i : Int32) : (ofInt i).type = .intValue := rfl
@[simp] theorem type_emptyObject : emptyObject.type = .objectValue := rfl

@[simp] theorem type_assign (v : Value) (k : String) (w : Value) :
    (v.assign k w).type = .objectValue := by
  cases v <;> rfl

@[simp] theorem hasMembers_assign (v : Value) (k : String) (w : Value) :
    (v.assign k w).hasMembers = true := by
  simp [hasMembers]

theorem hasMembers_of_object {v : Value} (h : v.type = .objectValue) : v.hasMembers = true := by
  simp [hasMembers, h]

/-- Only an object has members to find. -/
theorem type_of_find? {v w : Value} {k : String} (h : v.find? k = some w) :
    v.type = .objectValue := by
  cases v <;> first | rfl | simp [find?] at h

theorem hasMembers_of_find? {v w : Value} {k : String} (h : v.find? k = some w) :
    v.hasMembers = true :=
  hasMembers_of_object (type_of_find? h)

@[simp] theorem find?_emptyObject (k : String) : emptyObject.find? k = none := by
  simp [emptyObject, find?]

@[simp] theorem find?_null (k : String) : Value.null.find? k = none := rfl

@[simp] theorem find?_assign_self (v : Value) (k : String) (w : Value) :
    (v.assign k w).find? k = some w := by
  cases v <;> simp [assign, find?]

@[simp] theorem find?_assign_ne (v : Value) {k n : String} (w : Value) (h : n ≠ k) :
    (v.assign k w).find? n = v.find? n := by
  cases v with
  | object names members =>
    by_cases hn : n ∈ names <;> simp [assign, find?, hn, h]
  | _ => simp [assign, find?, h]

theorem type_assignAll {v : Value} (fields : List (String × Value)) (h : v.type = .objectValue) :
    (v.assignAll fields).type = .objectValue := by
  induction fields generalizing v with
  | nil => exact h
  | cons f fs ih => exact ih (type_assign v f.1 f.2)

/-- After assigning members with distinct names each of them reads as it was assigned. -/
theorem find?_assignAll (v : Value) {fields : List (String × Value)}
    (hnd : (fields.map Prod.fst).Nodup) (k : String) :
    (v.assignAll fields).find? k = (fields.lookup k).or (v.find? k) := by
  induction fields generalizing v with
  | nil => rfl
  | cons f fs ih =>
    obtain ⟨name, w⟩ := f
    simp only [List.map_cons, List.nodup_cons] at hnd
    have hrec : (v.assignAll ((name, w) :: fs)).find? k = _ := ih (v.assign name w) hnd.2
    rw [hrec]
    by_cases hk : k = name
    · subst hk
      have hnone : fs.lookup k = none := by
        rw [List.lookup_eq_none_iff]
        intro g hg
        have : g.1 ≠ k := fun h => hnd.1 (List.mem_map.mpr ⟨g, hg, h⟩)
        simpa using this.symm
      simp [hnone]
    · have hbeq : (k == name) = false := by simpa using hk
      simp [List.lookup_cons, hbeq, find?_assign_ne _ _ hk]

theorem isMember_eq {v : Value} (h : v.hasMembers = true) (k : String) :
    v.isMember k = .ok (v.find? k).isSome := by
  simp [isMember, h]

theorem get_eq {v : Value} (h : v.hasMembers = true) (k : String) :
    v.get k = .ok ((v.find? k).getD .null) := by
  simp [get, h]

/-- Two objects with the same members are the same object. -/
theorem ext_find? {v w : Value} (hv : v.type = .objectValue) (hw : w.type = .objectValue)
    (h : ∀ k, v.find? k = w.find? k) : v = w := by
  cases v <;> simp only [type, reduceCtorEq] at hv
  cases w <;> simp only [type, reduceCtorEq] at hw
  rename_i names members names' members'
  obtain rfl : names = names' := by
    ext k
    have hk := congrArg Option.isSome (h k)
    by_cases h₁ : k ∈ names <;> by_cases h₂ : k ∈ names' <;> simp_all [find?]
  congr 1
  funext k
  simpa [find?] using h k.1

/-- The loop over the children of an object looks at exactly its members. -/
theorem allChildren_object {v : Value} (h : v.type = .objectValue) (test : String → Value → Bool) :
    v.allChildren test = true ↔ ∀ k w, v.find? k = some w → test k w = true := by
  cases v <;> simp only [type, reduceCtorEq] at h
  rename_i names members
  simp only [allChildren, decide_eq_true_eq, Subtype.forall]
  constructor
  · intro hall k w hk
    by_cases hmem : k ∈ names
    · obtain rfl : members ⟨k, hmem⟩ = w := by simpa [find?, hmem] using hk
      exact hall k hmem
    · simp [find?, hmem] at hk
  · intro hall k hmem
    exact hall k _ (by simp [find?, hmem])

/-! ## Numbers -/

/-- A 64-bit integer that an `int` can hold. -/
def FitsInt (i : Int64) : Prop := -2 ^ 31 ≤ i.toInt ∧ i.toInt < 2 ^ 31

instance (i : Int64) : Decidable (FitsInt i) := inferInstanceAs (Decidable (_ ∧ _))

theorem fitsInt_toInt64 (i : Int32) : FitsInt i.toInt64 := by
  have h₁ := i.le_toInt
  have h₂ := i.toInt_lt
  simpa [FitsInt] using ⟨h₁, h₂⟩

theorem asInt_int {i : Int64} (h : FitsInt i) : (Value.int i).asInt = .ok i.toInt32 := by
  simp only [asInt]
  exact if_pos h

@[simp] theorem asInt_ofInt (i : Int32) : (ofInt i).asInt = .ok i := by
  rw [ofInt, asInt_int (fitsInt_toInt64 i)]
  simp

/-- Narrowing an integer that fits and widening it again changes nothing. -/
theorem toInt64_toInt32 {i : Int64} (h : FitsInt i) : i.toInt32.toInt64 = i := by
  obtain ⟨h₁, h₂⟩ := h
  apply Int64.toInt_inj.mp
  rw [Int32.toInt_toInt64, Int64.toInt_toInt32]
  exact Int.bmod_eq_of_le (by omega) (by omega)

end Value

end Json

end NBRaft
