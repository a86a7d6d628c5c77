import NBRaft.Json.Value
import Mathlib.Data.Finset.Sort
import Mathlib.Data.String.Basic

/-!
# Iterating over JSON values

The accessors of `Json::Value` by which arrays and the members of objects are gone through, and the
tests of the type of an item.
-/

namespace NBRaft.Json

/-- `IsIntegral` of a finite double. -/
def Double.isIntegral (x : Double) : Bool := x.significand % scale == 0

namespace Value

def isArray (v : Value) : Bool := v.type == .arrayValue

/-- Whether the value can be converted to `int` without loss. -/
def isInt : Value → Bool
  | .int i => decide (FitsInt i)
  | .uint u => decide (u.toNat < 2 ^ 31)
  | .real x => x.toInt32?.isSome && x.isIntegral
  | _ => false

/-- `Json::Value(Json::arrayValue)`, with the items appended. -/
def ofItems (items : List Value) : Value := .array items.length items.get

/-- What `begin() .. end()` goes through, on an array. -/
def items : Value → List Value
  | .array _ items => List.ofFn items
  | _ => []

/-- `size()` of an array. -/
def size (v : Value) : Nat := v.items.length

/-- The names are in the order of the `std::map`. -/
def getMemberNames : Value → Except Exception (List String)
  | .object names _ => .ok (names.sort (· ≤ ·))
  | .null => .ok []
  | _ => .error .logicError

@[simp] theorem items_ofItems (items : List Value) : (ofItems items).items = items :=
  List.ofFn_get items

theorem asInt_of_isInt {v : Value} (h : v.isInt = true) : ∃ i, v.asInt = .ok i := by
  cases v with
  | int i => exact ⟨i.toInt32, if_pos (of_decide_eq_true h)⟩
  | uint u => exact ⟨_, if_pos (of_decide_eq_true h)⟩
  | real x =>
    obtain ⟨hsome, -⟩ := Bool.and_eq_true_iff.mp h
    obtain ⟨i, hi⟩ := Option.isSome_iff_exists.mp hsome
    exact ⟨i, by rw [asInt, hi]; rfl⟩
  | null | string | boolean | array | object => cases h

theorem exists_of_isString {v : Value} (h : v.isString = true) : ∃ s, v = .string s := by
  cases v with
  | string s => exact ⟨s, rfl⟩
  | null | int | uint | real | boolean | array | object => cases h

/-- The names are those of the members. -/
theorem getMemberNames_of_hasMembers {v : Value} (h : v.hasMembers = true) :
    ∃ names, v.getMemberNames = .ok names ∧ ∀ k, k ∈ names ↔ (v.find? k).isSome = true := by
  cases v with
  | object names members =>
    refine ⟨_, rfl, fun k => ?_⟩
    by_cases hk : k ∈ names <;> simp [find?, hk]
  | null => exact ⟨[], rfl, fun k => by simp⟩
  | int | uint | real | string | boolean | array => cases h

/-- Values of the other types have no names to give, and no members either. -/
theorem getMemberNames_of_not_hasMembers {v : Value} (h : v.hasMembers = false) :
    v.getMemberNames = .error .logicError ∧ ∀ k, v.find? k = none := by
  cases v with
  | null | object => cases h
  | int | uint | real | string | boolean | array => exact ⟨rfl, fun _ => rfl⟩

end Value

end NBRaft.Json
