import Mathlib.Algebra.Ring.Int.Defs
import Mathlib.Algebra.Ring.Nat
import Mathlib.Tactic.Common

/-!
# Implicit conversions between integer types

What C++ makes of an integer where a value of another type is expected: the residue modulo the width
of that type, which is negative for one half of the residues if the type is signed. `int` has 32
bits here, `unsigned short` 16, and `std::size_t` and `unsigned long long` 64.
-/

namespace Conversions

def intToShort (i : Int32) : UInt16 := i.toUInt32.toUInt16

def intToSize (i : Int32) : UInt64 := i.toInt64.toUInt64

def sizeToInt (n : UInt64) : Int32 := n.toUInt32.toInt32

theorem toNat_intToShort (i : Int32) : ((intToShort i).toNat : Int) = i.toInt % 2 ^ 16 := by
  have h : i.toInt = (i.toUInt32.toNat : Int).bmod (2 ^ 32) := BitVec.toInt_eq_toNat_bmod i.toBitVec
  rw [intToShort, UInt32.toNat_toUInt16, h, Int.bmod_def]
  omega

/-- An `int` arrives as it is exactly if it is an `unsigned short`. -/
theorem toNat_intToShort_eq_iff (i : Int32) :
    ((intToShort i).toNat : Int) = i.toInt ↔ 0 ≤ i.toInt ∧ i.toInt < 2 ^ 16 := by
  rw [toNat_intToShort]
  omega

theorem toNat_intToSize (i : Int32) : ((intToSize i).toNat : Int) = i.toInt % 2 ^ 64 := by
  have h : i.toInt64.toInt = ((intToSize i).toNat : Int).bmod (2 ^ 64) :=
    BitVec.toInt_eq_toNat_bmod i.toInt64.toBitVec
  have hlt := (intToSize i).toNat_lt
  rw [Int32.toInt_toInt64, Int.bmod_def] at h
  rw [h]
  omega

theorem toNat_intToSize_of_nonneg {i : Int32} (h : 0 ≤ i.toInt) :
    ((intToSize i).toNat : Int) = i.toInt := by
  have hsize := toNat_intToSize i
  have hhigh := i.toInt_lt
  omega

theorem toInt_sizeToInt (n : UInt64) : (sizeToInt n).toInt = (n.toNat : Int).bmod (2 ^ 32) := by
  have h : (sizeToInt n).toInt = ((n.toUInt32.toNat : Nat) : Int).bmod (2 ^ 32) :=
    BitVec.toInt_eq_toNat_bmod n.toUInt32.toBitVec
  rw [h, UInt64.toNat_toUInt32, Int.bmod_def, Int.bmod_def]
  omega

/-- An `int` is a size below `n` exactly if it is so as a number, where `n` has no more than 32
bits. -/
theorem intToSize_lt_iff {i : Int32} {n : UInt64} (hn : n.toNat < 2 ^ 32) :
    intToSize i < n ↔ 0 ≤ i.toInt ∧ i.toInt < n.toNat := by
  have hsize := toNat_intToSize i
  have hlow := i.le_toInt
  have hhigh := i.toInt_lt
  rw [UInt64.lt_iff_toNat_lt]
  omega

/-- An index below `n` is still one behind an `int` exactly if the `int` is not negative. -/
theorem intToSize_sizeToInt_lt_iff {i n : UInt64} (hi : i < n) (hn : n.toNat < 2 ^ 32) :
    intToSize (sizeToInt i) < n ↔ i.toNat < 2 ^ 31 := by
  have hlt : i.toNat < n.toNat := UInt64.lt_iff_toNat_lt.mp hi
  rw [intToSize_lt_iff hn, toInt_sizeToInt, Int.bmod_def]
  omega

end Conversions
