import Mathlib.Algebra.Order.Ring.Nat
import Mathlib.Data.List.Induction

/-!
# Numbers as bytes

A number is written as a fixed number of bytes, the most significant first. Writing and
reading are inverse to each other for numbers that fit.
-/

namespace Forge.Common

/-- The bytes of a number, the most significant first. -/
def toBeBytes : ℕ → ℕ → List UInt8
  | 0, _ => []
  | width + 1, number => toBeBytes width (number / 256) ++ [UInt8.ofNat number]

/-- The number that bytes make, the most significant first. -/
def fromBeBytes (bytes : List UInt8) : ℕ := bytes.foldl (fun number byte => number * 256 + byte.toNat) 0

/-- A number is written as so many bytes. -/
@[simp] theorem toBeBytes_length (width number : ℕ) : (toBeBytes width number).length = width := by
  induction width generalizing number with
  | zero => rfl
  | succ width ih => rw [toBeBytes, List.length_append, ih, List.length_singleton]

/-- The last byte is the least significant. -/
theorem fromBeBytes_append_singleton (bytes : List UInt8) (byte : UInt8) :
    fromBeBytes (bytes ++ [byte]) = fromBeBytes bytes * 256 + byte.toNat := by
  rw [fromBeBytes, List.foldl_append]
  rfl

/-- What was written is read, as far as it fits. -/
theorem fromBeBytes_toBeBytes (width number : ℕ) :
    fromBeBytes (toBeBytes width number) = number % 256 ^ width := by
  induction width generalizing number with
  | zero => rw [Nat.pow_zero, Nat.mod_one]; rfl
  | succ width ih =>
    have hbyte : (UInt8.ofNat number).toNat = number % 256 := UInt8.toNat_ofNat'
    rw [toBeBytes, fromBeBytes_append_singleton, ih, hbyte, Nat.pow_succ', Nat.mod_mul]
    omega

/-- A number that fits is read as it was written. -/
theorem fromBeBytes_toBeBytes_of_lt {width number : ℕ} (hnumber : number < 256 ^ width) :
    fromBeBytes (toBeBytes width number) = number := by
  rw [fromBeBytes_toBeBytes, Nat.mod_eq_of_lt hnumber]

/-- A number that is read is written as the same bytes. -/
theorem toBeBytes_fromBeBytes (bytes : List UInt8) : toBeBytes bytes.length (fromBeBytes bytes) = bytes := by
  induction bytes using List.reverseRecOn with
  | nil => rfl
  | append_singleton bytes byte ih =>
    have hbyte : byte.toNat < 256 := byte.toNat_lt
    have hdiv : (fromBeBytes bytes * 256 + byte.toNat) / 256 = fromBeBytes bytes := by omega
    have hlast : UInt8.ofNat (fromBeBytes bytes * 256 + byte.toNat) = byte := by
      refine UInt8.toNat_inj.mp ?_
      rw [UInt8.toNat_ofNat']
      omega
    rw [List.length_append, List.length_singleton, toBeBytes, fromBeBytes_append_singleton, hdiv, hlast, ih]

/-- Bytes make a number that fits in them. -/
theorem fromBeBytes_lt (bytes : List UInt8) : fromBeBytes bytes < 256 ^ bytes.length := by
  rw [← toBeBytes_fromBeBytes bytes, fromBeBytes_toBeBytes, toBeBytes_length]
  exact Nat.mod_lt _ (Nat.pow_pos (by decide))

end Forge.Common
