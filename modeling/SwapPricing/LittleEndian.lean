/-!
# Little-endian integers

An integer of a given width is written as that many bytes, the lowest first.
Writing and reading are each other's inverse on integers that fit the width.
-/

namespace SwapPricing
namespace LittleEndian

/-- The low `width` bytes of `n`, lowest first. -/
def bytes : (width n : Nat) → List UInt8
  | 0, _ => []
  | width + 1, n => UInt8.ofNat n :: bytes width (n / 256)

/-- The value of bytes given lowest first. -/
def value : List UInt8 → Nat
  | [] => 0
  | byte :: rest => byte.toNat + 256 * value rest

/-- The number of integers that fit in `width` bytes. -/
def limit : (width : Nat) → Nat
  | 0 => 1
  | width + 1 => 256 * limit width

theorem length_bytes (width n : Nat) : (bytes width n).length = width := by
  induction width generalizing n with
  | zero => rfl
  | succ width ih => simp [bytes, ih]

theorem value_bytes {width n : Nat} (h : n < limit width) : value (bytes width n) = n := by
  induction width generalizing n with
  | zero =>
      simp only [limit] at h
      simp only [bytes, value]
      omega
  | succ width ih =>
      have hdiv : n / 256 < limit width := by
        simp only [limit] at h
        omega
      simp only [bytes, value, ih hdiv, UInt8.toNat_ofNat']
      omega

theorem value_lt (given : List UInt8) : value given < limit given.length := by
  induction given with
  | nil => exact Nat.one_pos
  | cons byte rest ih =>
      have hlt := byte.toNat_lt
      simp only [List.length_cons, value, limit]
      omega

theorem bytes_value (given : List UInt8) : bytes given.length (value given) = given := by
  induction given with
  | nil => rfl
  | cons byte rest ih =>
      have hlt := byte.toNat_lt
      have hdiv : (byte.toNat + 256 * value rest) / 256 = value rest := by omega
      have hlow : UInt8.ofNat (byte.toNat + 256 * value rest) = byte := by
        apply UInt8.toNat_inj.mp
        rw [UInt8.toNat_ofNat']
        omega
      simp only [List.length_cons, bytes, value, hdiv, hlow, ih]

end LittleEndian
end SwapPricing
