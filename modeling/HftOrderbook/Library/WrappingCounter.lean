import Mathlib.Tactic

/-!
# Counters that wrap

A counter that only ever counts up is kept in a 64-bit word. Two counters less than `2 ^ 64` apart
are compared and subtracted as if they did not wrap, and masking with one below a power of two is
the remainder of the unwrapped count.
-/

namespace WrappingCounter

theorem toNat_sub {a b : Nat} (hle : b ≤ a) (hlt : a - b < 2 ^ 64) :
    (UInt64.ofNat a - UInt64.ofNat b).toNat = a - b := by
  rw [← UInt64.ofNat_sub hle]
  exact UInt64.toNat_ofNat_of_lt' hlt

theorem ofNat_eq_iff {a b : Nat} (hle : b ≤ a) (hlt : a - b < 2 ^ 64) :
    UInt64.ofNat b = UInt64.ofNat a ↔ a = b := by
  constructor
  · intro heq
    have hsub := toNat_sub hle hlt
    rw [heq, UInt64.sub_self] at hsub
    change 0 = a - b at hsub
    omega
  · rintro rfl
    rfl

theorem toNat_and_mask {mask : UInt64} {bits : Nat} (hbits : bits ≤ 64)
    (hmask : mask.toNat = 2 ^ bits - 1) (n : Nat) :
    (UInt64.ofNat n &&& mask).toNat = n % 2 ^ bits := by
  rw [UInt64.toNat_and, hmask, Nat.and_two_pow_sub_one_eq_mod, UInt64.toNat_ofNat']
  exact Nat.mod_mod_of_dvd n (Nat.pow_dvd_pow 2 hbits)

theorem mod_ne_mod {a b lap : Nat} (hlt : a < b) (hlap : b < a + lap) : a % lap ≠ b % lap := by
  intro heq
  have hdvd : lap ∣ b - a := (Nat.modEq_iff_dvd' hlt.le).mp heq
  exact absurd (Nat.le_of_dvd (by omega) hdvd) (by omega)

/-! ### Powers of two -/

theorem shiftLeft_one (bits : Nat) :
    UInt64.ofNat (2 ^ bits) <<< 1 = UInt64.ofNat (2 ^ (bits + 1)) := by
  rw [← UInt64.toNat_inj, UInt64.toNat_shiftLeft, UInt64.toNat_ofNat', UInt64.toNat_ofNat']
  change (2 ^ bits % 2 ^ 64) <<< 1 % 2 ^ 64 = 2 ^ (bits + 1) % 2 ^ 64
  rw [Nat.shiftLeft_eq, Nat.mod_mul_mod, Nat.pow_one, ← Nat.pow_succ]

theorem toNat_two_pow {bits : Nat} (hbits : bits < 64) :
    (UInt64.ofNat (2 ^ bits)).toNat = 2 ^ bits :=
  UInt64.toNat_ofNat_of_lt' (Nat.pow_lt_pow_right (by norm_num) hbits)

theorem one_shiftLeft {bits : Nat} (hbits : bits < 64) :
    (1 : UInt64) <<< UInt64.ofNat bits = UInt64.ofNat (2 ^ bits) := by
  have hpow : 2 ^ bits < 2 ^ 64 := Nat.pow_lt_pow_right (by norm_num) hbits
  have htoNat : (UInt64.ofNat bits).toNat = bits :=
    UInt64.toNat_ofNat_of_lt' (by change bits < 2 ^ 64; omega)
  rw [← UInt64.toNat_inj, UInt64.toNat_shiftLeft, htoNat, Nat.mod_eq_of_lt hbits,
    toNat_two_pow hbits, Nat.shiftLeft_eq]
  change 1 * 2 ^ bits % 2 ^ 64 = 2 ^ bits
  rw [Nat.one_mul, Nat.mod_eq_of_lt hpow]

end WrappingCounter
