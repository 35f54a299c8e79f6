import HftOrderbook.Feed.WebSocket
import HftOrderbook.Library.Rfc4648
import HftOrderbook.Proof.Sha1

/-!
# The key of the handshake

Three bytes are four groups of six bits, so that `base64` may take three bytes at a time. One or two
bytes at the end are filled up with zeros, which a word of 24 bits has there already.
-/

namespace HftOrderbook

open BitString

/-! ### Base64 -/

namespace Base64

theorem getD_T : ∀ v < 64, T.getD v 0 = Rfc4648.char v := by
  decide

theorem char_eq (n : UInt32) {shift : Nat} (hshift : shift < 32) :
    char n (UInt32.ofNat shift) = Rfc4648.char (n.toNat / 2 ^ shift % 64) := by
  have htoNat : (UInt32.ofNat shift).toNat = shift :=
    UInt32.toNat_ofNat_of_lt' (by change shift < 2 ^ 32; omega)
  have hindex : ((n >>> UInt32.ofNat shift) &&& 63).toNat = n.toNat / 2 ^ shift % 64 := by
    rw [UInt32.toNat_and, UInt32.toNat_shiftRight, htoNat, Nat.mod_eq_of_lt hshift,
      Nat.shiftRight_eq_div_pow]
    exact Nat.and_two_pow_sub_one_eq_mod _ 6
  rw [char, hindex]
  exact getD_T _ (Nat.mod_lt _ (by decide))

theorem toNat_word (d₀ d₁ d₂ : UInt8) :
    ((d₀.toUInt32 <<< 16) ||| (d₁.toUInt32 <<< 8) ||| d₂.toUInt32).toNat =
      (d₀.toNat * 256 + d₁.toNat) * 256 + d₂.toNat := by
  have hzero : (0 : UInt8).toUInt32 <<< 24 = 0 := by decide
  have hword := toNat_or_shifts 0 d₀ d₁ d₂
  rwa [hzero, UInt32.zero_or, UInt8.toNat_zero, Nat.zero_mul, Nat.zero_add] at hword

theorem toNat_word_two (d₀ d₁ : UInt8) :
    ((d₀.toUInt32 <<< 16) ||| (d₁.toUInt32 <<< 8)).toNat =
      (d₀.toNat * 256 + d₁.toNat) * 256 := by
  have hzero : (0 : UInt8).toUInt32 = 0 := by decide
  have hword := toNat_word d₀ d₁ 0
  rwa [hzero, UInt32.or_zero, UInt8.toNat_zero, Nat.add_zero] at hword

theorem toNat_word_one (d₀ : UInt8) : (d₀.toUInt32 <<< 16).toNat = d₀.toNat * 256 * 256 := by
  have hzero : (0 : UInt8).toUInt32 <<< 8 = 0 := by decide
  have hword := toNat_word_two d₀ 0
  rwa [hzero, UInt32.or_zero, UInt8.toNat_zero, Nat.add_zero] at hword

/-- The characters of up to four groups, from a word that has the groups on top of 24 bits. -/
theorem chars_eq {s : List Bool} {m : Nat} (hm : m ≤ 4)
    (hlength : (Rfc4648.filled s).length = 6 * m) {n : UInt32}
    (hn : n.toNat = valueOf (Rfc4648.filled s) * 2 ^ (24 - 6 * m)) :
    Rfc4648.chars s =
      (List.range m).reverse.map fun i => char n (UInt32.ofNat (24 - 6 * m + 6 * i)) := by
  rw [Rfc4648.chars_eq m hlength]
  refine List.map_congr_left fun i hi => ?_
  have him : i < m := List.mem_range.mp (List.mem_reverse.mp hi)
  rw [char_eq n (by omega), hn, Nat.pow_add, ← Nat.div_div_eq_div_mul,
    Nat.mul_div_cancel _ (Nat.two_pow_pos _)]

end Base64

theorem base64_eq_encode (data : List UInt8) : base64 data = Rfc4648.encode data := by
  induction data using base64.induct with
  | case1 => rfl
  | case2 d₀ =>
      have hvalue : valueOf (Rfc4648.filled (bits [d₀])) = d₀.toNat * 16 := by
        simp [Rfc4648.valueOf_filled, bits]
      have hn : (d₀.toUInt32 <<< 16).toNat = valueOf (Rfc4648.filled (bits [d₀])) * 2 ^ 12 := by
        rw [Base64.toNat_word_one, hvalue]
        omega
      have hlength : (Rfc4648.filled (bits [d₀])).length = 6 * 2 := by
        simp [Rfc4648.filled, length_bits]
      rw [Rfc4648.encode, Base64.chars_eq (by decide) hlength hn]
      rfl
  | case3 d₀ d₁ =>
      have hvalue : valueOf (Rfc4648.filled (bits [d₀, d₁])) =
          (d₀.toNat * 256 + d₁.toNat) * 4 := by
        simp [Rfc4648.valueOf_filled, bits, valueOf_append]
      have hn : ((d₀.toUInt32 <<< 16) ||| (d₁.toUInt32 <<< 8)).toNat =
          valueOf (Rfc4648.filled (bits [d₀, d₁])) * 2 ^ 6 := by
        rw [Base64.toNat_word_two, hvalue]
        omega
      have hlength : (Rfc4648.filled (bits [d₀, d₁])).length = 6 * 3 := by
        simp [Rfc4648.filled, length_bits]
      rw [Rfc4648.encode, Base64.chars_eq (by decide) hlength hn]
      rfl
  | case4 d₀ d₁ d₂ rest ih =>
      have hvalue : valueOf (Rfc4648.filled (bits [d₀, d₁, d₂])) =
          (d₀.toNat * 256 + d₁.toNat) * 256 + d₂.toNat := by
        simp [Rfc4648.valueOf_filled, bits, valueOf_append]
        omega
      have hn : ((d₀.toUInt32 <<< 16) ||| (d₁.toUInt32 <<< 8) ||| d₂.toUInt32).toNat =
          valueOf (Rfc4648.filled (bits [d₀, d₁, d₂])) * 2 ^ 0 := by
        rw [Base64.toNat_word, hvalue, Nat.pow_zero, Nat.mul_one]
      have hlength : (Rfc4648.filled (bits [d₀, d₁, d₂])).length = 6 * 4 := by
        simp [Rfc4648.filled, length_bits]
      have hsplit := Rfc4648.encode_append (show 3 ∣ [d₀, d₁, d₂].length by simp) rest
      rw [Base64.chars_eq (by decide) hlength hn] at hsplit
      rw [base64, ih]
      exact hsplit.symm

/-- `sha1` and `base64` are the functions of the documents they name, and `accept_key` puts them
together. The length field of the padding is 64 bits wide in the source and in RFC 3174, which asks
for messages whose length fits. -/
theorem acceptKey_correct :
    (∀ data, bits (sha1 data) = Rfc3174.sha1 (bits data)) ∧
      (∀ data, base64 data = Rfc4648.encode data ∧ Rfc4648.decode (base64 data) = some data) ∧
      ∀ clientKey, Ws.acceptKey clientKey =
        Rfc4648.encode (octets (Rfc3174.sha1 (bits (clientKey ++ Ws.kGuid)))) := by
  refine ⟨bits_sha1, fun data => ⟨base64_eq_encode data, ?_⟩, fun clientKey => ?_⟩
  · rw [base64_eq_encode, Rfc4648.decode_encode]
  · rw [Ws.acceptKey, base64_eq_encode, ← bits_sha1, octets_bits]

/-- The pair that the tests of the repository hold. -/
example : Ws.acceptKey (ByteText.ascii "dGhlIHNhbXBsZSBub25jZQ==") =
    ByteText.ascii "s3pPLMBiTxaQ9kYGzzhZRbK+xOo=" := by
  decide +kernel

end HftOrderbook
