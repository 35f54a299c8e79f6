import HftOrderbook.Library.BitString
import Mathlib.Data.List.DropRight

/-!
# Base64 as RFC 4648 specifies it

The input is a string of bits, filled up with zeros to whole groups of six. Each group is written as
a character of the alphabet, and the text is filled up to whole groups of four characters. The
decoder undoes this, and rejects text that no input is encoded as for its length, its padding or its
characters.
-/

namespace Rfc4648

open BitString

/-- The alphabet of table 1. -/
def char (v : Nat) : UInt8 :=
  if v < 26 then UInt8.ofNat (0x41 + v)
  else if v < 52 then UInt8.ofNat (0x61 + (v - 26))
  else if v < 62 then UInt8.ofNat (0x30 + (v - 52))
  else if v = 62 then 0x2B
  else 0x2F

def value? (c : UInt8) : Option Nat :=
  if 0x41 ≤ c ∧ c ≤ 0x5A then some (c.toNat - 0x41)
  else if 0x61 ≤ c ∧ c ≤ 0x7A then some (c.toNat - 0x61 + 26)
  else if 0x30 ≤ c ∧ c ≤ 0x39 then some (c.toNat - 0x30 + 52)
  else if c = 0x2B then some 62
  else if c = 0x2F then some 63
  else none

def padChar : UInt8 := 0x3D

/-- The bits with zeros added on the right to whole groups of six. -/
def filled (s : List Bool) : List Bool := s ++ List.replicate ((6 - s.length % 6) % 6) false

def chars (s : List Bool) : List UInt8 := (groups 6 (filled s)).map fun g => char (valueOf g)

def padded (text : List UInt8) : List UInt8 :=
  text ++ List.replicate ((4 - text.length % 4) % 4) padChar

def encode (data : List UInt8) : List UInt8 := padded (chars (bits data))

def decode (text : List UInt8) : Option (List UInt8) :=
  let body := text.rdropWhile (· == padChar)
  if text.length % 4 = 0 ∧ text.length ≤ body.length + 2 then
    (body.mapM value?).map fun values => octets (values.flatMap (bitsOf 6))
  else none

/-! ### The encoder, three bytes at a time -/

theorem six_dvd_length_filled (s : List Bool) : 6 ∣ (filled s).length := by
  rw [filled, List.length_append, List.length_replicate]
  omega

theorem valueOf_filled (s : List Bool) :
    valueOf (filled s) = valueOf s * 2 ^ ((6 - s.length % 6) % 6) := by
  rw [filled, valueOf_append, valueOf_replicate_false, List.length_replicate, Nat.add_zero]

theorem filled_append {s : List Bool} (h : 6 ∣ s.length) (t : List Bool) :
    filled (s ++ t) = s ++ filled t := by
  have hmod : (s ++ t).length % 6 = t.length % 6 := by
    rw [List.length_append]
    omega
  rw [filled, hmod, filled, List.append_assoc]

theorem chars_append {s : List Bool} (h : 6 ∣ s.length) (t : List Bool) :
    chars (s ++ t) = chars s ++ chars t := by
  have hwhole : filled s = s := by
    have hfill := filled_append h []
    rw [List.append_nil] at hfill
    exact hfill.trans (List.append_nil s)
  rw [chars, filled_append h, groups_append (by decide) h, List.map_append, chars, hwhole, chars]

/-- The characters as the digits of one number. -/
theorem chars_eq (m : Nat) {s : List Bool} (h : (filled s).length = 6 * m) :
    chars s = (List.range m).reverse.map fun i => char (valueOf (filled s) / 2 ^ (6 * i) % 64) := by
  have hbits : filled s = bitsOf (6 * m) (valueOf (filled s)) := by
    rw [← h, bitsOf_valueOf]
  rw [chars, hbits, groups_bitsOf (by decide), List.map_map, ← hbits]
  refine List.map_congr_left fun i _ => ?_
  rw [Function.comp_apply, valueOf_bitsOf]
  norm_num

theorem padded_append {text : List UInt8} (h : 4 ∣ text.length) (t : List UInt8) :
    padded (text ++ t) = text ++ padded t := by
  have hmod : (text ++ t).length % 4 = t.length % 4 := by
    rw [List.length_append]
    omega
  rw [padded, hmod, padded, List.append_assoc]

theorem length_chars_bits (data : List UInt8) :
    (chars (bits data)).length = (8 * data.length + 5) / 6 := by
  rw [chars, List.length_map, length_groups, filled, List.length_append, List.length_replicate,
    length_bits]
  omega

theorem encode_append {data : List UInt8} (h : 3 ∣ data.length) (rest : List UInt8) :
    encode (data ++ rest) = chars (bits data) ++ encode rest := by
  have hlength := length_bits data
  have hchars := length_chars_bits data
  rw [encode, bits_append, chars_append (by omega), padded_append (by omega), encode]

/-! ### The decoder undoes the encoder -/

theorem value?_char : ∀ v < 64, value? (char v) = some v := by
  decide

theorem char_ne_padChar : ∀ v < 64, char v ≠ padChar := by
  decide

theorem rdropWhile_padded {text : List UInt8} (h : ∀ c ∈ text, c ≠ padChar) :
    (padded text).rdropWhile (· == padChar) = text := by
  rw [padded]
  generalize (4 - text.length % 4) % 4 = n
  induction n with
  | zero =>
      rw [List.replicate_zero, List.append_nil, List.rdropWhile_eq_self_iff]
      intro hne
      rw [beq_iff_eq]
      exact h _ (List.getLast_mem hne)
  | succ n ih =>
      rw [List.replicate_succ', ← List.append_assoc, List.rdropWhile_concat_pos _ _ _ (by simp), ih]

theorem valueOf_group_lt {s g : List Bool} (hg : g ∈ groups 6 s) : valueOf g < 64 := by
  have hlt := valueOf_lt g
  rwa [length_of_mem_groups hg] at hlt

theorem mapM_value?_chars (s : List Bool) :
    (chars s).mapM value? = some ((groups 6 (filled s)).map valueOf) := by
  have hlt : ∀ g ∈ groups 6 (filled s), valueOf g < 64 := fun g hg => valueOf_group_lt hg
  rw [chars]
  generalize groups 6 (filled s) = gs at hlt ⊢
  induction gs with
  | nil => rfl
  | cons g gs ih =>
      rw [List.map_cons, List.mapM_cons, value?_char _ (hlt g List.mem_cons_self),
        ih fun g hg => hlt g (List.mem_cons_of_mem _ hg)]
      rfl

theorem decode_encode (data : List UInt8) : decode (encode data) = some data := by
  have hbody : (encode data).rdropWhile (· == padChar) = chars (bits data) := by
    refine rdropWhile_padded fun c hc => ?_
    obtain ⟨g, hg, rfl⟩ := List.mem_map.mp hc
    exact char_ne_padChar _ (valueOf_group_lt hg)
  have hlength : (encode data).length =
      (chars (bits data)).length + (4 - (chars (bits data)).length % 4) % 4 := by
    rw [encode, padded, List.length_append, List.length_replicate]
  have hchars := length_chars_bits data
  have hfill : (6 - (bits data).length % 6) % 6 < 8 := by omega
  rw [decode, hbody, if_pos (by omega), mapM_value?_chars, Option.map_some,
    flatMap_values (six_dvd_length_filled _), filled, octets_bits_append]
  rwa [List.length_replicate]

end Rfc4648
