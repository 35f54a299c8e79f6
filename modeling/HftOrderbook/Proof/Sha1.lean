import HftOrderbook.Core.Sha1
import HftOrderbook.Feed.Encoding
import HftOrderbook.Library.Rfc3174

/-!
# The digest is SHA-1

The buffer the source fills is the padded message, byte for bit. On it, each loop of the source is
compared with the recursion it computes: the words of a chunk, the rounds, the chunks.
-/

namespace HftOrderbook

open BitString

namespace Sha1

/-! ### The size of the buffer -/

/-- The zero bytes between the one bit and the length. -/
def zeroBytes (len : Nat) : Nat := (120 - (len + 1) % 64) % 64

theorem totalLoop_eq (fuel total : Nat) (h : (120 - total % 64) % 64 ≤ fuel) :
    totalLoop fuel total = total + (120 - total % 64) % 64 := by
  induction fuel generalizing total with
  | zero =>
      rw [totalLoop]
      omega
  | succ fuel ih =>
      rw [totalLoop]
      split_ifs with hmod
      · rw [ih (total + 1) (by omega)]
        omega
      · omega

theorem totalOf_eq (len : Nat) : totalOf len = len + 1 + zeroBytes len + 8 := by
  rw [totalOf, totalLoop_eq 64 (len + 1) (by omega), zeroBytes]

theorem totalOf_mod (len : Nat) : totalOf len % 64 = 0 := by
  rw [totalOf_eq, zeroBytes]
  omega

theorem zeros_eq (len : Nat) : Rfc3174.zeros (8 * len) = 7 + 8 * zeroBytes len := by
  rw [Rfc3174.zeros, Nat.find_eq_iff, zeroBytes]
  refine ⟨by omega, fun k hk => by omega⟩

/-! ### Filling the buffer -/

section Filling

variable {α : Type}

theorem foldl_set_range (f : Nat → α) (l : List α) (n : Nat) (h : n ≤ l.length) :
    (List.range n).foldl (fun l i => l.set i (f i)) l = (List.range n).map f ++ l.drop n := by
  induction n with
  | zero => rfl
  | succ n ih =>
      rw [List.range_succ, List.foldl_append, ih (by omega), List.foldl_cons, List.foldl_nil,
        List.drop_eq_getElem_cons (by omega), List.set_append_right _ _ (by simp), List.length_map,
        List.length_range, Nat.sub_self, List.set_cons_zero, List.map_append, List.map_singleton,
        List.append_assoc, List.singleton_append]

/-- The back of a list written over, last position first. -/
theorem foldl_set_back (f : Nat → α) (l back : List α) (n : Nat) (h : n ≤ back.length) :
    (List.range n).foldl (fun l' i => l'.set (l.length + back.length - 1 - i) (f i)) (l ++ back) =
      l ++ (back.take (back.length - n) ++ (List.range n).reverse.map f) := by
  induction n with
  | zero => simp
  | succ n ih =>
      obtain ⟨m, hm⟩ := Nat.exists_eq_add_of_le' h
      have hlt : m < back.length := by omega
      have hlast : (back.take (m + 1)).set m (f n) = back.take m ++ [f n] := by
        rw [List.take_succ_eq_append_getElem hlt, List.set_append_right _ _ (by simp),
          List.length_take_of_le hlt.le, Nat.sub_self, List.set_cons_zero]
      have hwrite : ∀ rest : List α, (l ++ (back.take (m + 1) ++ rest)).set (l.length + m) (f n) =
          l ++ (back.take m ++ f n :: rest) := by
        intro rest
        have hset : m < (back.take (m + 1)).length := by
          rw [List.length_take_of_le (by omega)]
          omega
        rw [List.set_append_right _ _ (by omega), Nat.add_sub_cancel_left,
          List.set_append_left _ _ hset, hlast, List.append_assoc, List.singleton_append]
      have hindex : l.length + back.length - 1 - n = l.length + m := by omega
      have hbefore : back.length - n = m + 1 := by omega
      have hafter : back.length - (n + 1) = m := by omega
      rw [List.range_succ, List.foldl_append, ih (by omega), List.foldl_cons, List.foldl_nil,
        hindex, hbefore, hwrite, hafter, List.reverse_concat, List.map_cons]

end Filling

theorem toUInt8_and (v : UInt64) : (v &&& 0xFF).toUInt8 = v.toUInt8 := by
  rw [← UInt8.toNat_inj, UInt64.toNat_toUInt8, UInt64.toNat_toUInt8, UInt64.toNat_and]
  change (v.toNat &&& 2 ^ 8 - 1) % 2 ^ 8 = _
  rw [Nat.and_two_pow_sub_one_eq_mod, Nat.mod_mod]

theorem toNat_length_word (n : Nat) :
    (UInt64.ofNat n * 8).toNat % 2 ^ 64 = 8 * n % 2 ^ 64 := by
  rw [UInt64.toNat_mul, UInt64.toNat_ofNat']
  change n % 2 ^ 64 * 8 % 2 ^ 64 % 2 ^ 64 = _
  omega

theorem map_getD_range (data : List UInt8) :
    (List.range data.length).map (fun i => data.getD i 0) = data := by
  refine List.ext_getElem (by simp) fun i hi hi' => ?_
  simp [List.getD_eq_getElem?_getD, List.getElem?_eq_getElem hi']

theorem message_eq (data : List UInt8) :
    message data = data ++ 0x80 :: (List.replicate (zeroBytes data.length) 0 ++
      beN (UInt64.ofNat data.length * 8) 8) := by
  have htotal := totalOf_eq data.length
  set z := zeroBytes data.length
  have hcopied : (List.range data.length).foldl (fun msg i => msg.set i (data.getD i 0))
      (List.replicate (totalOf data.length) 0) = data ++ List.replicate (z + 9) 0 := by
    rw [foldl_set_range _ _ _ (by rw [List.length_replicate]; omega), map_getD_range,
      List.drop_replicate, show totalOf data.length - data.length = z + 9 by omega]
  have hmarked : (data ++ List.replicate (z + 9) 0).set data.length 0x80 =
      (data ++ 0x80 :: List.replicate z 0) ++ List.replicate 8 0 := by
    rw [List.set_append_right _ _ le_rfl, Nat.sub_self, show z + 9 = z + 8 + 1 by omega,
      List.replicate_succ, List.set_cons_zero, List.replicate_add, List.append_assoc,
      List.cons_append]
  have hsize : totalOf data.length =
      (data ++ 0x80 :: List.replicate z 0).length + (List.replicate 8 (0 : UInt8)).length := by
    rw [List.length_append, List.length_cons, List.length_replicate, List.length_replicate]
    omega
  rw [message, hcopied, hmarked, hsize, foldl_set_back _ _ _ _ (by simp)]
  simp only [toUInt8_and]
  rw [beN]
  simp

theorem bits_beN (v : UInt64) : bits (beN v 8) = bitsOf 64 v.toNat :=
  bits_digits fun _ hi => toNat_beN_byte v hi

/-- The byte `0x80` is the one bit and the first seven of the zeros. -/
theorem bits_message (data : List UInt8) : bits (message data) = Rfc3174.pad (bits data) := by
  have hmark : octetBits 0x80 = true :: List.replicate 7 false := by decide
  have hlength : bitsOf 64 (UInt64.ofNat data.length * 8).toNat = bitsOf 64 (8 * data.length) :=
    bitsOf_congr (toNat_length_word data.length)
  rw [message_eq, bits_append, bits_cons, bits_append, bits_replicate_zero, bits_beN, hmark,
    hlength, Rfc3174.pad, length_bits, zeros_eq, List.replicate_add, List.cons_append,
    List.append_assoc]

theorem length_message (data : List UInt8) : (message data).length = totalOf data.length := by
  rw [message_eq, List.length_append, List.length_cons, List.length_append, List.length_replicate,
    length_beN, totalOf_eq]
  omega

/-! ### Words -/

theorem wordOf_bits (b₀ b₁ b₂ b₃ : UInt8) :
    Rfc3174.wordOf (bits [b₀, b₁, b₂, b₃]) =
      ((b₀.toUInt32 <<< 24) ||| (b₁.toUInt32 <<< 16) ||| (b₂.toUInt32 <<< 8) |||
        b₃.toUInt32).toBitVec := by
  have hvalue : valueOf (bits [b₀, b₁, b₂, b₃]) =
      ((b₀.toNat * 256 + b₁.toNat) * 256 + b₂.toNat) * 256 + b₃.toNat := by
    simp [bits, valueOf_append]
    omega
  rw [Rfc3174.wordOf, hvalue, ← toNat_or_shifts]
  exact (BitVec.ofNat_toNat 32 _).trans (BitVec.setWidth_eq _)

/-- The bits of the chunk with the number `i`. -/
def blockAt (msg : List UInt8) (i : Nat) : List Bool := ((bits msg).drop (512 * i)).take 512

theorem wordOf_drop {msg : List UInt8} {o : Nat} (ho : o + 4 ≤ msg.length) :
    Rfc3174.wordOf (((bits msg).drop (8 * o)).take 32) = (wordAt msg o).toBitVec := by
  have hbyte : ∀ j < 4, msg[o + j]? = some (msg.getD (o + j) 0) := by
    intro j hj
    rw [List.getD_eq_getElem?_getD, List.getElem?_eq_getElem (by omega), Option.getD_some]
  have hfour := take_drop_four (hbyte 0 (by decide)) (hbyte 1 (by decide)) (hbyte 2 (by decide))
    (hbyte 3 (by decide))
  rw [Nat.add_zero] at hfour
  rw [bits_drop, show 32 = 8 * 4 from rfl, bits_take, hfour, wordOf_bits]
  rfl

theorem W_eq_wordAt {msg : List UInt8} {i t : Nat} (hi : 64 * i + 64 ≤ msg.length) (ht : t < 16) :
    Rfc3174.W (blockAt msg i) t = (wordAt msg (64 * i + 4 * t)).toBitVec := by
  have hlength : (blockAt msg i).length = 512 := by
    rw [blockAt, List.length_take, List.length_drop, length_bits]
    omega
  have hgroup : (groups 32 (blockAt msg i)).getD t [] =
      ((bits msg).drop (8 * (64 * i + 4 * t))).take 32 := by
    rw [groups, hlength, List.getD_eq_getElem?_getD, List.getElem?_map,
      List.getElem?_eq_getElem (by simpa using ht), Option.map_some, Option.getD_some,
      List.getElem_range, blockAt, List.drop_take, List.drop_drop, List.take_take,
      Nat.min_eq_left (by omega)]
    congr 2
    omega
  rw [Rfc3174.W, if_pos ht, hgroup, wordOf_drop (by omega)]

/-! ### The loops of a chunk -/

theorem toBitVec_rol (x : UInt32) {n : Nat} (hpos : 0 < n) (hlt : n < 32) :
    (rol x (UInt32.ofNat n)).toBitVec = Rfc3174.rotate n x.toBitVec := by
  have hn : (UInt32.ofNat n).toNat = n := UInt32.toNat_ofNat_of_lt' (by change n < 2 ^ 32; omega)
  have hleft : ((UInt32.ofNat n).toBitVec % 32).toNat = n := by
    change (UInt32.ofNat n).toNat % 32 = n
    rw [hn, Nat.mod_eq_of_lt hlt]
  have hright : ((32 - UInt32.ofNat n).toBitVec % 32).toNat = 32 - n := by
    change (32 - UInt32.ofNat n).toNat % 32 = 32 - n
    have hle : UInt32.ofNat n ≤ 32 := UInt32.le_iff_toNat_le.mpr (hn.le.trans hlt.le)
    rw [UInt32.toNat_sub_of_le _ _ hle, hn]
    exact Nat.mod_eq_of_lt (by change 32 - n < 32; omega)
  rw [rol, UInt32.toBitVec_or, UInt32.toBitVec_shiftLeft, UInt32.toBitVec_shiftRight,
    BitVec.shiftLeft_eq', BitVec.ushiftRight_eq', hleft, hright, Rfc3174.rotate]

/-- `w` holds the first `n` words of the block. -/
def Holds (block : List Bool) (n : Nat) (w : List UInt32) : Prop :=
  w.length = n ∧ ∀ t < n, (w.getD t 0).toBitVec = Rfc3174.W block t

theorem holds_wordAt {msg : List UInt8} {i : Nat} (hi : 64 * i + 64 ≤ msg.length) :
    Holds (blockAt msg i) 16 ((List.range 16).map fun t => wordAt msg (64 * i + 4 * t)) := by
  refine ⟨by simp, fun t ht => ?_⟩
  rw [W_eq_wordAt hi ht]
  simp [List.getD_eq_getElem?_getD, ht]

theorem Holds.extend {block : List Bool} {n : Nat} {w : List UInt32} (h : Holds block n w)
    (hn : 16 ≤ n) : Holds block (n + 1) (extend w n) := by
  obtain ⟨hlength, hwords⟩ := h
  have hlast : (rol (w.getD (n - 3) 0 ^^^ w.getD (n - 8) 0 ^^^ w.getD (n - 14) 0 ^^^
      w.getD (n - 16) 0) 1).toBitVec = Rfc3174.W block n := by
    have hrol := fun x => toBitVec_rol x (show 0 < 1 by decide) (show 1 < 32 by decide)
    rw [Rfc3174.W, if_neg (not_lt.mpr hn), ← hwords (n - 3) (by omega),
      ← hwords (n - 8) (by omega), ← hwords (n - 14) (by omega), ← hwords (n - 16) (by omega)]
    exact hrol _
  refine ⟨by rw [Sha1.extend, List.length_append, hlength]; rfl, fun t ht => ?_⟩
  rw [Sha1.extend, List.getD_eq_getElem?_getD]
  rcases Nat.lt_succ_iff_lt_or_eq.mp ht with hlt | rfl
  · rw [List.getElem?_append_left (by omega), ← List.getD_eq_getElem?_getD, hwords t hlt]
  · rw [List.getElem?_append_right hlength.le, hlength, Nat.sub_self]
    exact hlast

theorem holds_schedule {msg : List UInt8} {i : Nat} (hi : 64 * i + 64 ≤ msg.length) :
    Holds (blockAt msg i) 80 (schedule msg (64 * i)) := by
  have hrun : ∀ n, Holds (blockAt msg i) (16 + n) ((List.range' 16 n).foldl extend
      ((List.range 16).map fun t => wordAt msg (64 * i + 4 * t))) := by
    intro n
    induction n with
    | zero => exact holds_wordAt hi
    | succ n ih =>
        rw [List.range'_concat, List.foldl_append, List.foldl_cons, List.foldl_nil, Nat.one_mul]
        exact ih.extend (by omega)
  exact hrun 64

def State.toBuffer (s : State) : Rfc3174.Buffer :=
  ⟨s.a.toBitVec, s.b.toBitVec, s.c.toBitVec, s.d.toBitVec, s.e.toBitVec⟩

theorem toBuffer_round {block : List Bool} {w : List UInt32} (h : Holds block 80 w) (s : State)
    {t : Nat} (ht : t < 80) : (round w s t).toBuffer = Rfc3174.step block s.toBuffer t := by
  have hword := h.2 t ht
  have hfive : (rol s.a 5).toBitVec = Rfc3174.rotate 5 s.a.toBitVec :=
    toBitVec_rol s.a (by decide) (by decide)
  have hthirty : (rol s.b 30).toBitVec = Rfc3174.rotate 30 s.b.toBitVec :=
    toBitVec_rol s.b (by decide) (by decide)
  have htmp : ∀ f k : UInt32, (rol s.a 5 + f + s.e + k + w.getD t 0).toBitVec =
      Rfc3174.rotate 5 s.a.toBitVec + f.toBitVec + s.e.toBitVec + Rfc3174.W block t +
        k.toBitVec := by
    intro f k
    rw [UInt32.toBitVec_add, UInt32.toBitVec_add, UInt32.toBitVec_add, UInt32.toBitVec_add, hfive,
      hword, BitVec.add_assoc _ k.toBitVec, BitVec.add_comm k.toBitVec, ← BitVec.add_assoc]
  unfold round Rfc3174.step State.toBuffer Rfc3174.f Rfc3174.K
  split_ifs
  all_goals
    rw [Rfc3174.Buffer.mk.injEq]
    exact ⟨htmp _ _, rfl, hthirty, rfl, rfl⟩

/-- A loop whose body agrees with another through `view` at every index it runs over. -/
theorem view_foldl {σ τ ι : Type} (view : σ → τ) {f : σ → ι → σ} (g : τ → ι → τ) {l : List ι}
    (h : ∀ s, ∀ i ∈ l, view (f s i) = g (view s) i) (s : σ) :
    view (l.foldl f s) = l.foldl g (view s) := by
  induction l generalizing s with
  | nil => rfl
  | cons i l ih =>
      rw [List.foldl_cons, List.foldl_cons, ih (fun s j hj => h s j (List.mem_cons_of_mem _ hj)),
        h s i List.mem_cons_self]

theorem toBuffer_processChunk {msg : List UInt8} {i : Nat} (hi : 64 * i + 64 ≤ msg.length)
    (h : State) :
    (processChunk msg h (64 * i)).toBuffer = Rfc3174.process h.toBuffer (blockAt msg i) := by
  have hrounds := view_foldl State.toBuffer (Rfc3174.step (blockAt msg i))
    (fun s t ht => toBuffer_round (holds_schedule hi) s (List.mem_range.mp ht)) h
  rw [Rfc3174.process, ← hrounds]
  rfl

/-! ### The digest -/

theorem bits_bytesOf (x : UInt32) : bits (bytesOf x) = bitsOf 32 x.toBitVec.toNat := by
  have hbytes : bytesOf x =
      (List.range 4).reverse.map fun i => ((x >>> UInt32.ofNat (8 * i)) &&& 0xFF).toUInt8 := by
    have hlast : x >>> UInt32.ofNat (8 * 0) = x := UInt32.shiftRight_zero
    change _ = [_, _, _, ((x >>> UInt32.ofNat (8 * 0)) &&& 0xFF).toUInt8]
    rw [hlast]
    rfl
  rw [hbytes]
  refine bits_digits fun i hi => ?_
  have hshift : (UInt32.ofNat (8 * i)).toNat = 8 * i :=
    UInt32.toNat_ofNat_of_lt' (by change 8 * i < 2 ^ 32; omega)
  rw [UInt32.toNat_toUInt8, UInt32.toNat_and, UInt32.toNat_shiftRight, hshift,
    Nat.mod_eq_of_lt (by omega : 8 * i < 32), Nat.shiftRight_eq_div_pow]
  change (x.toNat / 2 ^ (8 * i) &&& 2 ^ 8 - 1) % 2 ^ 8 = x.toNat / 2 ^ (8 * i) % 2 ^ 8
  rw [Nat.and_two_pow_sub_one_eq_mod, Nat.mod_mod]

theorem bits_digest (h : State) : bits h.digest = h.toBuffer.digest := by
  simp only [State.digest, Rfc3174.Buffer.digest, State.toBuffer, List.flatMap_cons,
    List.flatMap_nil, bits_append, bits_bytesOf]
  rfl

end Sha1

open Sha1 in
theorem bits_sha1 (data : List UInt8) : bits (sha1 data) = Rfc3174.sha1 (bits data) := by
  have hlength := length_message data
  have hmod := totalOf_mod data.length
  have hcount : (bits (message data)).length / 512 = (totalOf data.length + 63) / 64 := by
    rw [length_bits, hlength]
    omega
  have hchunk : ∀ h, ∀ i ∈ List.range ((totalOf data.length + 63) / 64),
      (processChunk (message data) h (64 * i)).toBuffer =
        Rfc3174.process h.toBuffer (blockAt (message data) i) := by
    intro h i hi
    have hlt := List.mem_range.mp hi
    exact toBuffer_processChunk (by omega) h
  have hchunks := view_foldl State.toBuffer
    (fun h i => Rfc3174.process h (blockAt (message data) i)) hchunk initial
  rw [sha1, bits_digest, hchunks, Rfc3174.sha1, ← bits_message, groups, hcount, List.foldl_map]
  rfl

example : sha1 (ByteText.ascii "abc") =
    [0xA9, 0x99, 0x3E, 0x36, 0x47, 0x06, 0x81, 0x6A, 0xBA, 0x3E, 0x25, 0x71, 0x78, 0x50, 0xC2, 0x6C,
      0x9C, 0xD0, 0xD8, 0x9D] := by
  decide +kernel

end HftOrderbook
