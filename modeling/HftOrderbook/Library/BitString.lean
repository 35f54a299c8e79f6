import Mathlib.Tactic

/-!
# Bit strings

Numbers and bytes written as bits, the most significant first, and bit strings cut into groups of a
fixed width.
-/

namespace BitString

/-- The `w` lowest bits of `n`. -/
def bitsOf : Nat → Nat → List Bool
  | 0, _ => []
  | w + 1, n => n.testBit w :: bitsOf w n

def valueOf (s : List Bool) : Nat := s.foldl (fun n b => 2 * n + b.toNat) 0

/-- The whole groups of `k` bits, from the left. -/
def groups (k : Nat) (s : List Bool) : List (List Bool) :=
  (List.range (s.length / k)).map fun i => (s.drop (k * i)).take k

def octetBits (b : UInt8) : List Bool := bitsOf 8 b.toNat

def bits (data : List UInt8) : List Bool := data.flatMap octetBits

def octets (s : List Bool) : List UInt8 := (groups 8 s).map fun g => UInt8.ofNat (valueOf g)

/-! ### Numbers -/

@[simp] theorem length_bitsOf (w n : Nat) : (bitsOf w n).length = w := by
  induction w with
  | zero => rfl
  | succ w ih => rw [bitsOf, List.length_cons, ih]

theorem foldl_eq_add (s : List Bool) (n : Nat) :
    s.foldl (fun n b => 2 * n + b.toNat) n = n * 2 ^ s.length + valueOf s := by
  unfold valueOf
  induction s generalizing n with
  | nil => simp
  | cons b s ih =>
      rw [List.foldl_cons, List.foldl_cons, ih, ih (2 * 0 + b.toNat), List.length_cons,
        Nat.pow_succ]
      ring

theorem valueOf_append (s t : List Bool) :
    valueOf (s ++ t) = valueOf s * 2 ^ t.length + valueOf t := by
  rw [valueOf, List.foldl_append, foldl_eq_add]
  rfl

theorem valueOf_cons (b : Bool) (s : List Bool) :
    valueOf (b :: s) = b.toNat * 2 ^ s.length + valueOf s := by
  rw [valueOf, List.foldl_cons, foldl_eq_add, Nat.mul_zero, Nat.zero_add]

theorem valueOf_lt (s : List Bool) : valueOf s < 2 ^ s.length := by
  induction s with
  | nil => decide
  | cons b s ih =>
      have hmul : b.toNat * 2 ^ s.length ≤ 1 * 2 ^ s.length := Nat.mul_le_mul_right _ b.toNat_le
      rw [valueOf_cons, List.length_cons, Nat.pow_succ]
      omega

theorem valueOf_bitsOf (w n : Nat) : valueOf (bitsOf w n) = n % 2 ^ w := by
  induction w with
  | zero => simp [bitsOf, valueOf, Nat.mod_one]
  | succ w ih =>
      rw [bitsOf, valueOf_cons, ih, length_bitsOf, Nat.mod_pow_succ, Nat.toNat_testBit]
      ring

theorem valueOf_replicate_false (w : Nat) : valueOf (List.replicate w false) = 0 := by
  induction w with
  | zero => rfl
  | succ w ih => rw [List.replicate_succ, valueOf_cons, ih, Bool.toNat_false, Nat.zero_mul]

theorem bitsOf_congr {w m n : Nat} (h : m % 2 ^ w = n % 2 ^ w) : bitsOf w m = bitsOf w n := by
  induction w with
  | zero => rfl
  | succ w ih =>
      have hbit : ∀ k : Nat, (k % 2 ^ (w + 1)).testBit w = k.testBit w := by
        intro k
        rw [Nat.testBit_mod_two_pow, decide_eq_true (Nat.lt_succ_self w), Bool.true_and]
      have hdvd : 2 ^ w ∣ 2 ^ (w + 1) := Nat.pow_dvd_pow 2 (Nat.le_succ w)
      rw [bitsOf, bitsOf, ← hbit m, h, hbit n, ih]
      rw [← Nat.mod_mod_of_dvd m hdvd, h, Nat.mod_mod_of_dvd n hdvd]

/-- A bit string is what its value is written as. -/
theorem bitsOf_valueOf (s : List Bool) : bitsOf s.length (valueOf s) = s := by
  induction s with
  | nil => rfl
  | cons b s ih =>
      have hbit : (valueOf (b :: s)).testBit s.length = b := by
        rw [valueOf_cons, Nat.mul_comm, Nat.testBit_two_pow_mul_add _ (valueOf_lt s),
          if_neg (lt_irrefl _), Nat.sub_self]
        cases b <;> rfl
      have hrest : bitsOf s.length (valueOf (b :: s)) = s := by
        rw [bitsOf_congr (n := valueOf s), ih]
        rw [valueOf_cons, Nat.mul_comm, Nat.mul_add_mod]
      rw [List.length_cons, bitsOf, hbit, hrest]

theorem bitsOf_add (v w n : Nat) : bitsOf (v + w) n = bitsOf v (n / 2 ^ w) ++ bitsOf w n := by
  induction v with
  | zero => rw [Nat.zero_add]; rfl
  | succ v ih =>
      rw [Nat.add_right_comm, bitsOf, ih, bitsOf, Nat.testBit_div_two_pow, List.cons_append]

theorem bitsOf_zero (w : Nat) : bitsOf w 0 = List.replicate w false := by
  induction w with
  | zero => rfl
  | succ w ih => rw [bitsOf, ih, Nat.zero_testBit, List.replicate_succ]

/-! ### Groups -/

section Groups

variable {k : Nat} {s : List Bool}

theorem length_groups (k : Nat) (s : List Bool) : (groups k s).length = s.length / k := by
  rw [groups, List.length_map, List.length_range]

theorem groups_of_lt (h : s.length < k) : groups k s = [] := by
  rw [groups, Nat.div_eq_of_lt h]
  rfl

theorem groups_cons {g : List Bool} (hk : 0 < k) (hg : g.length = k) (s : List Bool) :
    groups k (g ++ s) = g :: groups k s := by
  subst hg
  have hcount : (g ++ s).length / g.length = s.length / g.length + 1 := by
    rw [List.length_append, Nat.add_div_left _ hk]
  rw [groups, hcount, List.range_succ_eq_map, List.map_cons, List.map_map, groups, Nat.mul_zero,
    List.drop_zero, List.take_left]
  refine congrArg (g :: ·) (List.map_congr_left fun i _ => ?_)
  rw [Function.comp_apply, Nat.mul_succ, Nat.add_comm, ← List.drop_drop, List.drop_left]

theorem groups_flatten_append {gs : List (List Bool)} (hk : 0 < k) (hgs : ∀ g ∈ gs, g.length = k)
    (s : List Bool) : groups k (gs.flatten ++ s) = gs ++ groups k s := by
  induction gs with
  | nil => rfl
  | cons g gs ih =>
      rw [List.flatten_cons, List.append_assoc, groups_cons hk (hgs g List.mem_cons_self),
        ih fun g hg => hgs g (List.mem_cons_of_mem _ hg), List.cons_append]

theorem length_of_mem_groups {g : List Bool} (hg : g ∈ groups k s) : g.length = k := by
  obtain ⟨i, hi, rfl⟩ := List.mem_map.mp hg
  have hle : k * (i + 1) ≤ s.length :=
    (Nat.mul_le_mul_left k (List.mem_range.mp hi)).trans (Nat.mul_div_le _ _)
  rw [List.length_take, List.length_drop, Nat.min_eq_left]
  rw [Nat.mul_succ] at hle
  omega

theorem flatten_groups (h : k ∣ s.length) : (groups k s).flatten = s := by
  obtain ⟨n, hn⟩ := h
  induction n generalizing s with
  | zero =>
      obtain rfl := List.eq_nil_of_length_eq_zero hn
      rw [groups, List.length_nil, Nat.zero_div]
      rfl
  | succ n ih =>
      rcases Nat.eq_zero_or_pos k with rfl | hk
      · obtain rfl := List.eq_nil_of_length_eq_zero (hn.trans (Nat.zero_mul _))
        rfl
      · rw [Nat.mul_succ] at hn
        have htake : (s.take k).length = k := List.length_take_of_le (by omega)
        have hdrop : (s.drop k).length = k * n := by
          rw [List.length_drop]
          omega
        rw [← List.take_append_drop k s, groups_cons hk htake, List.flatten_cons, ih hdrop]

/-- A string is its groups, each written from its value. -/
theorem flatMap_values (h : k ∣ s.length) :
    ((groups k s).map valueOf).flatMap (bitsOf k) = s := by
  have hgroups : (groups k s).map (bitsOf k ∘ valueOf) = groups k s := by
    refine (List.map_congr_left fun g hg => ?_).trans (List.map_id _)
    rw [Function.comp_apply, ← length_of_mem_groups hg, bitsOf_valueOf, id]
  rw [List.flatMap_def, List.map_map, hgroups, flatten_groups h]

theorem groups_append (hk : 0 < k) (h : k ∣ s.length) (t : List Bool) :
    groups k (s ++ t) = groups k s ++ groups k t := by
  have hlength : ∀ g ∈ groups k s, g.length = k := fun g hg => length_of_mem_groups hg
  have hsplit := groups_flatten_append hk hlength t
  rwa [flatten_groups h] at hsplit

theorem groups_bitsOf (hk : 0 < k) (m n : Nat) :
    groups k (bitsOf (k * m) n) =
      (List.range m).reverse.map fun i => bitsOf k (n / 2 ^ (k * i)) := by
  induction m with
  | zero => exact groups_of_lt hk
  | succ m ih =>
      rw [Nat.mul_succ, Nat.add_comm, bitsOf_add, groups_cons hk (length_bitsOf _ _), ih,
        List.range_succ, List.reverse_concat, List.map_cons]

end Groups

/-! ### Bytes -/

@[simp] theorem length_octetBits (b : UInt8) : (octetBits b).length = 8 := length_bitsOf _ _

@[simp] theorem valueOf_octetBits (b : UInt8) : valueOf (octetBits b) = b.toNat := by
  rw [octetBits, valueOf_bitsOf, Nat.mod_eq_of_lt b.toNat_lt]

theorem bits_cons (b : UInt8) (data : List UInt8) : bits (b :: data) = octetBits b ++ bits data :=
  List.flatMap_cons

theorem bits_append (data data' : List UInt8) : bits (data ++ data') = bits data ++ bits data' :=
  List.flatMap_append

theorem length_bits (data : List UInt8) : (bits data).length = 8 * data.length := by
  induction data with
  | nil => rfl
  | cons b data ih =>
      rw [bits_cons, List.length_append, ih, length_octetBits, List.length_cons]
      omega

theorem bits_drop (data : List UInt8) (n : Nat) :
    (bits data).drop (8 * n) = bits (data.drop n) := by
  induction n generalizing data with
  | zero => rfl
  | succ n ih =>
      cases data with
      | nil => rw [List.drop_nil]; exact List.drop_nil
      | cons b data =>
          rw [bits_cons, List.drop_succ_cons, ← ih, Nat.mul_succ, Nat.add_comm, ← List.drop_drop,
            ← length_octetBits b, List.drop_left]

theorem bits_take (data : List UInt8) (n : Nat) :
    (bits data).take (8 * n) = bits (data.take n) := by
  rcases Nat.le_total n data.length with hle | hle
  · have hlength : (bits (data.take n)).length = 8 * n := by
      rw [length_bits, List.length_take_of_le hle]
    nth_rewrite 1 [← List.take_append_drop n data]
    rw [bits_append, ← hlength, List.take_left]
  · rw [List.take_of_length_le hle, List.take_of_length_le]
    rw [length_bits]
    omega

theorem bits_replicate_zero (n : Nat) :
    bits (List.replicate n 0) = List.replicate (8 * n) false := by
  induction n with
  | zero => rfl
  | succ n ih =>
      have hzero : octetBits 0 = List.replicate 8 false := bitsOf_zero 8
      rw [List.replicate_succ, bits_cons, ih, hzero, ← List.replicate_add, Nat.mul_succ,
        Nat.add_comm]

/-- The bytes of a number, the lowest last. -/
theorem bits_digits {f : Nat → UInt8} {n v : Nat}
    (h : ∀ i < n, (f i).toNat = v / 2 ^ (8 * i) % 2 ^ 8) :
    bits ((List.range n).reverse.map f) = bitsOf (8 * n) v := by
  induction n with
  | zero => rfl
  | succ n ih =>
      have hbyte : octetBits (f n) = bitsOf 8 (v / 2 ^ (8 * n)) := by
        refine bitsOf_congr ?_
        rw [h n (Nat.lt_succ_self n), Nat.mod_mod]
      rw [List.range_succ, List.reverse_concat, List.map_cons, bits_cons, hbyte,
        ih fun i hi => h i (Nat.lt_succ_of_lt hi), Nat.mul_succ, Nat.add_comm, bitsOf_add]

theorem octets_bits_append (data : List UInt8) {s : List Bool} (hs : s.length < 8) :
    octets (bits data ++ s) = data := by
  have hgroups : groups 8 (bits data ++ s) = data.map octetBits := by
    have hflat : bits data = (data.map octetBits).flatten := rfl
    rw [hflat, groups_flatten_append (by decide), groups_of_lt hs, List.append_nil]
    intro g hg
    obtain ⟨b, -, rfl⟩ := List.mem_map.mp hg
    exact length_octetBits b
  rw [octets, hgroups, List.map_map]
  refine (List.map_congr_left fun b _ => ?_).trans (List.map_id data)
  rw [Function.comp_apply, valueOf_octetBits, UInt8.ofNat_toNat, id]

theorem octets_bits (data : List UInt8) : octets (bits data) = data := by
  have hwhole := octets_bits_append data (s := []) (by decide)
  rwa [List.append_nil] at hwhole

end BitString
