import Mathlib.Tactic

/-!
# Decimal numerals

Numbers as decimal text, and the C library's way to read them back: white space, a sign, then digits
up to the first byte that is none. What is written is read back, whatever follows it, as long as
that does not start with a digit.
-/

namespace Decimal

def isDigit (b : UInt8) : Bool := 0x30 ≤ b && b ≤ 0x39

def isSpace (b : UInt8) : Bool := b == 0x20 || (0x09 ≤ b && b ≤ 0x0D)

def value (digits : List UInt8) : Nat :=
  digits.foldl (fun total b => 10 * total + (b.toNat - 0x30)) 0

def numeral (n : Nat) : List UInt8 := (Nat.toDigits 10 n).map fun c => UInt8.ofNat c.toNat

def signedNumeral (z : Int) : List UInt8 :=
  if z < 0 then 0x2D :: numeral z.natAbs else numeral z.natAbs

/-- A numeral with zeros in front, as `%0wu` writes it. -/
def padded (width n : Nat) : List UInt8 :=
  List.replicate (width - (numeral n).length) 0x30 ++ numeral n

def splitSign : List UInt8 → Bool × List UInt8
  | [] => (false, [])
  | b :: rest =>
      if b = 0x2D then (true, rest) else if b = 0x2B then (false, rest) else (false, b :: rest)

/-- The number at the start of a text and how many bytes it takes, `none` where there is none. -/
def readInt (text : List UInt8) : Option (Int × Nat) :=
  let (negative, unsigned) := splitSign (text.dropWhile isSpace)
  let digits := unsigned.takeWhile isDigit
  if digits = [] then none
  else some (if negative then -(value digits : Int) else value digits,
    text.length - unsigned.length + digits.length)

/-- `strtoll` in base ten: a number out of range becomes the nearest bound. -/
def strtoll (text : List UInt8) : Option (Int × Nat) :=
  (readInt text).map fun r => (max (-2 ^ 63) (min (2 ^ 63 - 1) r.1), r.2)

/-- `atoi`, as `strtol` cut to an `int`. -/
def atoi (text : List UInt8) : Int32 := Int32.ofInt (((strtoll text).map Prod.fst).getD 0)

/-! ### Numerals -/

theorem toNat_of_mem_toDigits {n : Nat} {c : Char} (hc : c ∈ Nat.toDigits 10 n) :
    (UInt8.ofNat c.toNat).toNat = c.toNat ∧ 0x30 ≤ c.toNat ∧ c.toNat ≤ 0x39 := by
  have hdigit := Nat.isDigit_of_mem_toDigits (by decide) (by decide) hc
  rw [Char.isDigit, Bool.and_eq_true, decide_eq_true_eq, decide_eq_true_eq] at hdigit
  have hlow : 0x30 ≤ c.toNat := hdigit.1
  have hhigh : c.toNat ≤ 0x39 := hdigit.2
  exact ⟨UInt8.toNat_ofNat_of_lt' (by change _ < 2 ^ 8; omega), hlow, hhigh⟩

theorem isDigit_iff {b : UInt8} : isDigit b = true ↔ 0x30 ≤ b.toNat ∧ b.toNat ≤ 0x39 := by
  rw [isDigit, Bool.and_eq_true, decide_eq_true_eq, decide_eq_true_eq]
  exact Iff.rfl

theorem isDigit_of_mem_numeral {n : Nat} {b : UInt8} (hb : b ∈ numeral n) : isDigit b = true := by
  obtain ⟨c, hc, rfl⟩ := List.mem_map.mp hb
  obtain ⟨htoNat, hbounds⟩ := toNat_of_mem_toDigits hc
  rwa [isDigit_iff, htoNat]

theorem numeral_ne_nil (n : Nat) : numeral n ≠ [] := fun hnil =>
  Nat.toDigits_ne_nil (List.map_eq_nil_iff.mp hnil)

theorem value_numeral (n : Nat) : value (numeral n) = n := by
  have hfold : ∀ (cs : List Char), (∀ c ∈ cs, c ∈ Nat.toDigits 10 n) → ∀ total,
      (cs.map fun c => UInt8.ofNat c.toNat).foldl (fun total b => 10 * total + (b.toNat - 0x30))
        total = Nat.ofDigitChars 10 cs total := by
    intro cs hcs
    induction cs with
    | nil => exact fun _ => rfl
    | cons c cs ih =>
        intro total
        rw [List.map_cons, List.foldl_cons, Nat.ofDigitChars_cons,
          (toNat_of_mem_toDigits (hcs c List.mem_cons_self)).1]
        exact ih (fun d hd => hcs d (List.mem_cons_of_mem _ hd)) _
  rw [value, numeral, hfold _ (fun _ h => h), Nat.ofDigitChars_ten_toDigits]

theorem signedNumeral_ne_nil (z : Int) : signedNumeral z ≠ [] := by
  unfold signedNumeral
  split_ifs
  · exact List.cons_ne_nil _ _
  · exact numeral_ne_nil _

theorem signedNumeral_natCast (n : Nat) : signedNumeral n = numeral n := by
  rw [signedNumeral, if_neg (by omega), Int.natAbs_natCast]

/-- No byte other than a digit or a minus sign is in a numeral. -/
theorem of_mem_signedNumeral {z : Int} {b : UInt8} (hb : b ∈ signedNumeral z) :
    b = 0x2D ∨ isDigit b = true := by
  unfold signedNumeral at hb
  split_ifs at hb
  · rcases List.mem_cons.mp hb with hminus | hdigit
    · exact Or.inl hminus
    · exact Or.inr (isDigit_of_mem_numeral hdigit)
  · exact Or.inr (isDigit_of_mem_numeral hb)

theorem not_mem_signedNumeral {b : UInt8} (hminus : b ≠ 0x2D) (hdigit : isDigit b = false)
    (z : Int) : b ∉ signedNumeral z := by
  intro hmem
  rcases of_mem_signedNumeral hmem with heq | htrue
  · exact hminus heq
  · exact Bool.false_ne_true (hdigit.symm.trans htrue)

theorem isDigit_of_mem_padded {width n : Nat} {b : UInt8} (hb : b ∈ padded width n) :
    isDigit b = true := by
  rcases List.mem_append.mp hb with hzero | hdigit
  · rw [List.eq_of_mem_replicate hzero]
    rfl
  · exact isDigit_of_mem_numeral hdigit

theorem length_padded {width n : Nat} (hwidth : 0 < width) (hn : n < 10 ^ width) :
    (padded width n).length = width := by
  have hle : (numeral n).length ≤ width := by
    rw [numeral, List.length_map]
    exact (Nat.length_toDigits_le_iff (by decide) hwidth).mpr hn
  rw [padded, List.length_append, List.length_replicate]
  omega

theorem value_padded (width n : Nat) : value (padded width n) = n := by
  have hzeros : ∀ k, value (List.replicate k 0x30 ++ numeral n) = n := by
    intro k
    induction k with
    | zero => exact value_numeral n
    | succ k ih => exact ih
  exact hzeros _

/-! ### Reading them back -/

theorem takeWhile_isDigit_append {digits rest : List UInt8}
    (hdigits : ∀ b ∈ digits, isDigit b = true) (hrest : ∀ b ∈ rest.head?, isDigit b = false) :
    (digits ++ rest).takeWhile isDigit = digits := by
  rw [List.takeWhile_append_of_pos hdigits]
  cases rest with
  | nil => simp
  | cons b rest => simp [hrest b rfl]

theorem not_special_of_isDigit {b : UInt8} (hb : isDigit b = true) :
    isSpace b = false ∧ b ≠ 0x2D ∧ b ≠ 0x2B := by
  obtain ⟨hlow, hhigh⟩ := isDigit_iff.mp hb
  refine ⟨?_, ?_, ?_⟩
  · simp only [isSpace, Bool.or_eq_false_iff, beq_eq_false_iff_ne, Bool.and_eq_false_iff, ne_eq,
      decide_eq_false_iff_not, UInt8.le_iff_toNat_le, ← UInt8.toNat_inj]
    change ¬ _ = 0x20 ∧ (¬ 0x09 ≤ _ ∨ ¬ _ ≤ 0x0D)
    omega
  · rintro rfl
    exact absurd hlow (by decide)
  · rintro rfl
    exact absurd hlow (by decide)

theorem readInt_of_splitSign {text digits rest : List UInt8} {negative : Bool}
    (hne : digits ≠ []) (hdigits : ∀ b ∈ digits, isDigit b = true)
    (hsign : splitSign (text.dropWhile isSpace) = (negative, digits ++ rest))
    (hrest : ∀ b ∈ rest.head?, isDigit b = false) :
    readInt text = some (if negative then -(value digits : Int) else value digits,
      text.length - (digits ++ rest).length + digits.length) := by
  have htake := takeWhile_isDigit_append hdigits hrest
  unfold readInt
  rw [hsign]
  simp only [htake, if_neg hne]

theorem readInt_digits {digits rest : List UInt8} (hne : digits ≠ [])
    (hdigits : ∀ b ∈ digits, isDigit b = true) (hrest : ∀ b ∈ rest.head?, isDigit b = false) :
    readInt (digits ++ rest) = some ((value digits : Int), digits.length) := by
  have hsign : splitSign ((digits ++ rest).dropWhile isSpace) = (false, digits ++ rest) := by
    cases digits with
    | nil => exact absurd rfl hne
    | cons b digits =>
        obtain ⟨hspace, hminus, hplus⟩ := not_special_of_isDigit (hdigits b List.mem_cons_self)
        rw [List.cons_append, List.dropWhile_cons_of_neg (by rw [hspace]; decide), splitSign,
          if_neg hminus, if_neg hplus]
  rw [readInt_of_splitSign hne hdigits hsign hrest, Nat.sub_self, Nat.zero_add]
  rfl

theorem readInt_numeral (n : Nat) {rest : List UInt8}
    (hrest : ∀ b ∈ rest.head?, isDigit b = false) :
    readInt (numeral n ++ rest) = some ((n : Int), (numeral n).length) := by
  rw [readInt_digits (numeral_ne_nil n) (fun _ => isDigit_of_mem_numeral) hrest, value_numeral]

theorem readInt_signedNumeral (z : Int) {rest : List UInt8}
    (hrest : ∀ b ∈ rest.head?, isDigit b = false) :
    readInt (signedNumeral z ++ rest) = some (z, (signedNumeral z).length) := by
  unfold signedNumeral
  split_ifs with hneg
  · have hsign : splitSign ((0x2D :: numeral z.natAbs ++ rest).dropWhile isSpace) =
        (true, numeral z.natAbs ++ rest) := rfl
    rw [readInt_of_splitSign (numeral_ne_nil _) (fun _ => isDigit_of_mem_numeral) hsign hrest,
      value_numeral, List.cons_append, List.length_cons, List.length_cons, Nat.add_sub_cancel_left,
      Nat.add_comm 1]
    exact congrArg (fun y : Int => some (y, (numeral z.natAbs).length + 1)) (by
      rw [if_pos rfl]
      omega)
  · rw [readInt_numeral _ hrest]
    exact congrArg (fun y : Int => some (y, (numeral z.natAbs).length)) (by omega)

theorem strtoll_signedNumeral (z : Int) {rest : List UInt8}
    (hrest : ∀ b ∈ rest.head?, isDigit b = false) :
    strtoll (signedNumeral z ++ rest) =
      some (max (-2 ^ 63) (min (2 ^ 63 - 1) z), (signedNumeral z).length) := by
  rw [strtoll, readInt_signedNumeral z hrest, Option.map_some]

theorem value_lt {digits : List UInt8} (hdigits : ∀ b ∈ digits, isDigit b = true) :
    value digits < 10 ^ digits.length := by
  have hfold : ∀ total, digits.foldl (fun total b => 10 * total + (b.toNat - 0x30)) total <
      (total + 1) * 10 ^ digits.length := by
    induction digits with
    | nil => simp
    | cons b digits ih =>
        intro total
        obtain ⟨-, hhigh⟩ := isDigit_iff.mp (hdigits b List.mem_cons_self)
        have hrest := ih (fun c hc => hdigits c (List.mem_cons_of_mem _ hc))
          (10 * total + (b.toNat - 0x30))
        refine hrest.trans_le ?_
        rw [List.length_cons, Nat.pow_succ, Nat.mul_comm _ 10, ← Nat.mul_assoc]
        exact Nat.mul_le_mul_right _ (by omega)
  have hvalue := hfold 0
  rwa [Nat.zero_add, Nat.one_mul] at hvalue

/-- A few digits are read as the number they spell. -/
theorem atoi_digits {digits : List UInt8} (hne : digits ≠ [])
    (hdigits : ∀ b ∈ digits, isDigit b = true) (hlength : digits.length ≤ 9) :
    (atoi digits).toInt = value digits := by
  have hlt := (value_lt hdigits).trans_le (Nat.pow_le_pow_right (by decide : 0 < 10) hlength)
  have hend : ∀ b ∈ ([] : List UInt8).head?, isDigit b = false := by simp
  have hread := readInt_digits hne hdigits hend
  rw [List.append_nil] at hread
  rw [atoi, strtoll, hread, Option.map_some, Option.map_some, Option.getD_some,
    min_eq_right (by omega), max_eq_right (by omega)]
  exact Int32.toInt_ofInt_of_le (by omega) (by omega)

/-- What stands behind a byte that belongs to no number is not read. -/
theorem atoi_append {b : UInt8} (hspace : isSpace b = false) (hsign : b ≠ 0x2D ∧ b ≠ 0x2B)
    (hdigit : isDigit b = false) (text rest : List UInt8) :
    atoi (text ++ b :: rest) = atoi text := by
  have hdrop : (text ++ b :: rest).dropWhile isSpace = text.dropWhile isSpace ++ b :: rest := by
    rw [List.dropWhile_append]
    split_ifs with hnone
    · rw [List.dropWhile_cons_of_neg (by rw [hspace]; decide), List.isEmpty_iff.mp hnone]
      rfl
    · rfl
  have hsplit : ∀ w : List UInt8,
      splitSign (w ++ b :: rest) = ((splitSign w).1, (splitSign w).2 ++ b :: rest) := by
    intro w
    cases w with
    | nil =>
        have hplain : splitSign (b :: rest) = (false, b :: rest) := by
          rw [splitSign, if_neg hsign.1, if_neg hsign.2]
        exact hplain
    | cons c w =>
        rw [List.cons_append, splitSign, splitSign]
        split_ifs
        · rfl
        · rfl
        · rfl
  have htake : ∀ unsigned : List UInt8,
      (unsigned ++ b :: rest).takeWhile isDigit = unsigned.takeWhile isDigit := by
    intro unsigned
    induction unsigned with
    | nil => exact List.takeWhile_cons_of_neg (by rw [hdigit]; decide)
    | cons c unsigned ih => rw [List.cons_append, List.takeWhile_cons, List.takeWhile_cons, ih]
  have hread : (readInt (text ++ b :: rest)).map Prod.fst = (readInt text).map Prod.fst := by
    unfold readInt
    rw [hdrop, hsplit]
    obtain ⟨negative, unsigned⟩ := splitSign (text.dropWhile isSpace)
    simp only [htake]
    split_ifs
    · rfl
    · rfl
    · rfl
  have hnumber : ∀ s, ((strtoll s).map Prod.fst) =
      ((readInt s).map Prod.fst).map fun z => max (-2 ^ 63) (min (2 ^ 63 - 1) z) := by
    intro s
    rw [strtoll, Option.map_map, Option.map_map]
    rfl
  rw [atoi, atoi, hnumber, hnumber, hread]

theorem atoi_signedNumeral (t : Int32) : atoi (signedNumeral t.toInt) = t := by
  have hlow := t.le_toInt
  have hhigh := t.toInt_lt
  have hnothing : ∀ b ∈ ([] : List UInt8).head?, isDigit b = false := by simp
  have hread := strtoll_signedNumeral t.toInt hnothing
  rw [List.append_nil] at hread
  rw [atoi, hread, Option.map_some, Option.getD_some, min_eq_right (by omega),
    max_eq_right (by omega)]
  exact Int32.ofInt_toInt t

end Decimal
