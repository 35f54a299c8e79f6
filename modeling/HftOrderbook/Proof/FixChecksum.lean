import HftOrderbook.Fix.Message

/-!
# What the checksum accepts

`valid_checksum` looks for the last place where a field with tag 10 starts, and reads a number from
the three bytes behind it. In an encoded message that place is the trailer, whatever the fields
hold and whichever byte before it was changed. In any other text the bytes behind it may be fewer
than three digits, or something else, and more may follow.
-/

namespace HftOrderbook.Fix

open ByteText Decimal

/-- Where the trailer starts. -/
def mark : List UInt8 := SOH :: ascii "10="

def byteSum (s : List UInt8) : Nat := (s.map UInt8.toNat).sum % 256

/-! ### The place that is looked at -/

theorem mark_infix_iff (tail : List UInt8) : mark <:+: (mark ++ tail).tail ↔ mark <:+: tail := by
  have hstep : ∀ {b : UInt8} {s : List UInt8}, b ≠ SOH → (mark <:+: b :: s ↔ mark <:+: s) := by
    intro b s hb
    rw [List.infix_cons_iff]
    refine or_iff_right fun hpre => hb ?_
    exact ((List.cons_prefix_cons.mp hpre).1).symm
  change mark <:+: 0x31 :: 0x30 :: 0x3D :: tail ↔ _
  rw [hstep (by decide), hstep (by decide), hstep (by decide)]

theorem toInt_checksum (s : List UInt8) : (checksum s).toInt32.toInt = byteSum s := by
  have hsum := toNat_checksum s
  have hlt : (checksum s).toNat < 256 := by omega
  have hsmall : 2 * (checksum s).toBitVec.toNat < 2 ^ 32 := by
    change 2 * (checksum s).toNat < 2 ^ 32
    omega
  refine (BitVec.toInt_eq_toNat_of_lt hsmall).trans ?_
  exact congrArg Int.ofNat hsum

theorem validChecksum_of_rfind {s : List UInt8} {p : Nat} (h : rfind mark s = some p) :
    validChecksum s = true ↔
      (atoi (substr s (p + 1 + 3) 3)).toInt = byteSum (substr s 0 (p + 1)) := by
  have hvalid : validChecksum s =
      (atoi (substr s (p + 1 + 3) 3) == (checksum (substr s 0 (p + 1))).toInt32) := by
    unfold validChecksum
    simp only [show rfind (SOH :: ascii "10=") s = some p from h]
  rw [hvalid, beq_iff_eq, ← Int32.toInt_inj, toInt_checksum]

theorem rfind_mark {tail : List UInt8} (hlast : ¬ mark <:+: tail) (front : List UInt8) :
    rfind mark (front ++ (mark ++ tail)) = some front.length :=
  rfind_eq_some (List.cons_ne_nil _ _) fun h => hlast ((mark_infix_iff tail).mp h)

theorem validChecksum_of_mark {front tail : List UInt8} (hlast : ¬ mark <:+: tail) :
    validChecksum (front ++ (mark ++ tail)) = true ↔
      (atoi (tail.take 3)).toInt = byteSum (front ++ [SOH]) := by
  have hcovered : substr (front ++ (mark ++ tail)) 0 (front.length + 1) = front ++ [SOH] := by
    have htake : substr ([] ++ ((front ++ [SOH]) ++ (ascii "10=" ++ tail))) 0
        (front ++ [SOH]).length = front ++ [SOH] := substr_append _
    rwa [List.length_append, List.append_assoc, List.nil_append] at htake
  have hdigits : substr (front ++ (mark ++ tail)) (front.length + 1 + 3) 3 = tail.take 3 := by
    have hlength : (front ++ mark).length = front.length + 1 + 3 := List.length_append
    rw [substr, ← List.append_assoc, List.drop_left' hlength]
  rw [validChecksum_of_rfind (rfind_mark hlast front), hcovered, hdigits]

theorem exists_mark_of_validChecksum {s : List UInt8} (h : validChecksum s = true) :
    ∃ front tail, s = front ++ (mark ++ tail) ∧ ¬ mark <:+: tail := by
  have hinfix : mark <:+: s := by
    by_contra hnone
    have hfind : rfind (SOH :: ascii "10=") s = none :=
      (rfind_eq_none (List.cons_ne_nil _ _) s).mpr hnone
    rw [validChecksum] at h
    simp [hfind] at h
  obtain ⟨front, tail, hs, hlast⟩ := exists_of_infix (List.cons_ne_nil _ _) hinfix
  exact ⟨front, tail, hs, fun h => hlast ((mark_infix_iff tail).mpr h)⟩

/-! ### Trailers -/

/-- Three digits and the byte that ends the field. -/
def IsCheck (tail : List UInt8) : Prop :=
  ∃ check, tail = check ++ [SOH] ∧ check.length = 3 ∧ ∀ b ∈ check, isDigit b = true

theorem mark_not_within {check : List UInt8} (hcheck : ∀ b ∈ check, isDigit b = true) :
    ¬ mark <:+: check ++ [SOH] := by
  induction check with
  | nil =>
      intro h
      exact absurd h.length_le (by decide)
  | cons b check ih =>
      intro h
      rcases List.infix_cons_iff.mp h with hpre | hlater
      · have hb : SOH = b := (List.cons_prefix_cons.mp hpre).1
        exact absurd (hcheck b List.mem_cons_self) (by rw [← hb]; decide)
      · exact ih (fun c hc => hcheck c (List.mem_cons_of_mem _ hc)) hlater

theorem validChecksum_check {front check : List UInt8} (hlength : check.length = 3)
    (hcheck : ∀ b ∈ check, isDigit b = true) :
    validChecksum (front ++ (mark ++ (check ++ [SOH]))) = true ↔
      value check = byteSum (front ++ [SOH]) := by
  have hne : check ≠ [] := List.ne_nil_of_length_pos (by omega)
  rw [validChecksum_of_mark (mark_not_within hcheck), List.take_left' hlength,
    atoi_digits hne hcheck (by omega), Int.natCast_inj]

/-! ### Encoded messages -/

theorem encode_eq_mark (beginString msgType : List UInt8) (body : Message) :
    ∃ front check, encode beginString msgType body = front ++ (mark ++ (check ++ [SOH])) ∧
      check.length = 3 ∧ (∀ b ∈ check, isDigit b = true) ∧
      value check = byteSum (front ++ [SOH]) := by
  obtain ⟨middle, hlast, front, hfront, hencode, -⟩ := encode_eq_fields beginString msgType body
  obtain ⟨front', rfl⟩ : ∃ front', front = front' ++ [SOH] := by
    obtain ⟨middle', rfl⟩ := List.getLast?_eq_some_iff.mp hlast
    exact ⟨_, hfront.trans (List.append_assoc ..).symm⟩
  have hsum := toNat_checksum (front' ++ [SOH])
  refine ⟨front', padded 3 (checksum (front' ++ [SOH])).toNat, ?_,
    length_padded (by omega) (by omega), fun _ => isDigit_of_mem_padded, ?_⟩
  · rw [hencode, mark]
    simp only [List.append_assoc, List.cons_append, List.nil_append]
  · rw [value_padded, hsum, byteSum]

theorem byteSum_set_ne {front rest : List UInt8} {i : Nat} {b : UInt8} (hi : i < front.length)
    (hb : front[i]? ≠ some b) : byteSum (front.set i b ++ rest) ≠ byteSum (front ++ rest) := by
  have hsplit : front.take i ++ front[i] :: front.drop (i + 1) = front := by
    rw [List.getElem_cons_drop, List.take_append_drop]
  have hset : front.set i b = front.take i ++ b :: front.drop (i + 1) :=
    List.set_eq_take_append_cons_drop.trans (if_pos hi)
  have hne : front[i].toNat ≠ b.toNat := by
    intro heq
    exact hb (by rw [List.getElem?_eq_getElem hi, UInt8.toNat_inj.mp heq])
  have hold := front[i].toNat_lt
  have hnew := b.toNat_lt
  intro hsum
  have hsame : byteSum (front.take i ++ b :: front.drop (i + 1) ++ rest) =
      byteSum (front.take i ++ front[i] :: front.drop (i + 1) ++ rest) := by
    rw [← hset, hsplit, hsum]
  simp only [byteSum, List.map_append, List.map_cons, List.sum_append, List.sum_cons] at hsame
  omega

/-- An encoded message is accepted, and not with any one byte before the trailer changed. -/
theorem encode_checksum (beginString msgType : List UInt8) (body : Message) :
    validChecksum (encode beginString msgType body) = true ∧
    ∃ front check, encode beginString msgType body =
        front ++ (SOH :: ascii "10=" ++ (check ++ [SOH])) ∧ check.length = 3 ∧
      ∀ (i : Nat) (b : UInt8), i < front.length → front[i]? ≠ some b →
        validChecksum ((encode beginString msgType body).set i b) = false := by
  obtain ⟨front, check, hencode, hlength, hcheck, hvalue⟩ := encode_eq_mark beginString msgType body
  refine ⟨?_, front, check, hencode, hlength, fun i b hi hb => ?_⟩
  · rw [hencode, validChecksum_check hlength hcheck]
    exact hvalue
  · rw [hencode, List.set_append_left _ _ hi, Bool.eq_false_iff, Ne,
      validChecksum_check hlength hcheck, hvalue]
    exact fun hsame => byteSum_set_ne hi hb hsame.symm

/-! ### Other texts -/

/-- The text ends with a trailer whose digits are the sum of the bytes before it. -/
def EndsWithChecksum (s : List UInt8) : Prop :=
  ∃ front check, s = front ++ (mark ++ (check ++ [SOH])) ∧ check.length = 3 ∧
    (∀ b ∈ check, isDigit b = true) ∧ value check = byteSum (front ++ [SOH])

/-- What stands behind the last mark is no trailer, and its first three bytes are read as the
sum. -/
def Misread (s : List UInt8) : Prop :=
  ∃ front tail, s = front ++ (mark ++ tail) ∧ ¬ mark <:+: tail ∧ ¬ IsCheck tail ∧
    (atoi (tail.take 3)).toInt = byteSum (front ++ [SOH])

theorem mark_unique {front front' tail tail' : List UInt8} (hlast : ¬ mark <:+: tail)
    (hlast' : ¬ mark <:+: tail') (h : front ++ (mark ++ tail) = front' ++ (mark ++ tail')) :
    tail = tail' := by
  have hfind := rfind_mark hlast front
  rw [h, rfind_mark hlast' front'] at hfind
  obtain ⟨-, hrest⟩ := List.append_inj h (Option.some.inj hfind).symm
  exact List.append_cancel_left hrest

theorem EndsWithChecksum.valid {s : List UInt8} (h : EndsWithChecksum s) :
    validChecksum s = true := by
  obtain ⟨front, check, rfl, hlength, hcheck, hvalue⟩ := h
  exact (validChecksum_check hlength hcheck).mpr hvalue

/-- The trailer and nothing else is accepted, unless something else is read as the sum. -/
theorem accepts_trailer_iff (s : List UInt8) :
    (validChecksum s = true ↔ EndsWithChecksum s) ↔ ¬ Misread s := by
  constructor
  · rintro hiff ⟨front, tail, rfl, hlast, hnot, hsum⟩
    obtain ⟨front', check, hs, hlength, hcheck, -⟩ :=
      hiff.mp ((validChecksum_of_mark hlast).mpr hsum)
    exact hnot ⟨check, mark_unique hlast (mark_not_within hcheck) hs, hlength, hcheck⟩
  · intro hread
    refine ⟨fun hvalid => ?_, EndsWithChecksum.valid⟩
    obtain ⟨front, tail, rfl, hlast⟩ := exists_mark_of_validChecksum hvalid
    have hsum := (validChecksum_of_mark hlast).mp hvalid
    by_cases hcheck : IsCheck tail
    · obtain ⟨check, rfl, hlength, hdigits⟩ := hcheck
      exact ⟨front, check, rfl, hlength, hdigits, (validChecksum_check hlength hdigits).mp hvalid⟩
    · exact absurd ⟨front, tail, rfl, hlast, hcheck, hsum⟩ hread

/-- One digit and no byte behind it. -/
theorem shortTrailer_accepted :
    validChecksum (mark ++ ascii "1") = true ∧ ¬ EndsWithChecksum (mark ++ ascii "1") := by
  refine ⟨by decide, ?_⟩
  rintro ⟨front, check, hs, hlength, -⟩
  have hlengths := congrArg List.length hs
  simp only [List.length_append, hlength, List.length_singleton] at hlengths
  change 5 = front.length + (4 + 4) at hlengths
  omega

end HftOrderbook.Fix
