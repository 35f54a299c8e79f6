import Mathlib.Tactic

/-!
# Length-prefixed streams

A record is its length as a big-endian 16-bit word, then its body. Every byte string is a sequence
of complete records followed by a residue at which reading stops: too short for a length word, a
length of zero, or a body that is cut off. Readers that walk a buffer by offsets read the records in
turn and stop where the residue begins.
-/

namespace LengthPrefix

/-- `(hi << 8) | lo`. -/
def lengthWord (hi lo : UInt8) : Nat := (hi.toNat <<< 8) ||| lo.toNat

/-- The length word at an offset, `none` where the read leaves the buffer. -/
def lengthAt (buf : List UInt8) (off : Nat) : Option Nat := do
  let hi ← buf[off]?
  let lo ← buf[off + 1]?
  some (lengthWord hi lo)

/-- The `n` bytes from an offset on, `none` where they leave the buffer. -/
def slice (buf : List UInt8) (off n : Nat) : Option (List UInt8) :=
  if off + n ≤ buf.length then some ((buf.drop off).take n) else none

def Body (body : List UInt8) : Prop := body ≠ [] ∧ body.length < 2 ^ 16

def encode (body : List UInt8) : List UInt8 :=
  UInt8.ofNat (body.length / 2 ^ 8) :: UInt8.ofNat body.length :: body

def encodeAll (bodies : List (List UInt8)) : List UInt8 := bodies.flatMap encode

def next : List UInt8 → Option (List UInt8 × List UInt8)
  | hi :: lo :: rest =>
      if lengthWord hi lo = 0 ∨ rest.length < lengthWord hi lo then none
      else some (rest.take (lengthWord hi lo), rest.drop (lengthWord hi lo))
  | _ => none

theorem next_length_lt {buf body rest : List UInt8} (h : next buf = some (body, rest)) :
    rest.length < buf.length := by
  match buf, h with
  | hi :: lo :: tail, h =>
      simp only [next] at h
      split_ifs at h
      obtain ⟨-, rfl⟩ := Prod.mk.inj (Option.some.inj h)
      simp only [List.length_drop, List.length_cons]
      omega

def frames (buf : List UInt8) : List (List UInt8) :=
  match h : next buf with
  | none => []
  | some (body, rest) =>
      have := next_length_lt h
      body :: frames rest
termination_by buf.length

/-! ### The length word -/

theorem lengthWord_eq (hi lo : UInt8) : lengthWord hi lo = hi.toNat * 2 ^ 8 + lo.toNat := by
  rw [lengthWord, ← Nat.shiftLeft_add_eq_or_of_lt lo.toNat_lt, Nat.shiftLeft_eq]

theorem lengthWord_lt (hi lo : UInt8) : lengthWord hi lo < 2 ^ 16 := by
  have hhi := hi.toNat_lt
  have hlo := lo.toNat_lt
  rw [lengthWord_eq]
  omega

theorem lengthWord_ofNat {n : Nat} (hn : n < 2 ^ 16) :
    lengthWord (UInt8.ofNat (n / 2 ^ 8)) (UInt8.ofNat n) = n := by
  rw [lengthWord_eq, UInt8.toNat_ofNat', UInt8.toNat_ofNat']
  omega

theorem ofNat_lengthWord (hi lo : UInt8) :
    UInt8.ofNat (lengthWord hi lo / 2 ^ 8) = hi ∧ UInt8.ofNat (lengthWord hi lo) = lo := by
  have hhi := hi.toNat_lt
  have hlo := lo.toNat_lt
  constructor
  · rw [← UInt8.toNat_inj, UInt8.toNat_ofNat', lengthWord_eq]
    omega
  · rw [← UInt8.toNat_inj, UInt8.toNat_ofNat', lengthWord_eq]
    omega

/-! ### Records -/

theorem length_encode (body : List UInt8) : (encode body).length = body.length + 2 := rfl

theorem encodeAll_cons (body : List UInt8) (bodies : List (List UInt8)) :
    encodeAll (body :: bodies) = encode body ++ encodeAll bodies := List.flatMap_cons

theorem encodeAll_append (bodies bodies' : List (List UInt8)) :
    encodeAll (bodies ++ bodies') = encodeAll bodies ++ encodeAll bodies' := List.flatMap_append

theorem length_le_encodeAll (bodies : List (List UInt8)) :
    2 * bodies.length ≤ (encodeAll bodies).length := by
  induction bodies with
  | nil => exact le_rfl
  | cons body bodies ih =>
      rw [encodeAll_cons, List.length_append, length_encode, List.length_cons]
      omega

theorem next_encode {body : List UInt8} (hbody : Body body) (rest : List UInt8) :
    next (encode body ++ rest) = some (body, rest) := by
  obtain ⟨hne, hlt⟩ := hbody
  have hpos : body.length ≠ 0 := fun hzero => hne (List.length_eq_zero_iff.mp hzero)
  simp only [encode, List.cons_append, next, lengthWord_ofNat hlt]
  rw [if_neg (by simp only [List.length_append]; omega), List.take_left, List.drop_left]

theorem next_eq_some {buf body rest : List UInt8} (h : next buf = some (body, rest)) :
    Body body ∧ buf = encode body ++ rest := by
  match buf, h with
  | hi :: lo :: tail, h =>
      simp only [next] at h
      split_ifs at h with hbad
      obtain ⟨rfl, rfl⟩ := Prod.mk.inj (Option.some.inj h)
      have hlt := lengthWord_lt hi lo
      have hlength : (tail.take (lengthWord hi lo)).length = lengthWord hi lo := by
        rw [List.length_take]
        omega
      obtain ⟨hhi, hlo⟩ := ofNat_lengthWord hi lo
      refine ⟨⟨fun hnil => ?_, by omega⟩, ?_⟩
      · rw [hnil] at hlength
        simp only [List.length_nil] at hlength
        omega
      · rw [encode, hlength, hhi, hlo, List.cons_append, List.cons_append, List.take_append_drop]

/-- Every byte string is complete records and a residue. -/
theorem exists_records (buf : List UInt8) :
    ∃ bodies rest, (∀ body ∈ bodies, Body body) ∧ next rest = none ∧
      buf = encodeAll bodies ++ rest := by
  induction hn : buf.length using Nat.strong_induction_on generalizing buf with
  | _ n ih =>
      cases hnext : next buf with
      | none => exact ⟨[], buf, by simp, hnext, rfl⟩
      | some record =>
          obtain ⟨body, rest⟩ := record
          obtain ⟨hbody, hbuf⟩ := next_eq_some hnext
          obtain ⟨bodies, residue, hbodies, hresidue, hrest⟩ :=
            ih rest.length (hn ▸ next_length_lt hnext) rest rfl
          refine ⟨body :: bodies, residue, ?_, hresidue, ?_⟩
          · simpa using ⟨hbody, hbodies⟩
          · rw [hbuf, hrest]
            simp [encodeAll]

theorem frames_of_next_eq_none {buf : List UInt8} (h : next buf = none) : frames buf = [] := by
  unfold frames
  split
  · rfl
  · next h' => rw [h] at h'; cases h'

theorem frames_encode_append {body : List UInt8} (hbody : Body body) (rest : List UInt8) :
    frames (encode body ++ rest) = body :: frames rest := by
  have hnext := next_encode hbody rest
  conv_lhs => unfold frames
  split
  · next h => rw [hnext] at h; cases h
  · next h =>
      obtain ⟨rfl, rfl⟩ := Prod.mk.inj (Option.some.inj (hnext.symm.trans h))
      rfl

theorem frames_encodeAll_append {bodies : List (List UInt8)}
    (hbodies : ∀ body ∈ bodies, Body body) (rest : List UInt8) :
    frames (encodeAll bodies ++ rest) = bodies ++ frames rest := by
  induction bodies with
  | nil => rfl
  | cons body bodies ih =>
      rw [encodeAll_cons, List.append_assoc, frames_encode_append (hbodies body List.mem_cons_self),
        ih fun body' hbody' => hbodies body' (List.mem_cons_of_mem _ hbody'), List.cons_append]

theorem frames_encodeAll {bodies : List (List UInt8)} {rest : List UInt8}
    (hbodies : ∀ body ∈ bodies, Body body) (hrest : next rest = none) :
    frames (encodeAll bodies ++ rest) = bodies := by
  rw [frames_encodeAll_append hbodies, frames_of_next_eq_none hrest, List.append_nil]

/-- A record that is cut anywhere is no record. -/
theorem next_take_encode {body : List UInt8} (hbody : Body body) {n : Nat}
    (hn : n < (encode body).length) : next ((encode body).take n) = none := by
  rw [length_encode] at hn
  match n, hn with
  | 0, _ => rfl
  | 1, _ => rfl
  | n + 2, hn =>
      simp only [encode, List.take_succ_cons, next, lengthWord_ofNat hbody.2]
      refine if_pos (Or.inr ?_)
      rw [List.length_take]
      omega

/-! ### Reading at an offset -/

theorem lengthAt_append (pre : List UInt8) (hi lo : UInt8) (tail : List UInt8) :
    lengthAt (pre ++ hi :: lo :: tail) pre.length = some (lengthWord hi lo) := by
  simp [lengthAt]

theorem lengthAt_encode {body : List UInt8} (hbody : Body body) (pre post : List UInt8) :
    lengthAt (pre ++ (encode body ++ post)) pre.length = some body.length := by
  rw [encode, List.cons_append, List.cons_append, lengthAt_append, lengthWord_ofNat hbody.2]

theorem le_length_append_encode (body pre post : List UInt8) :
    pre.length + 2 + body.length ≤ (pre ++ (encode body ++ post)).length := by
  simp only [List.length_append, length_encode]
  omega

theorem slice_encode (body pre post : List UInt8) :
    slice (pre ++ (encode body ++ post)) (pre.length + 2) body.length = some body := by
  have hdrop : (pre ++ (encode body ++ post)).drop (pre.length + 2) = body ++ post := by
    rw [List.drop_append, encode]
    simp
  rw [slice, if_pos (by simp [encode]; omega), hdrop, List.take_left]

/-- Why a reader that has reached the residue stops. -/
theorem residue_cases (pre : List UInt8) {rest : List UInt8} (hrest : next rest = none) :
    (pre ++ rest).length < pre.length + 2 ∨
      ∃ n, lengthAt (pre ++ rest) pre.length = some n ∧
        (n = 0 ∨ (pre ++ rest).length < pre.length + 2 + n) := by
  match rest, hrest with
  | [], _ => exact Or.inl (by simp)
  | [_], _ => exact Or.inl (by simp)
  | hi :: lo :: tail, hrest =>
      refine Or.inr ⟨lengthWord hi lo, lengthAt_append pre hi lo tail, ?_⟩
      simp only [next] at hrest
      split_ifs at hrest with hbad
      rcases hbad with hzero | hcut
      · exact Or.inl hzero
      · simp only [List.length_append, List.length_cons]
        omega

end LengthPrefix
