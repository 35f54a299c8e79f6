import HftOrderbook.Itch.Decoder

/-!
# Walking a framed byte stream

The loop of `for_each_framed_message`, with its offset arithmetic and its three ways to stop. What
it hands to the sink is what the complete records of the buffer decode to.
-/

namespace HftOrderbook

open LengthPrefix

/-- The loop from an offset on: the messages handed to the sink, in order, and the final offset. It
is `none` if a read leaves the buffer or `fuel` rounds were not enough. -/
def framedFrom (buf : List UInt8) : Nat → Nat → Option (List Message × Nat)
  | 0, _ => none
  | fuel + 1, off =>
      if off + 2 ≤ buf.length then do
        let mlen ← lengthAt buf off
        if mlen = 0 then some ([], off)
        else if buf.length < off + 2 + mlen then some ([], off)
        else do
          let body ← slice buf (off + 2) mlen
          let message ← decode body
          let (sunk, consumed) ← framedFrom buf fuel (off + 2 + mlen)
          some (message.toList ++ sunk, consumed)
      else some ([], off)

def forEachFramedMessage (buf : List UInt8) : Option (List Message × Nat) :=
  framedFrom buf (buf.length + 1) 0

def framedMessages (buf : List UInt8) : List Message :=
  ((forEachFramedMessage buf).map Prod.fst).getD []

/-! ### What is delivered -/

theorem framedFrom_encodeAll {bodies : List (List UInt8)} {rest : List UInt8}
    (hbodies : ∀ body ∈ bodies, Body body) (hrest : next rest = none) :
    ∀ (pre : List UInt8) (fuel : Nat), bodies.length < fuel →
      framedFrom (pre ++ (encodeAll bodies ++ rest)) fuel pre.length =
        some (bodies.filterMap decoded, pre.length + (encodeAll bodies).length) := by
  induction bodies with
  | nil =>
      intro pre fuel hfuel
      obtain ⟨fuel, rfl⟩ : ∃ n, fuel = n + 1 := ⟨fuel - 1, by simp at hfuel; omega⟩
      change framedFrom (pre ++ rest) (fuel + 1) pre.length = some ([], pre.length)
      unfold framedFrom
      rcases residue_cases pre hrest with hshort | ⟨n, hlength, hstop⟩
      · rw [if_neg (by omega)]
      · split_ifs
        · rw [hlength]
          rcases hstop with rfl | hcut
          · rfl
          · by_cases hzero : n = 0
            · subst hzero
              rfl
            · simp only [Option.bind_eq_bind, Option.bind_some, if_neg hzero, if_pos hcut]
        · rfl
  | cons body bodies ih =>
      intro pre fuel hfuel
      obtain ⟨fuel, rfl⟩ : ∃ n, fuel = n + 1 := ⟨fuel - 1, by simp at hfuel; omega⟩
      have hbody := hbodies body List.mem_cons_self
      have hsplit : encodeAll (body :: bodies) ++ rest =
          encode body ++ (encodeAll bodies ++ rest) := by
        rw [encodeAll_cons, List.append_assoc]
      -- the rest of the walk is the walk over the remaining records, behind a longer prefix
      have hwalk := ih (fun body' h => hbodies body' (List.mem_cons_of_mem _ h))
        (pre ++ encode body) fuel (by simpa using hfuel)
      rw [List.append_assoc, List.length_append, length_encode] at hwalk
      have hoff : pre.length + (body.length + 2) = pre.length + 2 + body.length := by omega
      rw [hoff] at hwalk
      have hpos : body.length ≠ 0 := fun hzero => hbody.1 (List.length_eq_zero_iff.mp hzero)
      have hfits := le_length_append_encode body pre (encodeAll bodies ++ rest)
      rw [hsplit]
      unfold framedFrom
      rw [if_pos (by omega), lengthAt_encode hbody]
      simp only [Option.bind_eq_bind, Option.bind_some, if_neg hpos, if_neg (not_lt.mpr hfits),
        slice_encode, decode_eq_some, hwalk]
      rw [encodeAll_cons, List.length_append, length_encode, ← Nat.add_assoc, hoff,
        List.filterMap_cons]
      cases decoded body <;> rfl

theorem framedFrom_eq (buf : List UInt8) {fuel : Nat} (hfuel : buf.length < fuel) :
    framedFrom buf fuel 0 =
      some ((frames buf).filterMap decoded, (encodeAll (frames buf)).length) := by
  obtain ⟨bodies, rest, hbodies, hrest, rfl⟩ := exists_records buf
  have hlength := length_le_encodeAll bodies
  rw [List.length_append] at hfuel
  have hwalk := framedFrom_encodeAll hbodies hrest [] fuel (by omega)
  rw [frames_encodeAll hbodies hrest]
  simpa only [List.nil_append, List.length_nil, Nat.zero_add] using hwalk

theorem forEachFramedMessage_eq (buf : List UInt8) :
    forEachFramedMessage buf =
      some ((frames buf).filterMap decoded, (encodeAll (frames buf)).length) :=
  framedFrom_eq buf (Nat.lt_succ_self _)

theorem length_encodeAll_frames_le (buf : List UInt8) :
    (encodeAll (frames buf)).length ≤ buf.length := by
  obtain ⟨bodies, rest, hbodies, hrest, rfl⟩ := exists_records buf
  rw [frames_encodeAll hbodies hrest, List.length_append]
  exact Nat.le_add_right _ _

/-- Wherever a buffer is cut, the records of the first part are the first records of the whole, and
the others begin where the walk over the first part has stopped. -/
theorem frames_eq_append_of_take (buf : List UInt8) (k : Nat) :
    frames buf =
      frames (buf.take k) ++ frames (buf.drop (encodeAll (frames (buf.take k))).length) := by
  obtain ⟨bodies, rest, hbodies, hrest, htake⟩ := exists_records (buf.take k)
  have hbuf : buf = encodeAll bodies ++ (rest ++ buf.drop k) := by
    rw [← List.append_assoc, ← htake, List.take_append_drop]
  rw [htake, frames_encodeAll hbodies hrest]
  conv_lhs => rw [hbuf, frames_encodeAll_append hbodies]
  conv_rhs => rw [hbuf, List.drop_left]

/-- A walk that was cut short goes on where it stopped, and the stream of any list of bodies is
walked to its end. -/
theorem deframing_resumes :
    (∀ (buf : List UInt8) (k : Nat), k ≤ buf.length → ∀ sunk c,
      forEachFramedMessage (buf.take k) = some (sunk, c) →
      c ≤ k ∧ ∃ sunk' c', forEachFramedMessage (buf.drop c) = some (sunk', c') ∧
        forEachFramedMessage buf = some (sunk ++ sunk', c + c')) ∧
    ∀ bodies : List (List UInt8), (∀ body ∈ bodies, 1 ≤ body.length ∧ body.length ≤ 65535) →
      forEachFramedMessage (encodeAll bodies) =
        some (bodies.filterMap decoded, (encodeAll bodies).length) := by
  constructor
  · intro buf k hk sunk c hwalk
    rw [forEachFramedMessage_eq, Option.some.injEq, Prod.mk.injEq] at hwalk
    obtain ⟨rfl, rfl⟩ := hwalk
    have hle := length_encodeAll_frames_le (buf.take k)
    rw [List.length_take, min_eq_left hk] at hle
    refine ⟨hle, _, _, forEachFramedMessage_eq _, ?_⟩
    have hframes := frames_eq_append_of_take buf k
    rw [forEachFramedMessage_eq, ← List.filterMap_append, ← hframes]
    conv_lhs => rw [hframes, encodeAll_append, List.length_append, ← hframes]
  · intro bodies hbodies
    have hbody : ∀ body ∈ bodies, Body body := by
      intro body hmem
      obtain ⟨hpos, hlt⟩ := hbodies body hmem
      exact ⟨List.length_pos_iff.mp hpos, Nat.lt_succ_of_le hlt⟩
    have hframes := frames_encodeAll hbody (rfl : next [] = none)
    rw [List.append_nil] at hframes
    rw [forEachFramedMessage_eq, hframes]

theorem framedMessages_eq (buf : List UInt8) :
    framedMessages buf = (frames buf).filterMap decoded := by
  rw [framedMessages, forEachFramedMessage_eq]
  rfl

end HftOrderbook
