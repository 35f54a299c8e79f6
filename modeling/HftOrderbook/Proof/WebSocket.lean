import HftOrderbook.Feed.WebSocket
import HftOrderbook.Proof.LineSocket

/-!
# Frames are read back

Each part of a frame is taken from the front of what is pending, whatever the chunks are, and the
parts follow each other as they were written. So a reader that has taken a frame stands at the next.
-/

namespace HftOrderbook.Ws

open ChunkedWire Mt5

/-! ### Taking bytes from the front -/

/-- From a socket that does not time out, `m` takes the bytes of `text` and returns `a`. -/
def Takes {α : Type} (m : Reading α) (text : List UInt8) (a : α) : Prop :=
  ∀ (s : LineSocket) (rest : List UInt8), Prompt s.wire.script → s.pending = text ++ rest →
    ∃ s', m.run s = (some a, s') ∧ s'.pending = rest ∧ Prompt s'.wire.script

namespace Takes

variable {α β : Type} {m : Reading α} {text text' : List UInt8} {a : α} {b : β}

theorem pure (a : α) : Takes (Pure.pure a : Reading α) [] a :=
  fun s _ hprompt hpending => ⟨s, rfl, hpending, hprompt⟩

theorem bind {f : α → Reading β} (hm : Takes m text a) (hf : Takes (f a) text' b) :
    Takes (m >>= f) (text ++ text') b := by
  intro s rest hprompt hpending
  rw [List.append_assoc] at hpending
  obtain ⟨s', hrun, hpending', hprompt'⟩ := hm s _ hprompt hpending
  obtain ⟨s'', hrun', hpending'', hprompt''⟩ := hf s' rest hprompt' hpending'
  refine ⟨s'', ?_, hpending'', hprompt''⟩
  rw [OptionT.run_bind, Option.elimM]
  change (m.run s).1.elim (Pure.pure none) (fun a => (f a).run) (m.run s).2 = _
  rw [hrun]
  exact hrun'

theorem recvExact (out : List UInt8) : Takes (recvExact out.length) out out :=
  fun _ _ hprompt hpending => LineSocket.recvExact_of_pending hprompt hpending

end Takes

/-! ### The forms of a length -/

theorem rdBe_eq_lengthOf (e : List UInt8) (k : Nat) (hk : k ≤ e.length) :
    rdBe e 0 k = some (lengthOf (e.take k)) := by
  induction k with
  | zero => rfl
  | succ k ih =>
      have hlt : k < e.length := hk
      have hread := ih (by omega)
      unfold rdBe lengthOf at hread ⊢
      rw [List.range_succ, List.foldlM_append, hread, List.take_succ_eq_append_getElem hlt,
        List.foldl_append]
      simp [List.getElem?_eq_getElem hlt]

theorem lengthOf_beN {v : UInt64} {n : Nat} (hn : n ≤ 8) (hv : v.toNat < 2 ^ (8 * n)) :
    lengthOf (beN v n) = v := by
  have hdrop : (beN v n).drop 0 = beN v n ++ [] := (List.append_nil _).symm
  have hread : rdBe (beN v n) 0 n = some v := rdBe_beN hn hv hdrop
  rw [rdBe_eq_lengthOf _ _ (length_beN v n).ge, List.take_of_length_le (length_beN v n).le] at hread
  exact Option.some.inj hread

/-- The second byte of a header, with the bit of the mask and without. -/
theorem lengthByte {m : Nat} (hm : m < 128) :
    ((UInt8.ofNat m &&& 0x80 != 0) = false ∧
      (UInt8.ofNat m &&& 0x7F).toUInt64 = UInt64.ofNat m) ∧
    ((UInt8.ofNat m ||| 0x80) &&& 0x80 != 0) = true ∧
      ((UInt8.ofNat m ||| 0x80) &&& 0x7F).toUInt64 = UInt64.ofNat m := by
  revert m
  decide

/-- The header says the length in its second byte, or how many bytes of it follow. -/
theorem frameHead_eq (n : UInt64) :
    ∃ m < 128, ∃ ext, frameHead n = [0x81, UInt8.ofNat m] ++ ext ∧
      Takes (readLength (UInt64.ofNat m)) ext n := by
  unfold frameHead
  split_ifs with hshort hmiddle
  · have hlt : n.toNat < 126 := UInt64.lt_iff_toNat_lt.mp hshort
    refine ⟨n.toNat, by omega, [], rfl, ?_⟩
    rw [UInt64.ofNat_toNat, readLength, if_neg (by rintro rfl; exact absurd hlt (by decide)),
      if_neg (by rintro rfl; exact absurd hlt (by decide))]
    exact Takes.pure n
  · have hle : n.toNat ≤ 0xFFFF := UInt64.le_iff_toNat_le.mp hmiddle
    have hvalue := lengthOf_beN (by decide : 2 ≤ 8) (show n.toNat < 2 ^ (8 * 2) by omega)
    refine ⟨126, by decide, beN n 2, rfl, ?_⟩
    rw [readLength, if_pos (by decide), ← List.append_nil (beN n 2)]
    refine (Takes.recvExact (beN n 2)).bind ?_
    have hpair : ((beN n 2).getD 0 0).toUInt64 <<< 8 ||| ((beN n 2).getD 1 0).toUInt64 = n := by
      have hfirst : ((0 : UInt64) <<< 8) ||| ((beN n 2).getD 0 0).toUInt64 =
          ((beN n 2).getD 0 0).toUInt64 := UInt64.zero_or
      rw [← hfirst]
      exact hvalue
    rw [hpair]
    exact Takes.pure n
  · have hvalue := lengthOf_beN (le_refl 8) n.toNat_lt
    refine ⟨127, by decide, beN n 8, rfl, ?_⟩
    rw [readLength, if_neg (by decide), if_pos (by decide), ← List.append_nil (beN n 8)]
    refine (Takes.recvExact (beN n 8)).bind ?_
    rw [hvalue]
    exact Takes.pure n

/-! ### Frames -/

/-- The frame a client sends: the bit of the mask is set and the key stands before the payload. -/
def maskedFrame (key payload : List UInt8) : List UInt8 :=
  (frameHead (UInt64.ofNat payload.length)).modify 1 (· ||| 0x80) ++
    (key ++ payload.mapIdx fun i b => b ^^^ key.getD (i % 4) 0)

theorem unmask_mapIdx (key payload : List UInt8) :
    unmask key (payload.mapIdx fun i b => b ^^^ key.getD (i % 4) 0) = payload := by
  apply List.ext_getElem?
  intro i
  have hindex : i &&& 3 = i % 4 := Nat.and_two_pow_sub_one_eq_mod i 2
  rw [unmask, List.getElem?_mapIdx, List.getElem?_mapIdx, hindex, Option.map_map]
  cases payload[i]? with
  | none => rfl
  | some b =>
      rw [Option.map_some, Function.comp_apply, UInt8.xor_assoc, UInt8.xor_self, UInt8.xor_zero]

theorem takes_payload {n : UInt64} {text : List UInt8} (hn : n.toNat = text.length) :
    Takes (readPayload n) text text := by
  rw [readPayload, hn]
  cases text with
  | nil =>
      obtain rfl : n = 0 := UInt64.toNat_inj.mp hn
      exact Takes.pure []
  | cons b text =>
      rw [if_pos]
      · exact Takes.recvExact (b :: text)
      · rw [bne_iff_ne]
        rintro rfl
        cases hn

theorem takes_frameText {payload : List UInt8} (hlength : payload.length < 2 ^ 63) :
    Takes readFrame (frameText payload) (payload, 1) := by
  have htoNat : (UInt64.ofNat payload.length).toNat = payload.length :=
    UInt64.toNat_ofNat_of_lt' (by change _ < 2 ^ 64; omega)
  obtain ⟨m, hm, ext, hhead, hext⟩ := frameHead_eq (UInt64.ofNat payload.length)
  obtain ⟨⟨hplain, hlen⟩, -⟩ := lengthByte hm
  have hparts : frameText payload = [0x81, UInt8.ofNat m] ++ (ext ++ ([] ++ (payload ++ []))) := by
    rw [frameText, hhead, List.append_nil, List.nil_append, List.append_assoc]
  rw [hparts]
  refine (Takes.recvExact [0x81, UInt8.ofNat m]).bind ?_
  simp only [List.getD_cons_zero, List.getD_cons_succ, hplain, hlen]
  exact hext.bind ((Takes.pure [0, 0, 0, 0]).bind ((takes_payload htoNat).bind (Takes.pure _)))

theorem takes_maskedFrame {key payload : List UInt8} (hkey : key.length = 4)
    (hlength : payload.length < 2 ^ 63) :
    Takes readFrame (maskedFrame key payload) (payload, 1) := by
  have htoNat : (UInt64.ofNat payload.length).toNat =
      (payload.mapIdx fun i b => b ^^^ key.getD (i % 4) 0).length := by
    rw [List.length_mapIdx]
    exact UInt64.toNat_ofNat_of_lt' (by change _ < 2 ^ 64; omega)
  obtain ⟨m, hm, ext, hhead, hext⟩ := frameHead_eq (UInt64.ofNat payload.length)
  obtain ⟨-, hmasked, hlen⟩ := lengthByte hm
  have hparts : maskedFrame key payload = [0x81, UInt8.ofNat m ||| 0x80] ++ (ext ++ (key ++
      ((payload.mapIdx fun i b => b ^^^ key.getD (i % 4) 0) ++ []))) := by
    rw [maskedFrame, hhead, List.append_nil]
    rfl
  have hresult : (unmask key (payload.mapIdx fun i b => b ^^^ key.getD (i % 4) 0),
      (0x81 : UInt8) &&& 0x0F) = (payload, 1) := by
    rw [unmask_mapIdx]
    rfl
  have hmask : Takes (readMask true) key key := by
    have htakes := Takes.recvExact key
    rwa [hkey] at htakes
  rw [hparts, ← hresult]
  refine (Takes.recvExact [0x81, UInt8.ofNat m ||| 0x80]).bind ?_
  simp only [List.getD_cons_zero, List.getD_cons_succ, hmasked, hlen]
  exact hext.bind (hmask.bind ((takes_payload htoNat).bind (Takes.pure _)))

theorem takes_frames {payloads : List (List UInt8)}
    (hlength : ∀ payload ∈ payloads, payload.length < 2 ^ 63) :
    Takes (readFrames payloads.length) (payloads.flatMap frameText) (payloads.map (·, 1)) := by
  induction payloads with
  | nil => exact Takes.pure []
  | cons payload payloads ih =>
      have hfirst := takes_frameText (hlength payload List.mem_cons_self)
      have hlater := ih fun p hp => hlength p (List.mem_cons_of_mem _ hp)
      have hall := hfirst.bind (f := fun frame => readFrames payloads.length >>= fun frames =>
        pure (frame :: frames)) (hlater.bind (Takes.pure _))
      rwa [List.append_nil] at hall

/-- However they arrive, frames are read back in order, and nothing behind them is taken. -/
theorem frames_round_trip :
    (∀ (payloads : List (List UInt8)) (rest : List UInt8) (s : LineSocket),
      (∀ payload ∈ payloads, payload.length < 2 ^ 63) → Prompt s.wire.script →
      s.pending = payloads.flatMap frameText ++ rest →
      ∃ s', (readFrames payloads.length).run s = (some (payloads.map (·, 1)), s') ∧
        s'.pending = rest) ∧
    ∀ (key payload rest : List UInt8) (s : LineSocket), key.length = 4 →
      payload.length < 2 ^ 63 → Prompt s.wire.script →
      s.pending = maskedFrame key payload ++ rest →
      ∃ s', readFrame.run s = (some (payload, 1), s') ∧ s'.pending = rest := by
  constructor
  · intro payloads rest s hlength hprompt hpending
    obtain ⟨s', hrun, hpending', -⟩ := takes_frames hlength s rest hprompt hpending
    exact ⟨s', hrun, hpending'⟩
  · intro key payload rest s hkey hlength hprompt hpending
    obtain ⟨s', hrun, hpending', -⟩ := takes_maskedFrame hkey hlength s rest hprompt hpending
    exact ⟨s', hrun, hpending'⟩

/-- Two frames in chunks of three bytes, the first byte already in the buffer, and a masked one. -/
theorem frames_round_trip_two :
    (∃ s', (readFrames 2).run
        { buf := [0x81]
          wire := ⟨[0x02, 0x68, 0x69, 0x81, 0x00, 0x2A], Stream'.const (.chunk 3)⟩ } =
          (some ([([0x68, 0x69], 1), ([], 1)]), s') ∧ s'.pending = [0x2A]) ∧
    ∃ s', readFrame.run
        (.start [0x81, 0x82, 1, 2, 3, 4, 0x69, 0x6B, 0x2A] (Stream'.const (.chunk 3))) =
          (some ([0x68, 0x69], 1), s') ∧ s'.pending = [0x2A] := by
  have hprompt : Prompt (Stream'.const (.chunk 3)) := fun n => Choice.noConfusion
  exact ⟨frames_round_trip.1 [[0x68, 0x69], []] [0x2A] _ (by decide) hprompt (by decide),
    frames_round_trip.2 [1, 2, 3, 4] [0x68, 0x69] [0x2A] _ rfl (by decide) hprompt (by decide)⟩

end HftOrderbook.Ws
