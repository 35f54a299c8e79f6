import HftOrderbook.Feed.Encoding
import HftOrderbook.Proof.Tape

/-!
# The volume of a tape and the shares on the wire

A Trade carries its share count in four bytes, which the decoder reads. A CrossTrade carries it in
eight, which the decoder steps over: its message keeps the default of zero shares.
-/

namespace HftOrderbook

open LengthPrefix

/-! ### Share counts on the wire -/

/-- The number in the `n` bytes from offset `i` on, most significant first. -/
def bigEndian (body : List UInt8) (i n : Nat) : Nat :=
  ((body.drop i).take n).foldl (fun v b => v * 256 + b.toNat) 0

/-- The shares printed by one record, if it is a print of the instrument. -/
def wireShares (locate : UInt16) (body : List UInt8) : Nat :=
  match decoded body with
  | none => 0
  | some m =>
      if m.stockLocate = locate then
        match m.type with
        | .trade => bigEndian body 20 4
        | .crossTrade => bigEndian body 11 8
        | _ => 0
      else 0

def wireVolume (locate : UInt16) (buf : List UInt8) : Nat :=
  ((frames buf).map (wireShares locate)).sum

theorem rd32_eq_bigEndian {buf : List UInt8} {i : Nat} {v : UInt32} (h : rd32 buf i = some v) :
    v.toNat = bigEndian buf i 4 := by
  simp only [rd32, Option.bind_eq_bind, Option.bind_eq_some_iff, Option.some.injEq] at h
  obtain ⟨b₀, h₀, b₁, h₁, b₂, h₂, b₃, h₃, rfl⟩ := h
  rw [bigEndian, take_drop_four h₀ h₁ h₂ h₃, toNat_or_shifts]
  simp only [List.foldl_cons, List.foldl_nil, Nat.zero_mul, Nat.zero_add]

/-! ### What the decoder makes of a print -/

theorem atLeast_eq_some {n : Nat} {buf : List UInt8} {fields : Option Message} {m : Message}
    (h : atLeast n buf fields = some (some m)) : fields = some m := by
  unfold atLeast at h
  split_ifs at h
  · cases h
  · obtain ⟨m', hfields, hm⟩ := Option.map_eq_some_iff.mp h
    rw [hfields, Option.some.inj hm]

theorem decodeAdd_eq_some {buf : List UInt8} {out m : Message} (h : decodeAdd buf out = some m) :
    m.type = out.type ∧ rd32 buf 20 = some m.shares := by
  simp only [decodeAdd, Option.bind_eq_bind, Option.bind_eq_some_iff, Option.some.injEq] at h
  obtain ⟨_, -, _, -, _, hshares, _, -, _, -, rfl⟩ := h
  exact ⟨rfl, hshares⟩

theorem decodeExecuted_eq_some {buf : List UInt8} {out m : Message}
    (h : decodeExecuted buf out = some m) : m.type = out.type := by
  simp only [decodeExecuted, Option.bind_eq_bind, Option.bind_eq_some_iff, Option.some.injEq] at h
  obtain ⟨_, -, _, -, _, -, rfl⟩ := h
  rfl

theorem decodeType_print {buf : List UInt8} {type : Char} {out m : Message}
    (h : decodeType buf type out = some (some m)) :
    (m.type = .trade → rd32 buf 20 = some m.shares) ∧
      (m.type = .crossTrade → m.shares = out.shares) := by
  unfold decodeType at h
  split at h <;> try replace h := atLeast_eq_some h
  all_goals try simp only [Option.bind_eq_bind, Option.bind_eq_some_iff, Option.some.injEq] at h
  case h_1 | h_2 | h_8 =>
    obtain ⟨_, -, rfl⟩ := h
    exact ⟨nofun, nofun⟩
  case h_3 | h_4 =>
    rw [(decodeAdd_eq_some h).1]
    exact ⟨nofun, nofun⟩
  case h_5 =>
    rw [decodeExecuted_eq_some h]
    exact ⟨nofun, nofun⟩
  case h_6 =>
    obtain ⟨out', hout, _, -, rfl⟩ := h
    dsimp only
    rw [decodeExecuted_eq_some hout]
    exact ⟨nofun, nofun⟩
  case h_7 =>
    obtain ⟨_, -, _, -, rfl⟩ := h
    exact ⟨nofun, nofun⟩
  case h_9 =>
    obtain ⟨_, -, _, -, _, -, _, -, rfl⟩ := h
    exact ⟨nofun, nofun⟩
  case h_10 =>
    obtain ⟨out', hout, _, -, rfl⟩ := h
    obtain ⟨htrade, hshares⟩ := decodeAdd_eq_some hout
    exact ⟨fun _ => hshares, fun hcross => nomatch htrade.symm.trans hcross⟩
  case h_11 =>
    obtain ⟨_, -, _, -, _, -, rfl⟩ := h
    exact ⟨nofun, fun _ => rfl⟩
  case h_12 => cases h

theorem decoded_print {body : List UInt8} {m : Message} (h : decoded body = some m) :
    (m.type = .trade → rd32 body 20 = some m.shares) ∧ (m.type = .crossTrade → m.shares = 0) := by
  have hdecode := decode_eq_some body
  rw [h, decode] at hdecode
  split_ifs at hdecode
  · cases hdecode
  · simp only [Option.bind_eq_bind, Option.bind_eq_some_iff] at hdecode
    obtain ⟨_, -, _, -, _, -, htype⟩ := hdecode
    exact decodeType_print htype

/-! ### The tape of one instrument -/

/-- What the tape of `locate` is given of a record. -/
def tapeShares (locate : UInt16) (body : List UInt8) : Nat :=
  match decoded body with
  | none => 0
  | some m => if m.isPrint && m.stockLocate == locate then m.shares.toNat else 0

theorem tapeShares_eq_wireShares_iff (locate : UInt16) (body : List UInt8) :
    tapeShares locate body = wireShares locate body ↔
      ∀ m, decoded body = some m → m.type = .crossTrade → m.stockLocate = locate →
        bigEndian body 11 8 = 0 := by
  unfold tapeShares wireShares
  cases hbody : decoded body with
  | none => simp
  | some m =>
      obtain ⟨htrade, hcross⟩ := decoded_print hbody
      simp only [Option.some.injEq, forall_eq']
      by_cases hlocate : m.stockLocate = locate
      · simp only [hlocate, beq_self_eq_true, Bool.and_true, if_true, forall_true_left]
        cases htype : m.type <;> simp [Message.isPrint, htype]
        · exact rd32_eq_bigEndian (htrade htype)
        · rw [hcross htype]
          exact eq_comm
      · simp [hlocate]

theorem tapeShares_le_wireShares (locate : UInt16) (body : List UInt8) :
    tapeShares locate body ≤ wireShares locate body := by
  by_cases heq : tapeShares locate body = wireShares locate body
  · exact heq.le
  · -- only a cross is not counted as the wire has it, and it counts for nothing
    rw [tapeShares_eq_wireShares_iff] at heq
    push Not at heq
    obtain ⟨m, hbody, hcross, -, -⟩ := heq
    have hzero : tapeShares locate body = 0 := by
      simp [tapeShares, hbody, (decoded_print hbody).2 hcross]
    exact hzero.le.trans (Nat.zero_le _)

theorem sum_map_eq_iff_of_le {α : Type} {f g : α → Nat} (hle : ∀ a, f a ≤ g a) (l : List α) :
    (l.map f).sum = (l.map g).sum ↔ ∀ a ∈ l, f a = g a := by
  induction l with
  | nil => simp
  | cons a l ih =>
      have hsum : (l.map f).sum ≤ (l.map g).sum := List.sum_le_sum fun a _ => hle a
      have ha := hle a
      rw [List.map_cons, List.map_cons, List.sum_cons, List.sum_cons, List.forall_mem_cons, ← ih]
      omega

section TradeTapes

variable {F : Type} [TapeFloat F]

/-- Of a stream of messages, what goes to the tape of one instrument. -/
def printsOf (locate : UInt16) (msgs : List Message) : List Print :=
  (msgs.filter fun m => m.isPrint && m.stockLocate == locate).map Message.print

theorem tapeAt_onMessage (tapes : TradeTapes F) (m : Message) (locate : UInt16) :
    (tapes.onMessage m).tapeAt locate = (tapes.tapeAt locate).onTrades (printsOf locate [m]) := by
  unfold TradeTapes.onMessage printsOf
  by_cases hprint : m.isPrint
  · by_cases hlocate : m.stockLocate = locate
    · subst hlocate
      simp [hprint, TradeTapes.tapeAt, TradeTape.onTrades, Message.print]
    · simp [hprint, hlocate, TradeTapes.tapeAt, TradeTape.onTrades,
        AList.lookup_insert_ne (Ne.symm hlocate)]
  · simp [hprint, TradeTape.onTrades]

theorem tapeAt_foldl (msgs : List Message) (tapes : TradeTapes F) (locate : UInt16) :
    (msgs.foldl TradeTapes.onMessage tapes).tapeAt locate =
      (tapes.tapeAt locate).onTrades (printsOf locate msgs) := by
  induction msgs generalizing tapes with
  | nil => rfl
  | cons m msgs ih =>
      have hprints : printsOf locate (m :: msgs) = printsOf locate [m] ++ printsOf locate msgs := by
        rw [printsOf, ← List.singleton_append, List.filter_append, List.map_append]
        rfl
      rw [List.foldl_cons, ih, tapeAt_onMessage, hprints]
      exact (List.foldl_append).symm

theorem shares_printsOf (locate : UInt16) (bodies : List (List UInt8)) :
    shares (printsOf locate (bodies.filterMap decoded)) =
      (bodies.map (tapeShares locate)).sum := by
  induction bodies with
  | nil => rfl
  | cons body bodies ih =>
      rw [List.map_cons, List.sum_cons, ← ih, List.filterMap_cons, tapeShares]
      cases decoded body with
      | none => exact (Nat.zero_add _).symm
      | some m =>
          unfold printsOf shares
          dsimp only
          rw [List.filter_cons]
          split_ifs
          · rfl
          · exact (Nat.zero_add _).symm

/-- The tape of an instrument counts what its records give it. -/
theorem volume_tapeAt (buf : List UInt8) (locate : UInt16) :
    ((replayTapes F buf).tapeAt locate).volume =
      UInt64.ofNat (((frames buf).map (tapeShares locate)).sum) := by
  rw [replayTapes, tapeAt_foldl, framedMessages_eq, ← shares_printsOf]
  exact TradeTape.cumVol_onTrades 1000000 _

end TradeTapes

/-- For every byte stream and every instrument whose prints carry fewer than `2 ^ 64` shares. -/
theorem tape_volume_eq_wireVolume_iff {F : Type} [TapeFloat F] (buf : List UInt8) (locate : UInt16)
    (htotal : wireVolume locate buf < 2 ^ 64) :
    ((replayTapes F buf).tapeAt locate).volume.toNat = wireVolume locate buf ↔
      ∀ body ∈ frames buf, ∀ m, decoded body = some m → m.type = .crossTrade →
        m.stockLocate = locate → bigEndian body 11 8 = 0 := by
  have hle : ((frames buf).map (tapeShares locate)).sum ≤ wireVolume locate buf :=
    List.sum_le_sum fun body _ => tapeShares_le_wireShares locate body
  rw [volume_tapeAt, UInt64.toNat_ofNat_of_lt' (hle.trans_lt htotal), wireVolume,
    sum_map_eq_iff_of_le (tapeShares_le_wireShares locate)]
  simp only [tapeShares_eq_wireShares_iff]

/-! ### A trade and a cross -/

/-- A trade of 300 shares. -/
def tradeBody : List UInt8 :=
  hdr 'P' 1 5 ++ beN 0 8 ++ [0x42] ++ be32 300 ++ List.replicate 8 0x20 ++ be32 1000000 ++ beN 9 8

/-- A cross of 500 shares. -/
def crossBody : List UInt8 :=
  hdr 'Q' 1 5 ++ beN 500 8 ++ List.replicate 8 0x20 ++ be32 1000000 ++ beN 9 8 ++ [0x4f]

theorem frames_encodeAll_singleton {body : List UInt8} (hpos : body ≠ [])
    (hlength : body.length < 2 ^ 16) : frames (encodeAll [body]) = [body] := by
  have hbodies : ∀ b ∈ [body], Body b := by
    intro b hb
    rw [List.mem_singleton.mp hb]
    exact ⟨hpos, hlength⟩
  have hframes := frames_encodeAll hbodies (rfl : next [] = none)
  rwa [List.append_nil] at hframes

theorem wireVolume_encodeAll_singleton (locate : UInt16) {body : List UInt8} (hpos : body ≠ [])
    (hlength : body.length < 2 ^ 16) :
    wireVolume locate (encodeAll [body]) = wireShares locate body := by
  rw [wireVolume, frames_encodeAll_singleton hpos hlength, List.map_singleton, List.sum_singleton]

theorem tape_volume_of_trade :
    wireVolume 1 (encodeAll [tradeBody]) = 300 ∧
      ((replayTapes ℚ (encodeAll [tradeBody])).tapeAt 1).volume.toNat = 300 := by
  have hwire : wireVolume 1 (encodeAll [tradeBody]) = 300 := by
    rw [wireVolume_encodeAll_singleton 1 (by decide) (by decide)]
    decide
  refine ⟨hwire, hwire ▸ (tape_volume_eq_wireVolume_iff (F := ℚ) _ 1 (hwire ▸ by decide)).mpr ?_⟩
  intro body hbody m hm hcross
  rw [frames_encodeAll_singleton (by decide) (by decide), List.mem_singleton] at hbody
  have htrade : (decoded tradeBody).map Message.type = some .trade := by decide
  rw [← hbody, hm, Option.map_some, hcross] at htrade
  cases htrade

/-- The tape of a cross of 500 shares has traded nothing. -/
theorem tape_volume_of_cross :
    wireVolume 1 (encodeAll [crossBody]) = 500 ∧
      ((replayTapes ℚ (encodeAll [crossBody])).tapeAt 1).volume.toNat = 0 := by
  refine ⟨?_, by decide⟩
  rw [wireVolume_encodeAll_singleton 1 (by decide) (by decide)]
  decide

end HftOrderbook
