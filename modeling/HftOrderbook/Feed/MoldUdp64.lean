import HftOrderbook.Feed.Framing

/-!
# The MoldUDP64 transport

A datagram is a 20-byte header (session, sequence number of its first message, message count) and
that many length-prefixed messages. `packetize_mold` cuts a framed stream into datagrams;
`MoldSession` reads datagrams, numbers their messages and counts the messages it believes lost.
As in the other readers of the feed every access is checked.
-/

namespace HftOrderbook

open LengthPrefix

structure MoldHeader where
  session : List UInt8
  seq : UInt64
  count : UInt16

def kMoldEndOfSession : UInt16 := 0xFFFF

/-- `some none` where the source returns `false`. -/
def parseMoldHeader (buf : List UInt8) : Option (Option MoldHeader) :=
  if buf.length < 20 then some none
  else do
    let session ← slice buf 0 10
    let seq ← rdBe buf 10 8
    let count ← rd16 buf 18
    some (some { session, seq, count })

/-! ### Packetizing -/

/-- The session field: ten bytes, padded with spaces. The size is cast to `int` before it is
compared. -/
def sessionField (session : List UInt8) : List UInt8 :=
  (List.range 10).map fun (i : Nat) =>
    if (i : Int) < Int.bmod session.length (2 ^ 32) then session.getD i 0 else 0x20

/-- `(seq >> (8 * i)) & 0xFF`. -/
def seqByte (seq : UInt64) (i : Nat) : UInt8 :=
  ((seq >>> (8 * UInt64.ofNat i)) &&& 0xFF).toUInt8

def encodeMoldPacket (session : List UInt8) (seq : UInt64) (count : UInt16)
    (blocks : List UInt8) : List UInt8 :=
  sessionField session ++ (List.range 8).reverse.map (seqByte seq) ++
    [((count >>> 8) &&& 0xFF).toUInt8, (count &&& 0xFF).toUInt8] ++ blocks

/-- The inner loop, with `room` messages left for the datagram: the offset it stops at and how many
messages it has passed. -/
def blockRun (framed : List UInt8) : Nat → Nat → Option (Nat × Nat)
  | 0, off => some (off, 0)
  | room + 1, off =>
      if off + 2 ≤ framed.length then do
        let mlen ← lengthAt framed off
        if mlen = 0 ∨ framed.length < off + 2 + mlen then some (off, 0)
        else do
          let (stop, cnt) ← blockRun framed room (off + 2 + mlen)
          some (stop, cnt + 1)
      else some (off, 0)

/-- The outer loop, `none` if a read leaves the stream or `fuel` rounds were not enough. -/
def packetsFrom (session framed : List UInt8) (msgsPerPacket : UInt16) :
    Nat → Nat → UInt64 → Option (List (List UInt8))
  | 0, _, _ => none
  | fuel + 1, off, seq =>
      if off < framed.length then do
        let (stop, cnt) ← blockRun framed msgsPerPacket.toNat off
        if cnt = 0 then some []
        else do
          let blocks ← slice framed off (stop - off)
          let rest ← packetsFrom session framed msgsPerPacket fuel stop (seq + UInt64.ofNat cnt)
          some (encodeMoldPacket session seq (UInt16.ofNat cnt) blocks :: rest)
      else some []

def packetizeMold (session framed : List UInt8) (msgsPerPacket : UInt16) :
    Option (List (List UInt8)) :=
  packetsFrom session framed msgsPerPacket (framed.length + 1) 0 1

/-! ### Receiving -/

structure MoldSession where
  expected : UInt64 := 0
  gaps : UInt64 := 0
  packets : UInt64 := 0
  messages : UInt64 := 0
  started : Bool := false
  ended : Bool := false

/-- The loop over the blocks of a datagram: the sequence number after the last one, and the calls of
the sink. -/
def blocksFrom (buf : List UInt8) :
    Nat → Nat → UInt64 → Option (UInt64 × List (UInt64 × Message))
  | 0, _, seq => some (seq, [])
  | count + 1, off, seq =>
      if buf.length < off + 2 then some (seq, [])
      else do
        let mlen ← lengthAt buf off
        if buf.length < off + 2 + mlen then some (seq, [])
        else do
          let body ← slice buf (off + 2) mlen
          let message ← decode body
          let (last, sunk) ← blocksFrom buf count (off + 2 + mlen) (seq + 1)
          some (last, message.toList.map (fun m => (seq, m)) ++ sunk)

namespace MoldSession

/-- The session after a datagram and what the sink was called with. -/
def onPacket (s : MoldSession) (buf : List UInt8) :
    Option (MoldSession × List (UInt64 × Message)) := do
  match ← parseMoldHeader buf with
  | none => some (s, [])
  | some h =>
      let s := { s with packets := s.packets + 1 }
      if h.count = kMoldEndOfSession then some ({ s with ended := true }, [])
      else do
        let gaps := if s.started && s.expected < h.seq then s.gaps + (h.seq - s.expected)
          else s.gaps
        let (last, sunk) ← blocksFrom buf h.count.toNat 20 h.seq
        some ({ s with
          gaps
          started := true
          messages := s.messages + UInt64.ofNat sunk.length
          expected := last }, sunk)

def expectedSeq (s : MoldSession) : UInt64 := s.expected

def feed (s : MoldSession) (packets : List (List UInt8)) :
    Option (MoldSession × List (UInt64 × Message)) :=
  packets.foldlM (fun (state : MoldSession × List (UInt64 × Message)) packet =>
    (state.1.onPacket packet).map fun next => (next.1, state.2 ++ next.2)) (s, [])

/-- `onPacket` as a total function: no datagram makes it read outside. -/
def receive (s : MoldSession) (buf : List UInt8) : MoldSession × List (UInt64 × Message) :=
  (s.onPacket buf).getD (s, [])

def receiveAll (s : MoldSession) (packets : List (List UInt8)) :
    MoldSession × List (UInt64 × Message) :=
  packets.foldl (fun (state : MoldSession × List (UInt64 × Message)) packet =>
    ((state.1.receive packet).1, state.2 ++ (state.1.receive packet).2)) (s, [])

end MoldSession

/-! ### No read leaves the datagram -/

theorem lengthAt_isSome {buf : List UInt8} {off : Nat} (h : off + 2 ≤ buf.length) :
    (lengthAt buf off).isSome :=
  isSome_bind (isSome_getElem? (by omega)) fun _ =>
    isSome_bind (isSome_getElem? (by omega)) fun _ => rfl

theorem slice_isSome {buf : List UInt8} {off n : Nat} (h : off + n ≤ buf.length) :
    (slice buf off n).isSome := by
  rw [slice, if_pos h]
  rfl

theorem blocksFrom_isSome (buf : List UInt8) (count : Nat) :
    ∀ off seq, (blocksFrom buf count off seq).isSome := by
  induction count with
  | zero => exact fun _ _ => rfl
  | succ count ih =>
      intro off seq
      unfold blocksFrom
      split_ifs with hshort
      · rfl
      · refine isSome_bind (lengthAt_isSome (by omega)) fun mlen => ?_
        split_ifs with hcut
        · rfl
        · refine isSome_bind (slice_isSome (by omega)) fun body => ?_
          rw [decode_eq_some]
          exact isSome_bind rfl fun _ => isSome_bind (ih _ _) fun _ => rfl

theorem parseMoldHeader_isSome (buf : List UInt8) : (parseMoldHeader buf).isSome := by
  unfold parseMoldHeader
  split_ifs with hshort
  · rfl
  · exact isSome_bind (slice_isSome (by omega)) fun _ =>
      isSome_bind (rdBe_isSome (by omega)) fun _ =>
        isSome_bind (rd16_isSome (by omega)) fun _ => rfl

theorem MoldSession.onPacket_eq_some (s : MoldSession) (buf : List UInt8) :
    s.onPacket buf = some (s.receive buf) := by
  have htotal : (s.onPacket buf).isSome := by
    refine isSome_bind (parseMoldHeader_isSome buf) fun header => ?_
    cases header with
    | none => rfl
    | some h =>
        dsimp only
        split_ifs
        · rfl
        · exact isSome_bind (blocksFrom_isSome buf _ _ _) fun _ => rfl
        · exact isSome_bind (blocksFrom_isSome buf _ _ _) fun _ => rfl
  obtain ⟨result, hresult⟩ := Option.isSome_iff_exists.mp htotal
  rw [MoldSession.receive, hresult]
  rfl

/-- No buffer makes a parser of the feed read outside it, or a decoder outside its message, and the
walk over frames stops within as many rounds as there are bytes. Its offset never passes the length,
so for a buffer that fits in memory no sum of the source wraps. -/
theorem parsers_read_inside (buf : List UInt8) :
    (∃ message, decode buf = some message) ∧
      (∃ sunk consumed, consumed ≤ buf.length ∧
        ∀ fuel, buf.length < fuel → framedFrom buf fuel 0 = some (sunk, consumed)) ∧
      (∃ header, parseMoldHeader buf = some header) ∧
      ∀ s : MoldSession, ∃ next, s.onPacket buf = some next :=
  ⟨⟨_, decode_eq_some buf⟩,
    ⟨_, _, length_encodeAll_frames_le buf, fun _ hfuel => framedFrom_eq buf hfuel⟩,
    Option.isSome_iff_exists.mp (parseMoldHeader_isSome buf), fun s => ⟨_, s.onPacket_eq_some buf⟩⟩

theorem MoldSession.feed_eq_some (s : MoldSession) (packets : List (List UInt8)) :
    s.feed packets = some (s.receiveAll packets) := by
  unfold feed receiveAll
  generalize (s, ([] : List (UInt64 × Message))) = state
  induction packets generalizing state with
  | nil => rfl
  | cons packet packets ih =>
      rw [List.foldlM_cons, onPacket_eq_some, List.foldl_cons]
      exact ih _

theorem MoldSession.receiveAll_concat (s : MoldSession) (packets : List (List UInt8))
    (packet : List UInt8) :
    s.receiveAll (packets ++ [packet]) =
      (((s.receiveAll packets).1.receive packet).1,
        (s.receiveAll packets).2 ++ ((s.receiveAll packets).1.receive packet).2) := by
  rw [receiveAll, List.foldl_append]
  rfl

end HftOrderbook
