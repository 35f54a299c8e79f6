import HftOrderbook.Feed.Mdrecv
import HftOrderbook.Library.SpanWalk
import HftOrderbook.Proof.MoldLoss

/-!
# A receiver behind a network that does as it likes

Datagrams may be lost, arrive more than once, and overtake one another; those that are too long for
the buffer of the receiver are cut off. The books hold what has arrived, and every message that is
missing between the first datagram and one that has arrived is among those the session counts as
lost.
-/

namespace HftOrderbook

open LengthPrefix SpanWalk

section Runs

variable {session : List UInt8} {runs : List (List (List UInt8))}

/-- What is whole in the first bytes of the datagram `i`. -/
abbrev heard (runs : List (List (List UInt8))) (i : Nat) : List (List UInt8) :=
  landed runs (i, recvCapacity)

/-- The positions of these messages. -/
def heardSpan (runs : List (List (List UInt8))) (i : Nat) : Nat × Nat :=
  (firstSeq runs i, firstSeq runs i + (heard runs i).length)

/-- The session after some datagrams, of which the newest is `i`. -/
structure Listening (runs : List (List (List UInt8))) (i : Nat) (s : MoldSession) : Prop where
  started : s.started = true
  ended : s.ended = false
  expected : s.expected = UInt64.ofNat (heardSpan runs i).2

/-- What is counted as lost when the datagram `j` follows `i`, as the source computes it. -/
theorem Carried.gap_eq (h : Carried runs) {s : MoldSession} {i : Nat} (hs : Listening runs i s)
    (j : Nat) :
    (if s.started = true ∧ s.expected < UInt64.ofNat (firstSeq runs j) then
      s.gaps + (UInt64.ofNat (firstSeq runs j) - s.expected) else s.gaps) =
      s.gaps + UInt64.ofNat ((heardSpan runs j).1 - (heardSpan runs i).2) := by
  have hfirst := h.toNat_firstSeq j
  have hlast : s.expected.toNat = (heardSpan runs i).2 := by
    rw [hs.expected]
    exact h.toNat_landed (i, recvCapacity)
  have hless : s.expected < UInt64.ofNat (firstSeq runs j) ↔
      (heardSpan runs i).2 < firstSeq runs j := by
    rw [UInt64.lt_iff_toNat_lt, hfirst, hlast]
  by_cases hjump : (heardSpan runs i).2 < firstSeq runs j
  · rw [if_pos ⟨hs.started, hless.mpr hjump⟩, hs.expected]
    exact congrArg (s.gaps + ·) (UInt64.ofNat_sub hjump.le).symm
  · have hzero : (heardSpan runs j).1 - (heardSpan runs i).2 = 0 := by
      change firstSeq runs j - _ = 0
      omega
    rw [if_neg fun hand => hjump (hless.mp hand.2), hzero]
    exact (UInt64.add_zero _).symm

theorem length_take_packetAt (session : List UInt8) (runs : List (List (List UInt8))) (i : Nat) :
    ((packetAt session runs i).take recvCapacity).length ≠ 0 := by
  rw [packetAt, packet, encodeMoldPacket_take _ _ _ _ (by decide)]
  simp [encodeMoldPacket, sessionField]

/-- One round of the loop. -/
theorem Carried.mdrecvLoop_cons (h : Carried runs) (session : List UInt8) {j : Nat}
    (hj : j < runs.length) {s : MoldSession} (hended : s.ended = false) (book : BookSet)
    (later : List (List UInt8)) :
    ∃ s', mdrecvLoop s book (packetAt session runs j :: later) =
        mdrecvLoop s' (((heard runs j).filterMap decoded).foldl BookSet.apply book) later ∧
      Listening runs j s' ∧ s'.packets = s.packets + 1 ∧
      s'.messages = s.messages + UInt64.ofNat ((heard runs j).filterMap decoded).length ∧
      s'.gaps = if s.started = true ∧ s.expected < UInt64.ofNat (firstSeq runs j) then
        s.gaps + (UInt64.ofNat (firstSeq runs j) - s.expected) else s.gaps := by
  have hcut : 20 ≤ (j, recvCapacity).2 := by
    change 20 ≤ recvCapacity
    decide
  have hreceive := h.receive_cut session s (e := (j, recvCapacity)) hj hcut
  have hsunk := map_snd_numbered (firstSeq runs j) (heard runs j)
  refine ⟨(s.receive (cutPacket session runs (j, recvCapacity))).1, ?_, ?_⟩
  · have hrunning : (s.receive (cutPacket session runs (j, recvCapacity))).1.ended = false := by
      rw [hreceive]
      exact hended
    have hmessages : (s.receive (cutPacket session runs (j, recvCapacity))).2.map Prod.snd =
        (heard runs j).filterMap decoded := by
      rw [hreceive]
      exact hsunk
    rw [mdrecvLoop, ← hmessages]
    refine (if_neg (length_take_packetAt session runs j)).trans (if_neg ?_)
    rw [Bool.not_eq_true]
    exact hrunning
  · rw [← hsunk, List.length_map, hreceive]
    exact ⟨⟨rfl, hended, rfl⟩, rfl, rfl, rfl⟩

/-- The loop from a state in which it has heard the datagram `i`. -/
theorem Carried.mdrecvLoop_spec (h : Carried runs) (session : List UInt8) {order : List Nat}
    (horder : ∀ j ∈ order, j < runs.length) {i : Nat} {s : MoldSession} (hs : Listening runs i s)
    (book : BookSet) :
    ∃ s', mdrecvLoop s book (order.map (packetAt session runs)) =
        (s', (order.flatMap fun j => (heard runs j).filterMap decoded).foldl BookSet.apply book) ∧
      s'.ended = false ∧
      s'.packets = s.packets + UInt64.ofNat order.length ∧
      s'.messages = s.messages +
        UInt64.ofNat (order.flatMap fun j => (heard runs j).filterMap decoded).length ∧
      s'.gaps = s.gaps + UInt64.ofNat (skipped ((i :: order).map (heardSpan runs))) := by
  induction order generalizing i s book with
  | nil =>
      have hzero (n : UInt64) : n = n + UInt64.ofNat 0 := (UInt64.add_zero n).symm
      exact ⟨s, rfl, hs.ended, hzero _, hzero _, hzero _⟩
  | cons j order ih =>
      obtain ⟨next, hround, hnext, hnextPackets, hnextMessages, hnextGaps⟩ :=
        h.mdrecvLoop_cons session (horder j List.mem_cons_self) hs.ended book
          (order.map (packetAt session runs))
      obtain ⟨s', hloop, hended, hpackets, hmessages, hgaps⟩ :=
        ih (fun k hk => horder k (List.mem_cons_of_mem _ hk)) hnext
          (((heard runs j).filterMap decoded).foldl BookSet.apply book)
      refine ⟨s', ?_, hended, ?_, ?_, ?_⟩
      · rw [List.map_cons, hround, hloop, List.flatMap_cons, List.foldl_append]
      · rw [hpackets, hnextPackets, List.length_cons, Nat.add_comm, UInt64.ofNat_add,
          UInt64.add_assoc]
        rfl
      · rw [hmessages, hnextMessages, List.flatMap_cons, List.length_append, UInt64.ofNat_add,
          UInt64.add_assoc]
      · have hskipped : skipped ((i :: j :: order).map (heardSpan runs)) =
            ((heardSpan runs j).1 - (heardSpan runs i).2) +
              skipped ((j :: order).map (heardSpan runs)) := rfl
        rw [hgaps, hnextGaps, h.gap_eq hs, hskipped, UInt64.ofNat_add, UInt64.add_assoc]

/-! ### Positions -/

theorem filterMap_zipIdx (bodies : List (List UInt8)) (first : Nat) :
    (bodies.zipIdx first).filterMap (fun b => decoded b.1) = bodies.filterMap decoded := by
  have hfst : (bodies.zipIdx first).map Prod.fst = bodies := List.zipIdx_map_fst first bodies
  conv_rhs => rw [← hfst]
  rw [List.filterMap_map]
  rfl

/-- A position has arrived if the span of some datagram covers it. -/
theorem mem_positions_iff {order : List Nat} {p : Nat} :
    p ∈ (order.flatMap fun i => (heard runs i).zipIdx (firstSeq runs i)).map Prod.snd ↔
      Covers (order.map (heardSpan runs)) p := by
  constructor
  · intro hp
    obtain ⟨b, hb, rfl⟩ := List.mem_map.mp hp
    obtain ⟨i, hi, hb⟩ := List.mem_flatMap.mp hb
    exact ⟨heardSpan runs i, List.mem_map_of_mem hi, bounds_of_mem_zipIdx hb⟩
  · rintro ⟨s, hs, hle, hlt⟩
    obtain ⟨i, hi, rfl⟩ := List.mem_map.mp hs
    have hpositions : p ∈ ((heard runs i).zipIdx (firstSeq runs i)).map Prod.snd := by
      rw [List.zipIdx_map_snd, List.mem_range'_1]
      exact ⟨hle, hlt⟩
    obtain ⟨b, hb, rfl⟩ := List.mem_map.mp hpositions
    exact List.mem_map_of_mem (List.mem_flatMap_of_mem hi hb)

theorem skipped_heardSpan_le (runs : List (List (List UInt8))) (order : List Nat) :
    skipped (order.map (heardSpan runs)) ≤ order.length * runs.flatten.length := by
  have hfirst (i : Nat) : 1 ≤ firstSeq runs i ∧ firstSeq runs i ≤ 1 + runs.flatten.length := by
    have hle : (runs.take i).flatten.length ≤ runs.flatten.length :=
      (List.take_sublist i runs).flatten.length_le
    unfold firstSeq
    omega
  have hbound : ∀ s ∈ order.map (heardSpan runs), ∀ s' ∈ order.map (heardSpan runs),
      s'.1 - s.2 ≤ runs.flatten.length := by
    intro s hs s' hs'
    obtain ⟨i, -, rfl⟩ := List.mem_map.mp hs
    obtain ⟨j, -, rfl⟩ := List.mem_map.mp hs'
    have hi := hfirst i
    have hj := hfirst j
    change firstSeq runs j - (firstSeq runs i + (heard runs i).length) ≤ _
    omega
  have hskipped := skipped_le hbound
  rwa [List.length_map] at hskipped

/-- The messages missing between the first datagram and one that has arrived are counted. -/
theorem card_missing_le (first : Nat) (rest : List Nat) {b : List UInt8 × Nat}
    (hb : b ∈ (first :: rest).flatMap fun i => (heard runs i).zipIdx (firstSeq runs i)) :
    (Finset.Ico (firstSeq runs first) b.2 \
      (((first :: rest).flatMap fun i => (heard runs i).zipIdx (firstSeq runs i)).map
        Prod.snd).toFinset).card ≤ skipped ((first :: rest).map (heardSpan runs)) := by
  obtain ⟨i, hi, hmem⟩ := List.mem_flatMap.mp hb
  have htop : ∃ s ∈ (first :: rest).map (heardSpan runs), b.2 ≤ s.2 :=
    ⟨heardSpan runs i, List.mem_map_of_mem hi, (bounds_of_mem_zipIdx hmem).2.le⟩
  refine (Finset.card_le_card fun p hp => ?_).trans (card_uncovered_le_skipped htop)
  rw [Finset.mem_sdiff, Finset.mem_Ico, List.mem_toFinset, mem_positions_iff] at hp
  exact mem_uncovered.mpr hp

end Runs

/-- For every way in which the datagrams of a stream reach `mdrecv`: each message it reads is the
one of its position in the stream, the books are those of the messages in the order in which they
came, and every message that is missing between the first datagram and an arrived message is counted
in `gaps`. -/
theorem mdrecv_any_delivery (session buf : List UInt8) (hlen : buf.length < 2 ^ 64)
    (msgsPerPacket : UInt16) (hpos : 1 ≤ msgsPerPacket.toNat)
    (hmax : msgsPerPacket.toNat ≤ 65534) (datagrams : List (List UInt8))
    (hdatagrams : packetizeMold session buf msgsPerPacket = some datagrams)
    (first : Nat) (rest : List Nat) (hindex : ∀ i ∈ first :: rest, i < datagrams.length)
    (hjumps : (first :: rest).length * (frames buf).length < 2 ^ 64) :
    let arrived := arrivedBlocks msgsPerPacket.toNat datagrams
      ((first :: rest).map fun i => (i, recvCapacity))
    let messages := arrived.filterMap fun b => decoded b.1
    (∀ b ∈ arrived, 1 ≤ b.2 ∧ (frames buf)[b.2 - 1]? = some b.1) ∧
      ∃ s, mdrecv (arrivals datagrams (first :: rest)) = (s, messages.foldl BookSet.apply {}) ∧
        s.ended = false ∧ s.packets = UInt64.ofNat (first :: rest).length ∧
        s.messages = UInt64.ofNat messages.length ∧
        ∀ b ∈ arrived, (Finset.Ico (first * msgsPerPacket.toNat + 1) b.2 \
          (arrived.map Prod.snd).toFinset).card ≤ s.gaps.toNat := by
  intro arrived messages
  obtain ⟨runs, hcarried, hflatten, hruns, hpackets⟩ := exists_carried session buf hlen hpos hmax
  obtain rfl := Option.some.inj (hdatagrams.symm.trans hpackets)
  rw [List.length_map, List.length_range] at hindex
  rw [← hflatten] at hruns
  have harrived : arrived =
      (first :: rest).flatMap fun i => (heard runs i).zipIdx (firstSeq runs i) := by
    refine (hcarried.arrivedBlocks_eq session hruns ?_ ?_).trans (List.flatMap_map _ _ _)
    · intro e he
      obtain ⟨i, hi, rfl⟩ := List.mem_map.mp he
      exact hindex i hi
    · intro e he
      obtain ⟨i, -, rfl⟩ := List.mem_map.mp he
      change 20 ≤ recvCapacity
      decide
  have hmessages : messages = (first :: rest).flatMap fun i => (heard runs i).filterMap decoded := by
    change arrived.filterMap _ = _
    rw [harrived, List.filterMap_flatMap]
    exact List.flatMap_congr fun i _ => filterMap_zipIdx _ _
  have hfirst := hindex first List.mem_cons_self
  obtain ⟨s₁, hround, hlistening, hpackets₁, hmessages₁, hgaps₁⟩ :=
    hcarried.mdrecvLoop_cons session hfirst (s := {}) rfl {} (rest.map (packetAt session runs))
  obtain ⟨s, hloop, hended, hpackets', hmessages', hgaps⟩ :=
    hcarried.mdrecvLoop_spec session (fun j hj => hindex j (List.mem_cons_of_mem _ hj)) hlistening
      (((heard runs first).filterMap decoded).foldl BookSet.apply {})
  refine ⟨fun b hb => ?_, s, ?_, hended, ?_, ?_, fun b hb => ?_⟩
  · rw [harrived] at hb
    obtain ⟨i, hi, hb⟩ := List.mem_flatMap.mp hb
    rw [← hflatten]
    exact hcarried.getElem?_of_mem_landed hruns (e := (i, recvCapacity)) (hindex i hi) hb
  · rw [arrivals_map_range _ hindex, mdrecv, List.map_cons, hround, hloop, hmessages,
      List.flatMap_cons, List.foldl_append]
  · rw [hpackets', hpackets₁, List.length_cons, Nat.add_comm, UInt64.ofNat_add]
    rfl
  · rw [hmessages', hmessages₁, hmessages, List.flatMap_cons, List.length_append,
      UInt64.ofNat_add]
    exact congrArg (· + _) (UInt64.zero_add _)
  · have hzero : s.gaps = UInt64.ofNat (skipped ((first :: rest).map (heardSpan runs))) := by
      rw [hgaps, hgaps₁]
      exact UInt64.zero_add _
    have hfits := (skipped_heardSpan_le runs (first :: rest)).trans_lt (hflatten ▸ hjumps)
    rw [hzero, UInt64.toNat_ofNat_of_lt' hfits, harrived, ← hcarried.firstSeq_eq hruns hfirst]
    exact card_missing_le first rest (harrived ▸ hb)

/-- The second of three datagrams never arrives and the first arrives again. -/
theorem mdrecv_any_delivery_eventsAround :
    ∃ datagrams s, packetizeMold [0x48] eventsAround 1 = some datagrams ∧
      (mdrecv (arrivals datagrams [0, 2, 0])).1 = s ∧ s.packets = 3 ∧
      ∀ b ∈ arrivedBlocks 1 datagrams [(0, recvCapacity), (2, recvCapacity), (0, recvCapacity)],
        (Finset.Ico 1 b.2 \ ((arrivedBlocks 1 datagrams [(0, recvCapacity), (2, recvCapacity),
          (0, recvCapacity)]).map Prod.snd).toFinset).card ≤ s.gaps.toNat := by
  have hframes : 2 * (frames eventsAround).length ≤ eventsAround.length :=
    (length_le_encodeAll _).trans (length_encodeAll_frames_le eventsAround)
  have hjumps : [0, 2, 0].length * (frames eventsAround).length < 2 ^ 64 := by
    have hbytes : eventsAround.length = 31 := rfl
    change 3 * _ < _
    omega
  obtain ⟨-, s, hmdrecv, -, hpackets, -, hgaps⟩ :=
    mdrecv_any_delivery [0x48] eventsAround (by decide) 1 (by decide) (by decide) _ rfl 0 [2, 0]
      (by decide) hjumps
  exact ⟨_, s, rfl, congrArg Prod.fst hmdrecv, hpackets, hgaps⟩

end HftOrderbook
