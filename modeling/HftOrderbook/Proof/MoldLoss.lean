import HftOrderbook.Proof.MoldDelivery

/-!
# Losses of a packetized stream

Some datagrams of a stream never arrive, and those that do may be cut anywhere behind their header.
The session reads the blocks that are whole and expects the number behind the last of them, so that
the blocks a cut has taken are counted together with the datagrams lost before the next arrival.
-/

namespace HftOrderbook

open LengthPrefix

/-- An arrival is the index of a datagram and the number of bytes left of it. -/
def cutArrival (datagrams : List (List UInt8)) (e : Nat × Nat) : List UInt8 :=
  (datagrams.getD e.1 []).take e.2

/-- The blocks that are whole in what arrived, each with its position in the stream. -/
def arrivedBlocks (perPacket : Nat) (datagrams : List (List UInt8)) (order : List (Nat × Nat)) :
    List (List UInt8 × Nat) :=
  order.flatMap fun e =>
    (frames ((cutArrival datagrams e).drop 20)).zipIdx (e.1 * perPacket + 1)

/-! ### One arrival -/

theorem frames_take_encodeAll {bodies : List (List UInt8)} (hbodies : ∀ body ∈ bodies, Body body)
    (n : Nat) : frames ((encodeAll bodies).take n) = bodies.take (wholeBodies bodies n) := by
  induction bodies generalizing n with
  | nil => simp [encodeAll, frames_of_next_eq_none (rfl : next [] = none)]
  | cons body bodies ih =>
      have hbody := hbodies body List.mem_cons_self
      rw [wholeBodies_cons hbody, encodeAll_cons, List.take_append]
      split_ifs with hwhole
      · rw [List.take_of_length_le hwhole, frames_encode_append hbody, List.take_succ_cons,
          ih fun body' h => hbodies body' (List.mem_cons_of_mem _ h)]
      · rw [Nat.sub_eq_zero_of_le (by omega), List.take_zero, List.append_nil,
          frames_of_next_eq_none (next_take_encode hbody (by omega)), List.take_zero]

theorem drop_packet_take (session : List UInt8) (first : Nat) (bodies : List (List UInt8)) {n : Nat}
    (hn : 20 ≤ n) :
    ((packet session first bodies).take n).drop 20 = (encodeAll bodies).take (n - 20) := by
  rw [packet, encodeMoldPacket_take _ _ _ _ hn]
  exact List.drop_left' (by simp [sessionField])

section Runs

variable {session : List UInt8} {runs : List (List (List UInt8))}

def landed (runs : List (List (List UInt8))) (e : Nat × Nat) : List (List UInt8) :=
  (runs.getD e.1 []).take (wholeBodies (runs.getD e.1 []) (e.2 - 20))

def cutPacket (session : List UInt8) (runs : List (List (List UInt8))) (e : Nat × Nat) :
    List UInt8 :=
  (packetAt session runs e.1).take e.2

/-- The session has accounted for every position from `first` up to the one it expects next: the
blocks it has read, each once, and for the others its gap count. -/
structure Accounted (first : Nat) (blocks : List (List UInt8 × Nat))
    (state : MoldSession × List (UInt64 × Message)) : Prop where
  started : state.1.started = true
  nodup : (blocks.map Prod.snd).Nodup
  inside : ∀ b ∈ blocks, first ≤ b.2 ∧ b.2 < state.1.expected.toNat
  count : state.1.expected.toNat = first + blocks.length + state.1.gaps.toNat
  sunk : state.2.map (fun e => (e.1.toNat, e.2)) =
    blocks.filterMap fun b => (decoded b.1).map fun m => (b.2, m)

theorem length_landed_le (runs : List (List (List UInt8))) (e : Nat × Nat) :
    firstSeq runs e.1 + (landed runs e).length ≤ firstSeq runs (e.1 + 1) := by
  rw [firstSeq_succ]
  exact Nat.add_le_add_left (List.length_take_le' _ _) _

theorem Carried.receive_cut (h : Carried runs) (session : List UInt8) (s : MoldSession)
    {e : Nat × Nat} (he : e.1 < runs.length) (hcut : 20 ≤ e.2) :
    s.receive (cutPacket session runs e) =
      ({ s with
          packets := s.packets + 1
          gaps := if s.started = true ∧ s.expected < UInt64.ofNat (firstSeq runs e.1) then
            s.gaps + (UInt64.ofNat (firstSeq runs e.1) - s.expected) else s.gaps
          started := true
          messages := s.messages +
            UInt64.ofNat (numbered (firstSeq runs e.1) (landed runs e)).length
          expected := UInt64.ofNat (firstSeq runs e.1 + (landed runs e).length) },
        numbered (firstSeq runs e.1) (landed runs e)) := by
  have hmem := getD_mem he
  have hlength : (landed runs e).length = wholeBodies (runs.getD e.1 []) (e.2 - 20) := by
    rw [landed, List.length_take]
    exact Nat.min_eq_left (wholeBodies_le (h.bodies _ hmem) _)
  rw [cutPacket, packetAt, s.receive_take session _ (h.bodies _ hmem) (h.length_le _ hmem) hcut,
    hlength]
  rfl

theorem Carried.toNat_landed (h : Carried runs) (e : Nat × Nat) :
    (UInt64.ofNat (firstSeq runs e.1 + (landed runs e).length)).toNat =
      firstSeq runs e.1 + (landed runs e).length := by
  have hle := length_landed_le runs e
  have hlt := h.firstSeq_lt (e.1 + 1)
  exact UInt64.toNat_ofNat_of_lt' (by change _ < 2 ^ 64; omega)

theorem Carried.map_numbered_landed (h : Carried runs) (e : Nat × Nat) :
    (numbered (firstSeq runs e.1) (landed runs e)).map (fun e => (e.1.toNat, e.2)) =
      ((landed runs e).zipIdx (firstSeq runs e.1)).filterMap
        fun b => (decoded b.1).map fun m => (b.2, m) := by
  have hle := length_landed_le runs e
  have hlt := h.firstSeq_lt (e.1 + 1)
  exact map_toNat_numbered (by omega)

theorem bounds_of_mem_zipIdx {bodies : List (List UInt8)} {first : Nat} {b : List UInt8 × Nat}
    (hb : b ∈ bodies.zipIdx first) : first ≤ b.2 ∧ b.2 < first + bodies.length := by
  have hbounds := List.mem_zipIdx (i := b.2) (x := b.1) hb
  exact ⟨hbounds.1, by omega⟩

theorem accounted_first (h : Carried runs) (session : List UInt8) {e : Nat × Nat}
    (he : e.1 < runs.length) (hcut : 20 ≤ e.2) :
    Accounted (firstSeq runs e.1) ((landed runs e).zipIdx (firstSeq runs e.1))
      (({} : MoldSession).receive (cutPacket session runs e)) := by
  rw [h.receive_cut session {} he hcut]
  refine ⟨rfl, ?_, fun b hb => ?_, ?_, h.map_numbered_landed e⟩
  · rw [List.zipIdx_map_snd]
    exact List.nodup_range'
  · change _ ∧ _ < (UInt64.ofNat _).toNat
    rw [h.toNat_landed]
    exact bounds_of_mem_zipIdx hb
  · change (UInt64.ofNat _).toNat = _ + _ + 0
    rw [h.toNat_landed, List.length_zipIdx, Nat.add_zero]

/-- The next arrival: what lies between its first number and the number expected was lost. -/
theorem Accounted.receive (h : Carried runs) {first : Nat} {blocks : List (List UInt8 × Nat)}
    {state : MoldSession × List (UInt64 × Message)} (hstate : Accounted first blocks state)
    (session : List UInt8) {e : Nat × Nat} (he : e.1 < runs.length) (hcut : 20 ≤ e.2)
    (hbehind : state.1.expected.toNat ≤ firstSeq runs e.1) :
    Accounted first (blocks ++ (landed runs e).zipIdx (firstSeq runs e.1))
      ((state.1.receive (cutPacket session runs e)).1,
        state.2 ++ (state.1.receive (cutPacket session runs e)).2) := by
  have hcount := hstate.count
  have hseq := h.toNat_firstSeq e.1
  rw [h.receive_cut session state.1 he hcut]
  refine ⟨rfl, ?_, fun b hb => ?_, ?_, ?_⟩
  · rw [List.map_append, List.nodup_append, List.zipIdx_map_snd]
    refine ⟨hstate.nodup, List.nodup_range', fun p hp q hq heq => ?_⟩
    obtain ⟨b, hb, rfl⟩ := List.mem_map.mp hp
    have hlt := (hstate.inside b hb).2
    have hge := (List.mem_range'_1.mp hq).1
    omega
  · change _ ∧ _ < (UInt64.ofNat _).toNat
    rw [h.toNat_landed]
    rcases List.mem_append.mp hb with hb | hb
    · have hinside := hstate.inside b hb
      omega
    · have hbounds := bounds_of_mem_zipIdx hb
      omega
  · change (UInt64.ofNat _).toNat = _ + _ + (ite _ _ _ : UInt64).toNat
    have hgaps : (if state.1.started = true ∧ state.1.expected < UInt64.ofNat (firstSeq runs e.1)
        then state.1.gaps + (UInt64.ofNat (firstSeq runs e.1) - state.1.expected)
        else state.1.gaps).toNat =
          state.1.gaps.toNat + (firstSeq runs e.1 - state.1.expected.toNat) := by
      have hlt := h.firstSeq_lt e.1
      split_ifs with hgap
      · rw [UInt64.toNat_add, UInt64.toNat_sub_of_le _ _ (UInt64.le_of_lt hgap.2), hseq]
        exact Nat.mod_eq_of_lt (by omega)
      · rw [UInt64.lt_iff_toNat_lt, hseq] at hgap
        have hle := not_lt.mp fun hlt => hgap ⟨hstate.started, hlt⟩
        omega
    rw [h.toNat_landed, hgaps, List.length_append, List.length_zipIdx]
    omega
  · rw [List.map_append, List.filterMap_append, hstate.sunk, h.map_numbered_landed]

/-! ### Every run with losses -/

theorem accounted_receiveAll (h : Carried runs) (session : List UInt8) (first : Nat × Nat)
    (rest : List (Nat × Nat)) (horder : ((first :: rest).map Prod.fst).Pairwise (· < ·))
    (hindex : ∀ e ∈ first :: rest, e.1 < runs.length) (hcut : ∀ e ∈ first :: rest, 20 ≤ e.2) :
    let state := ({} : MoldSession).receiveAll ((first :: rest).map (cutPacket session runs))
    Accounted (firstSeq runs first.1)
        ((first :: rest).flatMap fun e => (landed runs e).zipIdx (firstSeq runs e.1)) state ∧
      ∀ i, (∀ e ∈ first :: rest, e.1 < i) → state.1.expected.toNat ≤ firstSeq runs i := by
  have hend : ∀ (s : MoldSession) (e : Nat × Nat) (i : Nat), e.1 < runs.length → 20 ≤ e.2 →
      e.1 < i → (s.receive (cutPacket session runs e)).1.expected.toNat ≤ firstSeq runs i := by
    intro s e i he hcut hi
    rw [h.receive_cut session s he hcut]
    change (UInt64.ofNat _).toNat ≤ _
    rw [h.toNat_landed]
    exact (length_landed_le runs e).trans (firstSeq_mono runs hi)
  induction rest using List.reverseRecOn with
  | nil =>
      have he := hindex first List.mem_cons_self
      have hlong := hcut first List.mem_cons_self
      refine ⟨?_, fun i hi => hend _ first i he hlong (hi first List.mem_cons_self)⟩
      rw [List.flatMap_singleton]
      exact accounted_first h session he hlong
  | append_singleton rest e ih =>
      rw [← List.cons_append] at horder hindex hcut ⊢
      rw [List.map_append, List.pairwise_append] at horder
      have he := hindex e (by simp)
      have hlong := hcut e (by simp)
      obtain ⟨hstate, hbehind⟩ := ih horder.1 (fun e' h => hindex e' (List.mem_append_left _ h))
        fun e' h => hcut e' (List.mem_append_left _ h)
      rw [List.map_append, List.map_singleton, MoldSession.receiveAll_concat, List.flatMap_append,
        List.flatMap_singleton]
      refine ⟨?_, fun i hi => hend _ e i he hlong (hi e (by simp))⟩
      exact hstate.receive h session he hlong (hbehind e.1 fun e' he' =>
        horder.2.2 e'.1 (List.mem_map_of_mem he') e.1 (by simp))

theorem Accounted.card_missing {first : Nat} {blocks : List (List UInt8 × Nat)}
    {state : MoldSession × List (UInt64 × Message)} (h : Accounted first blocks state) :
    state.1.gaps.toNat =
      (Finset.Ico first state.1.expected.toNat \ (blocks.map Prod.snd).toFinset).card := by
  have hsubset : (blocks.map Prod.snd).toFinset ⊆ Finset.Ico first state.1.expected.toNat := by
    intro p hp
    obtain ⟨b, hb, rfl⟩ := List.mem_map.mp (List.mem_toFinset.mp hp)
    exact Finset.mem_Ico.mpr (h.inside b hb)
  have hcount := h.count
  rw [Finset.card_sdiff_of_subset hsubset, Nat.card_Ico, List.toFinset_card_of_nodup h.nodup,
    List.length_map]
  omega

/-- The runs of a stream are all of one length, except perhaps the last. -/
theorem Carried.firstSeq_eq (h : Carried runs) {n : Nat}
    (hruns : ∀ i run, runs[i]? = some run → run = (runs.flatten.drop (i * n)).take n) {i : Nat}
    (hi : i < runs.length) : firstSeq runs i = i * n + 1 := by
  have hrun : ∀ j, j < runs.length → runs.getD j [] = (runs.flatten.drop (j * n)).take n := by
    intro j hj
    refine hruns j _ ?_
    rw [List.getD_eq_getElem?_getD, List.getElem?_eq_getElem hj, Option.getD_some]
  induction i with
  | zero =>
      rw [Nat.zero_mul]
      rfl
  | succ i ih =>
      -- the run behind this one has a body, so this one is full
      have hnext := List.length_pos_of_ne_nil (h.nonempty _ (getD_mem hi))
      rw [hrun _ hi, List.length_take, List.length_drop, Nat.succ_mul] at hnext
      rw [firstSeq_succ, ih (by omega), hrun i (by omega), List.length_take, List.length_drop,
        Nat.succ_mul]
      omega

theorem cutArrival_packets {i n : Nat} (hi : i < runs.length) :
    cutArrival ((List.range runs.length).map (packetAt session runs)) (i, n) =
      cutPacket session runs (i, n) := by
  rw [cutArrival, List.getD_eq_getElem?_getD, List.getElem?_map, List.getElem?_range hi]
  rfl

theorem Carried.frames_cutPacket (h : Carried runs) (session : List UInt8) {e : Nat × Nat}
    (he : e.1 < runs.length) (hcut : 20 ≤ e.2) :
    frames ((cutPacket session runs e).drop 20) = landed runs e := by
  rw [cutPacket, packetAt, drop_packet_take _ _ _ hcut,
    frames_take_encodeAll (h.bodies _ (getD_mem he))]
  rfl

theorem Carried.arrivedBlocks_eq (h : Carried runs) (session : List UInt8) {n : Nat}
    (hruns : ∀ i run, runs[i]? = some run → run = (runs.flatten.drop (i * n)).take n)
    {order : List (Nat × Nat)} (hindex : ∀ e ∈ order, e.1 < runs.length)
    (hcut : ∀ e ∈ order, 20 ≤ e.2) :
    arrivedBlocks n ((List.range runs.length).map (packetAt session runs)) order =
      order.flatMap fun e => (landed runs e).zipIdx (firstSeq runs e.1) := by
  refine List.flatMap_congr fun e he => ?_
  rw [cutArrival_packets (hindex e he), h.frames_cutPacket session (hindex e he) (hcut e he),
    h.firstSeq_eq hruns (hindex e he)]

theorem Carried.getElem?_of_mem_landed (h : Carried runs) {n : Nat}
    (hruns : ∀ i run, runs[i]? = some run → run = (runs.flatten.drop (i * n)).take n)
    {e : Nat × Nat} (he : e.1 < runs.length) {b : List UInt8 × Nat}
    (hb : b ∈ (landed runs e).zipIdx (firstSeq runs e.1)) :
    1 ≤ b.2 ∧ runs.flatten[b.2 - 1]? = some b.1 := by
  obtain ⟨hle, hget⟩ := List.mem_zipIdx_iff_le_and_getElem?_sub.mp hb
  have hseq := h.firstSeq_eq hruns he
  have hrun := hruns e.1 (runs.getD e.1 [])
    (by rw [List.getD_eq_getElem?_getD, List.getElem?_eq_getElem he, Option.getD_some])
  obtain ⟨tail, htail⟩ : landed runs e <+: runs.flatten.drop (e.1 * n) :=
    (List.take_prefix _ _).trans (hrun ▸ List.take_prefix _ _)
  have hlt := (List.getElem?_eq_some_iff.mp hget).1
  have hposition : e.1 * n + (b.2 - firstSeq runs e.1) = b.2 - 1 := by omega
  refine ⟨by omega, ?_⟩
  rw [← hposition, ← List.getElem?_drop, ← htail, List.getElem?_append_left hlt, hget]

end Runs

theorem mold_exact_loss (session buf : List UInt8) (hlen : buf.length < 2 ^ 64)
    (msgsPerPacket : UInt16) (hpos : 1 ≤ msgsPerPacket.toNat)
    (hmax : msgsPerPacket.toNat ≤ 65534) (datagrams : List (List UInt8))
    (hdatagrams : packetizeMold session buf msgsPerPacket = some datagrams) (first : Nat × Nat)
    (rest : List (Nat × Nat)) (horder : ((first :: rest).map Prod.fst).Pairwise (· < ·))
    (hindex : ∀ e ∈ first :: rest, e.1 < datagrams.length)
    (hcut : ∀ e ∈ first :: rest, 20 ≤ e.2) :
    let blocks := arrivedBlocks msgsPerPacket.toNat datagrams (first :: rest)
    (∀ b ∈ blocks, 1 ≤ b.2 ∧ (frames buf)[b.2 - 1]? = some b.1) ∧
      ∃ header s sunk, parseMoldHeader (cutArrival datagrams first) = some (some header) ∧
        ({} : MoldSession).feed ((first :: rest).map (cutArrival datagrams)) = some (s, sunk) ∧
        s.expectedSeq.toNat = header.seq.toNat + blocks.length + s.gaps.toNat ∧
        s.gaps.toNat = (Finset.Ico header.seq.toNat s.expectedSeq.toNat \
          (blocks.map Prod.snd).toFinset).card ∧
        sunk.map (fun e => (e.1.toNat, e.2)) =
          blocks.filterMap fun b => (decoded b.1).map fun m => (b.2, m) := by
  intro blocks
  obtain ⟨runs, hcarried, hflatten, hruns, hpackets⟩ := exists_carried session buf hlen hpos hmax
  obtain rfl := Option.some.inj (hdatagrams.symm.trans hpackets)
  rw [List.length_map, List.length_range] at hindex
  rw [← hflatten] at hruns
  have hfirst := hindex first List.mem_cons_self
  have hblocks : blocks = _ := hcarried.arrivedBlocks_eq session hruns hindex hcut
  obtain ⟨haccounted, -⟩ := accounted_receiveAll hcarried session first rest horder hindex hcut
  have harrivals : (first :: rest).map
      (cutArrival ((List.range runs.length).map (packetAt session runs))) =
      (first :: rest).map (cutPacket session runs) :=
    List.map_congr_left fun e he => cutArrival_packets (hindex e he)
  have hfeed := MoldSession.feed_eq_some {} ((first :: rest).map (cutPacket session runs))
  rw [← hblocks] at haccounted
  rw [← harrivals] at hfeed haccounted
  generalize ({} : MoldSession).receiveAll _ = state at haccounted hfeed
  refine ⟨fun b hb => ?_, ⟨sessionField session, UInt64.ofNat (firstSeq runs first.1),
    UInt16.ofNat (runs.getD first.1 []).length⟩, state.1, state.2, ?_, hfeed, ?_, ?_,
    haccounted.sunk⟩
  · rw [hblocks] at hb
    obtain ⟨e, he, hb⟩ := List.mem_flatMap.mp hb
    rw [← hflatten]
    exact hcarried.getElem?_of_mem_landed hruns (hindex e he) hb
  · rw [cutArrival_packets hfirst, cutPacket, packetAt, packet,
      encodeMoldPacket_take _ _ _ _ (hcut first List.mem_cons_self), parseMoldHeader_encode]
  · change _ = (UInt64.ofNat _).toNat + _ + _
    rw [hcarried.toNat_firstSeq]
    exact haccounted.count
  · change _ = (Finset.Ico (UInt64.ofNat _).toNat _ \ _).card
    rw [hcarried.toNat_firstSeq]
    exact haccounted.card_missing

/-- The first datagram loses its last byte and the second never arrives. -/
theorem mold_exact_loss_eventsAround :
    ∃ datagrams header s sunk, packetizeMold [0x48] eventsAround 1 = some datagrams ∧
      parseMoldHeader (cutArrival datagrams (0, 33)) = some (some header) ∧
      ({} : MoldSession).feed ([(0, 33), (2, 34)].map (cutArrival datagrams)) = some (s, sunk) ∧
      s.expectedSeq.toNat = header.seq.toNat +
        (arrivedBlocks 1 datagrams [(0, 33), (2, 34)]).length + s.gaps.toNat := by
  obtain ⟨-, header, s, sunk, hheader, hfeed, hcount, -⟩ :=
    mold_exact_loss [0x48] eventsAround (by decide) 1 (by decide) (by decide) _ rfl (0, 33)
      [(2, 34)] (by decide) (by decide) (by decide)
  exact ⟨_, header, s, sunk, rfl, hheader, hfeed, hcount⟩

end HftOrderbook
