import HftOrderbook.Feed.MoldUdp64
import HftOrderbook.Feed.Encoding

/-!
# Datagrams of a framed stream

What `packetize_mold` builds and what a session makes of it, in terms of message bodies: a stream is
cut into runs of bodies, each run travels in one datagram under the sequence number of its first
body, and receiving a datagram numbers its bodies from there on.
-/

namespace HftOrderbook

open LengthPrefix

/-! ### The header -/

theorem seqByte_eq (seq : UInt64) (i : Nat) :
    seqByte seq i = (seq >>> UInt64.ofNat (8 * i)).toUInt8 := by
  have hshift : 8 * UInt64.ofNat i = UInt64.ofNat (8 * i) := by
    rw [UInt64.ofNat_mul]
    rfl
  rw [seqByte, hshift, ← UInt8.toNat_inj, UInt64.toNat_toUInt8, UInt64.toNat_toUInt8,
    UInt64.toNat_and]
  change (_ &&& (2 ^ 8 - 1)) % 2 ^ 8 = _
  rw [Nat.and_two_pow_sub_one_eq_mod, Nat.mod_mod]

theorem map_seqByte (seq : UInt64) : (List.range 8).reverse.map (seqByte seq) = beN seq 8 :=
  List.map_congr_left fun i _ => seqByte_eq seq i

theorem countBytes_eq (count : UInt16) :
    [((count >>> 8) &&& 0xFF).toUInt8, (count &&& 0xFF).toUInt8] = be16 count := by
  have hmask : ∀ v : UInt16, (v &&& 0xFF).toUInt8 = v.toUInt8 := by
    intro v
    rw [← UInt8.toNat_inj, UInt16.toNat_toUInt8, UInt16.toNat_toUInt8, UInt16.toNat_and]
    change (_ &&& (2 ^ 8 - 1)) % 2 ^ 8 = _
    rw [Nat.and_two_pow_sub_one_eq_mod, Nat.mod_mod]
  rw [hmask, hmask, be16]

theorem length_sessionField (session : List UInt8) : (sessionField session).length = 10 := by
  simp [sessionField]

theorem encodeMoldPacket_eq (session : List UInt8) (seq : UInt64) (count : UInt16)
    (blocks : List UInt8) :
    encodeMoldPacket session seq count blocks =
      sessionField session ++ (beN seq 8 ++ (be16 count ++ blocks)) := by
  rw [encodeMoldPacket, map_seqByte, countBytes_eq]
  simp only [List.append_assoc]

theorem parseMoldHeader_encode (session : List UInt8) (seq : UInt64) (count : UInt16)
    (blocks : List UInt8) :
    parseMoldHeader (encodeMoldPacket session seq count blocks) =
      some (some ⟨sessionField session, seq, count⟩) := by
  have hsession := length_sessionField session
  rw [encodeMoldPacket_eq]
  set buf := sessionField session ++ (beN seq 8 ++ (be16 count ++ blocks)) with hbuf
  have hlength : 20 ≤ buf.length := by
    rw [hbuf, List.length_append, List.length_append, List.length_append, hsession, length_beN]
    change 20 ≤ 10 + (8 + (2 + blocks.length))
    omega
  have hseq : rdBe buf 10 8 = some seq :=
    rdBe_beN le_rfl seq.toNat_lt (List.drop_left' hsession)
  have hcount : rd16 buf 18 = some count := by
    have hshape : buf = (sessionField session ++ beN seq 8) ++ (be16 count ++ blocks) := by
      rw [hbuf, List.append_assoc]
    rw [hshape]
    refine rd16_be16 (List.drop_left' ?_)
    rw [List.length_append, hsession, length_beN]
  have hslice : slice buf 0 10 = some (sessionField session) := by
    rw [slice, if_pos (by omega), List.drop_zero, hbuf, List.take_left' hsession]
  rw [parseMoldHeader, if_neg (by omega), hslice, hseq, hcount]
  rfl

/-! ### Runs of bodies -/

/-- The datagram that carries a run of bodies, the first of them under the number `first`. -/
def packet (session : List UInt8) (first : Nat) (bodies : List (List UInt8)) : List UInt8 :=
  encodeMoldPacket session (UInt64.ofNat first) (UInt16.ofNat bodies.length) (encodeAll bodies)

def packets (session : List UInt8) : Nat → List (List (List UInt8)) → List (List UInt8)
  | _, [] => []
  | first, run :: runs => packet session first run :: packets session (first + run.length) runs

def numbered (first : Nat) (bodies : List (List UInt8)) : List (UInt64 × Message) :=
  (bodies.zipIdx first).filterMap fun e => (decoded e.1).map fun m => (UInt64.ofNat e.2, m)

theorem numbered_cons (first : Nat) (body : List UInt8) (bodies : List (List UInt8)) :
    numbered first (body :: bodies) =
      (decoded body).toList.map (fun m => (UInt64.ofNat first, m)) ++
        numbered (first + 1) bodies := by
  rw [numbered, List.zipIdx_cons, List.filterMap_cons]
  cases decoded body <;> rfl

theorem numbered_append (first : Nat) (bodies bodies' : List (List UInt8)) :
    numbered first (bodies ++ bodies') =
      numbered first bodies ++ numbered (first + bodies.length) bodies' := by
  rw [numbered, List.zipIdx_append, List.filterMap_append]
  rfl

theorem numbered_eq_nil_iff {first : Nat} {bodies : List (List UInt8)} :
    numbered first bodies = [] ↔ ∀ body ∈ bodies, decoded body = none := by
  induction bodies generalizing first with
  | nil => simp [numbered]
  | cons body bodies ih =>
      rw [numbered_cons, List.append_eq_nil_iff, ih, List.forall_mem_cons]
      cases decoded body <;> simp

theorem map_snd_numbered (first : Nat) (bodies : List (List UInt8)) :
    (numbered first bodies).map Prod.snd = bodies.filterMap decoded := by
  induction bodies generalizing first with
  | nil => rfl
  | cons body bodies ih =>
      rw [numbered_cons, List.map_append, ih, List.filterMap_cons]
      cases decoded body <;> rfl

theorem map_toNat_numbered {first : Nat} {bodies : List (List UInt8)}
    (hlt : first + bodies.length ≤ 2 ^ 64) :
    (numbered first bodies).map (fun e => (e.1.toNat, e.2)) =
      (bodies.zipIdx first).filterMap fun e => (decoded e.1).map fun m => (e.2, m) := by
  rw [numbered, List.map_filterMap]
  refine List.filterMap_congr fun e he => ?_
  have hbounds := List.mem_zipIdx (i := e.2) (x := e.1) he
  rw [Option.map_map]
  refine congrArg (fun f => (decoded e.1).map f) (funext fun m => ?_)
  exact congrArg (·, m) (UInt64.toNat_ofNat_of_lt' (by change _ < 2 ^ 64; omega))

theorem exists_of_mem_numbered {first : Nat} {bodies : List (List UInt8)} {e : UInt64 × Message}
    (he : e ∈ numbered first bodies) :
    ∃ k, first ≤ k ∧ k < first + bodies.length ∧ e.1 = UInt64.ofNat k := by
  obtain ⟨⟨body, k⟩, hmem, hmap⟩ := List.mem_filterMap.mp he
  obtain ⟨message, -, rfl⟩ := Option.map_eq_some_iff.mp hmap
  have hbounds := List.mem_zipIdx hmem
  exact ⟨k, hbounds.1, by omega, rfl⟩

theorem nodup_numbered {first : Nat} {bodies : List (List UInt8)}
    (hlt : first + bodies.length ≤ 2 ^ 64) : ((numbered first bodies).map Prod.fst).Nodup := by
  induction bodies generalizing first with
  | nil => exact List.nodup_nil
  | cons body bodies ih =>
      rw [List.length_cons] at hlt
      rw [numbered_cons, List.map_append]
      cases decoded body with
      | none => exact ih (by omega)
      | some message =>
          refine List.nodup_cons.mpr ⟨fun hmem => ?_, ih (by omega)⟩
          obtain ⟨e, he, heq⟩ := List.mem_map.mp hmem
          obtain ⟨k, hle, hk, hek⟩ := exists_of_mem_numbered he
          have htoNat := congrArg UInt64.toNat (heq.symm.trans hek)
          dsimp only at htoNat
          rw [UInt64.toNat_ofNat_of_lt' (by change _ < 2 ^ 64; omega),
            UInt64.toNat_ofNat_of_lt' (by change _ < 2 ^ 64; omega)] at htoNat
          omega

/-! ### Receiving a run -/

/-- The number of bodies that are whole in the first `n` bytes of a run. -/
def wholeBodies (bodies : List (List UInt8)) (n : Nat) : Nat :=
  (frames ((encodeAll bodies).take n)).length

theorem wholeBodies_cons {body : List UInt8} (hbody : Body body) (bodies : List (List UInt8))
    (n : Nat) :
    wholeBodies (body :: bodies) n =
      if (encode body).length ≤ n then
        wholeBodies bodies (n - (encode body).length) + 1
      else 0 := by
  unfold wholeBodies
  rw [encodeAll_cons, List.take_append]
  split_ifs with hwhole
  · rw [List.take_of_length_le hwhole, frames_encode_append hbody, List.length_cons]
  · rw [Nat.sub_eq_zero_of_le (by omega), List.take_zero, List.append_nil,
      frames_of_next_eq_none (next_take_encode hbody (by omega)), List.length_nil]

theorem wholeBodies_of_le {bodies : List (List UInt8)} (hbodies : ∀ body ∈ bodies, Body body)
    {n : Nat} (hn : (encodeAll bodies).length ≤ n) : wholeBodies bodies n = bodies.length := by
  have hframes := frames_encodeAll hbodies (rfl : next [] = none)
  rw [List.append_nil] at hframes
  rw [wholeBodies, List.take_of_length_le hn, hframes]

theorem wholeBodies_le {bodies : List (List UInt8)} (hbodies : ∀ body ∈ bodies, Body body)
    (n : Nat) : wholeBodies bodies n ≤ bodies.length := by
  induction bodies generalizing n with
  | nil => simp [wholeBodies, encodeAll, frames_of_next_eq_none (rfl : next [] = none)]
  | cons body bodies ih =>
      rw [wholeBodies_cons (hbodies body List.mem_cons_self)]
      split_ifs
      · exact Nat.succ_le_succ (ih (fun body' h => hbodies body' (List.mem_cons_of_mem _ h)) _)
      · exact Nat.zero_le _

/-- A cut run is read up to the first body that is not whole. -/
theorem blocksFrom_take {bodies : List (List UInt8)} (hbodies : ∀ body ∈ bodies, Body body) :
    ∀ (pre : List UInt8) (n first : Nat),
      blocksFrom (pre ++ (encodeAll bodies).take n) bodies.length pre.length (UInt64.ofNat first) =
        some (UInt64.ofNat (first + wholeBodies bodies n),
          numbered first (bodies.take (wholeBodies bodies n))) := by
  induction bodies with
  | nil =>
      intro pre n first
      have hzero : wholeBodies [] n = 0 := Nat.le_zero.mp (wholeBodies_le (by simp) n)
      rw [hzero]
      rfl
  | cons body bodies ih =>
      intro pre n first
      have hbody := hbodies body List.mem_cons_self
      have hlength : (encode body).length = body.length + 2 := length_encode body
      rw [wholeBodies_cons hbody, encodeAll_cons, List.take_append, List.length_cons, blocksFrom]
      by_cases hwhole : (encode body).length ≤ n
      · rw [if_pos hwhole, List.take_of_length_le hwhole]
        have hblocks := ih (fun body' h => hbodies body' (List.mem_cons_of_mem _ h))
          (pre ++ encode body) (n - (encode body).length) (first + 1)
        have hoff : pre.length + (body.length + 2) = pre.length + 2 + body.length := by omega
        rw [List.append_assoc, List.length_append, hlength, hoff, UInt64.ofNat_add] at hblocks
        rw [hlength]
        have hfits : pre.length + 2 + body.length ≤
            (pre ++ (encode body ++ (encodeAll bodies).take (n - (body.length + 2)))).length := by
          simp only [List.length_append, length_encode]
          omega
        rw [if_neg (by omega), lengthAt_encode hbody]
        simp only [Option.bind_eq_bind, Option.bind_some, if_neg (not_lt.mpr hfits), slice_encode,
          decode_eq_some]
        change (blocksFrom _ _ _ (UInt64.ofNat first + UInt64.ofNat 1)).bind _ = _
        rw [hblocks, List.take_succ_cons, numbered_cons, Option.bind_some, Nat.add_assoc,
          Nat.add_comm 1]
      · rw [if_neg hwhole, Nat.sub_eq_zero_of_le (by omega), List.take_zero, List.append_nil]
        change _ = some (UInt64.ofNat first, [])
        -- fewer bytes than the body has: too few for its length word, or for what that announces
        by_cases hshort : n < 2
        · exact if_pos (by rw [List.length_append, List.length_take]; omega)
        · obtain ⟨n, rfl⟩ : ∃ m, n = m + 2 := ⟨n - 2, by omega⟩
          rw [if_neg (by rw [List.length_append, List.length_take]; omega), encode,
            List.take_succ_cons, List.take_succ_cons, lengthAt_append, lengthWord_ofNat hbody.2]
          refine if_pos ?_
          simp only [List.length_append, List.length_cons, List.length_take]
          omega

theorem encodeMoldPacket_take (session : List UInt8) (seq : UInt64) (count : UInt16)
    (blocks : List UInt8) {n : Nat} (hn : 20 ≤ n) :
    (encodeMoldPacket session seq count blocks).take n =
      encodeMoldPacket session seq count (blocks.take (n - 20)) := by
  obtain ⟨header, hlength, hpacket⟩ : ∃ header : List UInt8, header.length = 20 ∧
      ∀ blocks, encodeMoldPacket session seq count blocks = header ++ blocks :=
    ⟨_, by simp [sessionField], fun _ => rfl⟩
  rw [hpacket, hpacket, List.take_append, List.take_of_length_le (hlength.trans_le hn), hlength]

/-- Receiving what is left of a datagram after at least its header. -/
theorem MoldSession.receive_take (s : MoldSession) (session : List UInt8) (first : Nat)
    {bodies : List (List UInt8)} (hbodies : ∀ body ∈ bodies, Body body)
    (hcount : bodies.length ≤ 65534) {n : Nat} (hn : 20 ≤ n) :
    s.receive ((packet session first bodies).take n) =
      ({ s with
          packets := s.packets + 1
          gaps := if s.started = true ∧ s.expected < UInt64.ofNat first then
            s.gaps + (UInt64.ofNat first - s.expected) else s.gaps
          started := true
          messages := s.messages + UInt64.ofNat
            (numbered first (bodies.take (wholeBodies bodies (n - 20)))).length
          expected := UInt64.ofNat (first + wholeBodies bodies (n - 20)) },
        numbered first (bodies.take (wholeBodies bodies (n - 20)))) := by
  have htoNat : (UInt16.ofNat bodies.length).toNat = bodies.length :=
    UInt16.toNat_ofNat_of_lt' (by change _ < 2 ^ 16; omega)
  have hdata : UInt16.ofNat bodies.length ≠ kMoldEndOfSession := by
    intro heq
    rw [heq] at htoNat
    change 65535 = bodies.length at htoNat
    omega
  have hcut : (packet session first bodies).take n = encodeMoldPacket session (UInt64.ofNat first)
      (UInt16.ofNat bodies.length) ((encodeAll bodies).take (n - 20)) :=
    encodeMoldPacket_take session _ _ _ hn
  have hheader : ∃ header : List UInt8, header.length = 20 ∧
      (packet session first bodies).take n = header ++ (encodeAll bodies).take (n - 20) := by
    refine ⟨_, ?_, hcut⟩
    simp [sessionField]
  obtain ⟨header, hlength, hpacket⟩ := hheader
  have hblocks := blocksFrom_take hbodies header (n - 20) first
  rw [← hpacket, hlength] at hblocks
  unfold receive onPacket
  rw [hcut, parseMoldHeader_encode, ← hcut]
  change Option.getD (if UInt16.ofNat bodies.length = kMoldEndOfSession then _ else _) _ = _
  rw [if_neg hdata, htoNat]
  change Option.getD (Option.bind (blocksFrom ((packet session first bodies).take n) _ _ _) _) _ = _
  rw [hblocks]
  simp only [Option.bind_some, Option.getD_some, Bool.and_eq_true, decide_eq_true_eq]

theorem MoldSession.receive_packet (s : MoldSession) (session : List UInt8) (first : Nat)
    {bodies : List (List UInt8)} (hbodies : ∀ body ∈ bodies, Body body)
    (hcount : bodies.length ≤ 65534) :
    s.receive (packet session first bodies) =
      ({ s with
          packets := s.packets + 1
          gaps := if s.started = true ∧ s.expected < UInt64.ofNat first then
            s.gaps + (UInt64.ofNat first - s.expected) else s.gaps
          started := true
          messages := s.messages + UInt64.ofNat (numbered first bodies).length
          expected := UInt64.ofNat (first + bodies.length) }, numbered first bodies) := by
  have hlength : (packet session first bodies).length = 20 + (encodeAll bodies).length := by
    simp [packet, encodeMoldPacket, sessionField]
    omega
  have hwhole : wholeBodies bodies ((packet session first bodies).length - 20) = bodies.length :=
    wholeBodies_of_le hbodies (by omega)
  have hreceive := s.receive_take session first hbodies hcount
    (n := (packet session first bodies).length) (by omega)
  rwa [hwhole, List.take_length, List.take_length] at hreceive

/-! ### Cutting a stream into runs -/

theorem blockRun_encodeAll {rest : List UInt8} (hrest : next rest = none) (room : Nat) :
    ∀ {bodies : List (List UInt8)}, (∀ body ∈ bodies, Body body) → ∀ pre : List UInt8,
      blockRun (pre ++ (encodeAll bodies ++ rest)) room pre.length =
        some (pre.length + (encodeAll (bodies.take room)).length, (bodies.take room).length) := by
  induction room with
  | zero => exact fun _ _ => rfl
  | succ room ih =>
      intro bodies hbodies pre
      cases bodies with
      | nil =>
          change blockRun (pre ++ rest) (room + 1) pre.length = some (pre.length, 0)
          unfold blockRun
          rcases residue_cases pre hrest with hshort | ⟨n, hlength, hstop⟩
          · rw [if_neg (by omega)]
          · split_ifs
            · rw [hlength]
              exact if_pos hstop
            · rfl
      | cons body bodies =>
          have hbody := hbodies body List.mem_cons_self
          have hrun := ih (fun body' h => hbodies body' (List.mem_cons_of_mem _ h))
            (pre ++ encode body)
          have hoff : pre.length + (body.length + 2) = pre.length + 2 + body.length := by omega
          rw [List.append_assoc, List.length_append, length_encode, hoff] at hrun
          have hpos : body.length ≠ 0 := fun hzero => hbody.1 (List.length_eq_zero_iff.mp hzero)
          have hfits := le_length_append_encode body pre (encodeAll bodies ++ rest)
          rw [encodeAll_cons, List.append_assoc, blockRun, if_pos (by omega), lengthAt_encode hbody]
          simp only [Option.bind_eq_bind, Option.bind_some]
          rw [if_neg (by omega), hrun, Option.bind_some, List.take_succ_cons, encodeAll_cons,
            List.length_append, length_encode, List.length_cons, ← Nat.add_assoc, hoff]

theorem packetsFrom_run {session rest : List UInt8} {msgsPerPacket : UInt16} {fuel first : Nat}
    {run tail : List (List UInt8)} {pre : List UInt8} {later : List (List UInt8)}
    (hrest : next rest = none) (hbodies : ∀ body ∈ run ++ tail, Body body) (hne : run ≠ [])
    (hrun : (run ++ tail).take msgsPerPacket.toNat = run)
    (hlater : packetsFrom session ((pre ++ encodeAll run) ++ (encodeAll tail ++ rest))
      msgsPerPacket fuel (pre ++ encodeAll run).length (UInt64.ofNat (first + run.length)) =
        some later) :
    packetsFrom session (pre ++ (encodeAll (run ++ tail) ++ rest)) msgsPerPacket (fuel + 1)
      pre.length (UInt64.ofNat first) = some (packet session first run :: later) := by
  have hblocks := blockRun_encodeAll hrest msgsPerPacket.toNat hbodies pre
  rw [hrun] at hblocks
  have hstream : pre ++ (encodeAll (run ++ tail) ++ rest) =
      (pre ++ encodeAll run) ++ (encodeAll tail ++ rest) := by
    rw [encodeAll_append, List.append_assoc, List.append_assoc]
  have hcount : run.length ≠ 0 := fun hzero => hne (List.length_eq_zero_iff.mp hzero)
  have hlt : pre.length < (pre ++ (encodeAll (run ++ tail) ++ rest)).length := by
    have := length_le_encodeAll run
    rw [hstream, List.length_append, List.length_append]
    omega
  have hslice : slice (pre ++ (encodeAll (run ++ tail) ++ rest)) pre.length
      (encodeAll run).length = some (encodeAll run) := by
    have hle : pre.length + (encodeAll run).length ≤
        (pre ++ (encodeAll (run ++ tail) ++ rest)).length := by
      rw [hstream, List.length_append, List.length_append]
      omega
    rw [slice, if_pos hle, List.drop_left, encodeAll_append, List.append_assoc, List.take_left]
  rw [← hstream, List.length_append, UInt64.ofNat_add] at hlater
  unfold packetsFrom
  rw [if_pos hlt, hblocks]
  simp only [Option.bind_eq_bind, Option.bind_some]
  rw [if_neg hcount, Nat.add_sub_cancel_left, hslice, Option.bind_some, hlater]
  rfl

/-- The stream is cut into runs of at most `msgsPerPacket` bodies, and nothing is left out. -/
theorem packetsFrom_encodeAll {session rest : List UInt8} {msgsPerPacket : UInt16}
    (hrest : next rest = none) (hpos : 1 ≤ msgsPerPacket.toNat) (fuel : Nat) :
    ∀ {bodies : List (List UInt8)}, (∀ body ∈ bodies, Body body) → bodies.length < fuel →
      ∀ (pre : List UInt8) (first : Nat), ∃ runs : List (List (List UInt8)),
        runs.flatten = bodies ∧
        (∀ run ∈ runs, run ≠ [] ∧ run.length ≤ msgsPerPacket.toNat) ∧
        (∀ i run, runs[i]? = some run →
          run = (bodies.drop (i * msgsPerPacket.toNat)).take msgsPerPacket.toNat) ∧
        packetsFrom session (pre ++ (encodeAll bodies ++ rest)) msgsPerPacket fuel pre.length
          (UInt64.ofNat first) = some (packets session first runs) := by
  induction fuel with
  | zero => exact fun _ hfuel => absurd hfuel (Nat.not_lt_zero _)
  | succ fuel ih =>
      intro bodies hbodies hfuel pre first
      set run := bodies.take msgsPerPacket.toNat with hrun
      by_cases hempty : bodies = []
      · refine ⟨[], by simp [hempty], by simp, by simp, ?_⟩
        have hblocks := blockRun_encodeAll hrest msgsPerPacket.toNat hbodies pre
        have hzero : run = [] := by rw [hrun, hempty, List.take_nil]
        unfold packetsFrom
        rw [hblocks, ← hrun, hzero]
        split_ifs <;> rfl
      · have hlength : 0 < bodies.length := List.length_pos_of_ne_nil hempty
        have hne : run ≠ [] := by
          rw [hrun, Ne, List.take_eq_nil_iff, not_or]
          exact ⟨by omega, hempty⟩
        set tail := bodies.drop msgsPerPacket.toNat with htail
        have hsplit : run ++ tail = bodies := List.take_append_drop _ _
        have hshorter : tail.length < fuel := by
          rw [htail, List.length_drop]
          omega
        obtain ⟨runs, hflatten, hruns, hcut, hpackets⟩ :=
          ih (fun body h => hbodies body (List.mem_of_mem_drop h)) hshorter
            (pre ++ encodeAll run) (first + run.length)
        refine ⟨run :: runs, ?_, ?_, ?_, ?_⟩
        · rw [List.flatten_cons, hflatten, hsplit]
        · intro run' hmem
          rcases List.mem_cons.mp hmem with rfl | hmem
          · refine ⟨hne, ?_⟩
            rw [hrun, List.length_take]
            exact Nat.min_le_left _ _
          · exact hruns run' hmem
        · intro i run' hget
          cases i with
          | zero =>
              obtain rfl : run = run' := by simpa using hget
              rw [Nat.zero_mul, List.drop_zero]
          | succ i =>
              rw [hcut i run' (by simpa using hget), List.drop_drop, Nat.succ_mul, Nat.add_comm]
        · have hround := packetsFrom_run hrest (by rwa [hsplit]) hne (by rw [hsplit]) hpackets
          rwa [hsplit] at hround

theorem packetizeMold_spec (session buf : List UInt8) {msgsPerPacket : UInt16}
    (hpos : 1 ≤ msgsPerPacket.toNat) :
    ∃ runs : List (List (List UInt8)), runs.flatten = frames buf ∧
      (∀ run ∈ runs, run ≠ [] ∧ run.length ≤ msgsPerPacket.toNat) ∧
      (∀ i run, runs[i]? = some run →
        run = ((frames buf).drop (i * msgsPerPacket.toNat)).take msgsPerPacket.toNat) ∧
      packetizeMold session buf msgsPerPacket = some (packets session 1 runs) := by
  obtain ⟨bodies, rest, hbodies, hrest, rfl⟩ := exists_records buf
  have hlength := length_le_encodeAll bodies
  rw [frames_encodeAll hbodies hrest]
  exact packetsFrom_encodeAll hrest hpos _ hbodies (by rw [List.length_append]; omega) [] 1

end HftOrderbook
