import HftOrderbook.Proof.MoldLoss

/-!
# The end of a session

The count of a datagram and the marker for the end of a session share one field, and the session
leaves `on_packet` at the marker before it looks at the sequence number. So a full datagram of 65535
messages is taken for the end, and what is missing when the end comes is never counted.
-/

namespace HftOrderbook

open LengthPrefix

theorem MoldSession.receive_end (s : MoldSession) {buf : List UInt8} {header : MoldHeader}
    (hheader : parseMoldHeader buf = some (some header))
    (hcount : header.count = kMoldEndOfSession) :
    s.receive buf = ({ s with packets := s.packets + 1, ended := true }, []) := by
  unfold receive onPacket
  rw [hheader]
  change Option.getD (if header.count = kMoldEndOfSession then _ else _) _ = _
  rw [if_pos hcount]
  rfl

theorem frames_drop_packet (session : List UInt8) (first : Nat) {bodies : List (List UInt8)}
    (hbodies : ∀ body ∈ bodies, Body body) :
    frames ((packet session first bodies).drop 20) = bodies := by
  have hdrop : (packet session first bodies).drop 20 = encodeAll bodies ++ [] := by
    rw [packet, encodeMoldPacket, List.append_nil]
    exact List.drop_left' (by simp [sessionField])
  rw [hdrop, frames_encodeAll hbodies rfl]

/-! ### Data taken for the end -/

/-- Every datagram is read as data, and every record of the stream is read in one of them. -/
structure ReadAsData (buf : List UInt8) (datagrams : List (List UInt8)) : Prop where
  ended : ∀ d ∈ datagrams, ∀ (s s' : MoldSession) sunk, s.onPacket d = some (s', sunk) →
    s'.ended = s.ended
  carried : ∀ k body, (frames buf)[k]? = some body → ∃ d ∈ datagrams, ∃ first j,
    (frames (d.drop 20))[j]? = some body ∧ first + j = k + 1 ∧
      ∀ s : MoldSession, ∃ s', s.onPacket d = some (s', numbered first (frames (d.drop 20))) ∧
        s'.expected = UInt64.ofNat (first + (frames (d.drop 20)).length)

theorem exists_run_of_getElem? {runs : List (List (List UInt8))} {k : Nat} {body : List UInt8}
    (h : runs.flatten[k]? = some body) :
    ∃ i run j, runs[i]? = some run ∧ run[j]? = some body ∧
      (runs.take i).flatten.length + j = k := by
  induction runs generalizing k with
  | nil => cases h
  | cons run runs ih =>
      rw [List.flatten_cons] at h
      by_cases hk : k < run.length
      · rw [List.getElem?_append_left hk] at h
        exact ⟨0, run, k, rfl, h, Nat.zero_add k⟩
      · rw [List.getElem?_append_right (not_lt.mp hk)] at h
        obtain ⟨i, run', j, hrun, hbody, hindex⟩ := ih h
        refine ⟨i + 1, run', j, hrun, hbody, ?_⟩
        rw [List.take_succ_cons, List.flatten_cons, List.length_append]
        omega

theorem body_of_mem_frames {buf body : List UInt8} (h : body ∈ frames buf) : Body body := by
  obtain ⟨bodies, rest, hbodies, hrest, rfl⟩ := exists_records buf
  rw [frames_encodeAll hbodies hrest] at h
  exact hbodies body h

section Runs

variable {session buf : List UInt8} {runs : List (List (List UInt8))}
  (hflatten : runs.flatten = frames buf)

include hflatten

theorem body_of_mem_run {run : List (List UInt8)} (hrun : run ∈ runs) :
    ∀ body ∈ run, Body body := fun _ hbody =>
  body_of_mem_frames (hflatten ▸ List.mem_flatten.mpr ⟨run, hrun, hbody⟩)

theorem readAsData_of_length_le (hlength : ∀ run ∈ runs, run.length ≤ 65534) :
    ReadAsData buf (packets session 1 runs) := by
  have hreceive : ∀ (s : MoldSession) (first : Nat) (run), run ∈ runs → _ := fun s first run hrun =>
    s.receive_packet session first (body_of_mem_run hflatten hrun) (hlength run hrun)
  constructor
  · intro d hd s s' sunk hpacket
    obtain ⟨i, hi⟩ := List.mem_iff_getElem?.mp hd
    rw [packets_getElem?, Option.map_eq_some_iff] at hi
    obtain ⟨run, hrun, rfl⟩ := hi
    rw [MoldSession.onPacket_eq_some, hreceive _ _ _ (List.mem_of_getElem? hrun)] at hpacket
    exact congrArg (fun r => r.1.ended) (Option.some.inj hpacket).symm
  · intro k body hbody
    rw [← hflatten] at hbody
    obtain ⟨i, run, j, hrun, hj, hindex⟩ := exists_run_of_getElem? hbody
    have hmem := List.mem_of_getElem? hrun
    have hpacket : (packets session 1 runs)[i]? =
        some (packet session (1 + (runs.take i).flatten.length) run) := by
      rw [packets_getElem?, hrun]
      rfl
    refine ⟨_, List.mem_of_getElem? hpacket, 1 + (runs.take i).flatten.length, j, ?_, by omega, ?_⟩
    · rwa [frames_drop_packet session _ (body_of_mem_run hflatten hmem)]
    · intro s
      rw [frames_drop_packet session _ (body_of_mem_run hflatten hmem),
        MoldSession.onPacket_eq_some, hreceive _ _ _ hmem]
      exact ⟨_, rfl, rfl⟩

/-- A first datagram with 65535 messages ends the session. -/
theorem not_readAsData_of_full {n : Nat} (hn : n = 65535) (hlength : n ≤ (frames buf).length)
    (hcut : ∀ i run, runs[i]? = some run → run = ((frames buf).drop (i * n)).take n) :
    ¬ ReadAsData buf (packets session 1 runs) := by
  intro hread
  cases runs with
  | nil =>
      rw [← hflatten] at hlength
      exact absurd (hn.symm.trans_le hlength) (by decide)
  | cons run rest =>
      have hrun : run.length = 65535 := by
        rw [hcut 0 run rfl, List.length_take, Nat.zero_mul, List.drop_zero]
        omega
      have hheader := parseMoldHeader_encode session (UInt64.ofNat 1) (UInt16.ofNat run.length)
        (encodeAll run)
      have hend := ({} : MoldSession).receive_end hheader (by rw [hrun]; rfl)
      have hpacket := (MoldSession.onPacket_eq_some {} (packet session 1 run)).trans
        (congrArg some hend)
      cases hread.ended _ List.mem_cons_self {} _ _ hpacket

end Runs

/-- The datagrams of a stream are read as data exactly when none of them is filled with 65535
messages. -/
theorem readAsData_iff (session buf : List UInt8) (msgsPerPacket : UInt16)
    (hpos : 1 ≤ msgsPerPacket.toNat) (datagrams : List (List UInt8))
    (hdatagrams : packetizeMold session buf msgsPerPacket = some datagrams) :
    ReadAsData buf datagrams ↔ msgsPerPacket.toNat < 65535 ∨ (frames buf).length < 65535 := by
  obtain ⟨runs, hflatten, hruns, hcut, hpackets⟩ := packetizeMold_spec session buf hpos
  obtain rfl := Option.some.inj (hpackets.symm.trans hdatagrams)
  have hmax : msgsPerPacket.toNat < 2 ^ 16 := msgsPerPacket.toNat_lt
  constructor
  · intro hread
    by_contra hfull
    rw [not_or, not_lt, not_lt] at hfull
    exact not_readAsData_of_full hflatten (by omega) (by omega) hcut hread
  · intro hsmall
    refine readAsData_of_length_le hflatten fun run hrun => ?_
    have hle := (hruns run hrun).2
    have hshort : run.length ≤ (frames buf).length :=
      hflatten ▸ (List.sublist_flatten_of_mem hrun).length_le
    omega

theorem readAsData_iff_eventsAround :
    ∃ datagrams, packetizeMold [0x48] eventsAround 65535 = some datagrams ∧
      ReadAsData eventsAround datagrams := by
  obtain ⟨runs, -, -, -, hpackets⟩ := packetizeMold_spec [0x48] eventsAround
    (by decide : 1 ≤ (65535 : UInt16).toNat)
  refine ⟨_, hpackets, (readAsData_iff [0x48] eventsAround 65535 (by decide) _ hpackets).mpr ?_⟩
  rw [frames_eventsAround]
  exact Or.inr (by decide)

/-- As many system events as fit in one datagram. -/
def eventBurst : List (List UInt8) :=
  List.replicate 65535 [0x53, 0, 0, 0, 0, 0, 0, 0, 0, 0, 0, 0x4F]

theorem eventBurst_not_readAsData :
    ∃ datagrams, packetizeMold [0x48] (encodeAll eventBurst) 65535 = some datagrams ∧
      ¬ ReadAsData (encodeAll eventBurst) datagrams := by
  obtain ⟨runs, hflatten, -, hcut, hpackets⟩ := packetizeMold_spec [0x48] (encodeAll eventBurst)
    (by decide : 1 ≤ (65535 : UInt16).toNat)
  refine ⟨_, hpackets, ?_⟩
  have hbody : ∀ body ∈ eventBurst, Body body := by
    intro body hmem
    rw [List.eq_of_mem_replicate hmem]
    exact ⟨by decide, by decide⟩
  have hframes : (frames (encodeAll eventBurst)).length = 65535 := by
    rw [← List.append_nil (encodeAll eventBurst), frames_encodeAll hbody rfl, eventBurst,
      List.length_replicate]
  exact not_readAsData_of_full hflatten rfl hframes.ge hcut

/-! ### Losses before the end -/

def frameCount (datagrams : List (List UInt8)) : Nat :=
  (datagrams.map fun d => (frames (d.drop 20)).length).sum

/-- After datagrams that arrived in order, the end of session leaves no gap behind. -/
theorem receiveAll_end {runs : List (List (List UInt8))} (h : Carried runs) (session : List UInt8)
    {n : Nat} (hn : n ≤ runs.length) {eos : List UInt8} {header : MoldHeader}
    (hheader : parseMoldHeader eos = some (some header))
    (hcount : header.count = kMoldEndOfSession) :
    let state := ({} : MoldSession).receiveAll ((List.range n).map (packetAt session runs) ++ [eos])
    state.1.ended = true ∧ state.1.gaps = 0 := by
  have hpre : List.range n <+: List.range runs.length := by
    rw [List.prefix_iff_eq_take, List.length_range, List.take_range, min_eq_left hn]
  obtain ⟨k, hk⟩ := caughtUp_of_prefix session h (delivery_range runs.length)
    (silentDuplicates_range runs runs.length) _ hpre
  rw [MoldSession.receiveAll_concat, MoldSession.receive_end _ hheader hcount]
  exact ⟨rfl, hk.gaps⟩

theorem frameCount_drop_pos {runs : List (List (List UInt8))} (h : Carried runs)
    (session : List UInt8) {n : Nat} (hn : n < runs.length) :
    0 < frameCount (((List.range runs.length).map (packetAt session runs)).drop n) := by
  set datagrams := (List.range runs.length).map (packetAt session runs) with hdatagrams
  have hlt : n < datagrams.length := by rwa [hdatagrams, List.length_map, List.length_range]
  have hmem := getD_mem hn
  have hframes : frames (datagrams[n].drop 20) = runs.getD n [] := by
    simp only [hdatagrams, List.getElem_map, List.getElem_range]
    exact frames_drop_packet session _ (h.bodies _ hmem)
  have hpos := List.length_pos_of_ne_nil (h.nonempty _ hmem)
  rw [List.drop_eq_getElem_cons hlt, frameCount, List.map_cons, List.sum_cons, hframes]
  omega

/-- After a prefix of the datagrams and an end of session, whatever its sequence number, the gap
count is the number of records in the datagrams that are missing exactly when none is missing. -/
theorem gaps_at_end_iff (session buf : List UInt8) (hlen : buf.length < 2 ^ 64)
    (msgsPerPacket : UInt16) (hpos : 1 ≤ msgsPerPacket.toNat)
    (hmax : msgsPerPacket.toNat ≤ 65534) (datagrams : List (List UInt8))
    (hdatagrams : packetizeMold session buf msgsPerPacket = some datagrams) (n : Nat)
    (hle : n ≤ datagrams.length) (eos : List UInt8) (header : MoldHeader)
    (hheader : parseMoldHeader eos = some (some header))
    (hcount : header.count = kMoldEndOfSession) :
    (∃ s sunk, ({} : MoldSession).feed (datagrams.take n ++ [eos]) = some (s, sunk) ∧
      s.ended = true ∧ s.gaps.toNat = frameCount (datagrams.drop n)) ↔ n = datagrams.length := by
  obtain ⟨runs, hcarried, -, -, hpackets⟩ := exists_carried session buf hlen hpos hmax
  obtain rfl := Option.some.inj (hpackets.symm.trans hdatagrams)
  rw [List.length_map, List.length_range] at hle ⊢
  have htake : ((List.range runs.length).map (packetAt session runs)).take n =
      (List.range n).map (packetAt session runs) := by
    rw [← List.map_take, List.take_range, min_eq_left hle]
  obtain ⟨hended, hgaps⟩ := receiveAll_end hcarried session hle hheader hcount
  have hfeed := MoldSession.feed_eq_some {} ((List.range n).map (packetAt session runs) ++ [eos])
  rw [htake]
  generalize ({} : MoldSession).receiveAll _ = state at hended hgaps hfeed
  constructor
  · rintro ⟨s, sunk, hfeed', -, hlost⟩
    obtain rfl := Option.some.inj (hfeed.symm.trans hfeed')
    rw [hgaps] at hlost
    by_contra hne
    exact (frameCount_drop_pos hcarried session (lt_of_le_of_ne hle hne)).ne hlost
  · rintro rfl
    refine ⟨state.1, state.2, hfeed, hended, ?_⟩
    rw [hgaps, List.drop_eq_nil_of_le (by simp)]
    rfl

theorem gaps_at_end_iff_eventsAround :
    ∃ datagrams s sunk, packetizeMold [0x48] eventsAround 1 = some datagrams ∧
      ({} : MoldSession).feed (datagrams.take 3 ++
        [encodeMoldPacket [0x48] 4 kMoldEndOfSession []]) = some (s, sunk) ∧
      s.ended = true ∧ s.gaps.toNat = frameCount (datagrams.drop 3) := by
  obtain ⟨s, sunk, hend⟩ := (gaps_at_end_iff [0x48] eventsAround (by decide) 1 (by decide)
    (by decide) _ rfl 3 (by decide) (encodeMoldPacket [0x48] 4 kMoldEndOfSession []) _
    (parseMoldHeader_encode [0x48] 4 kMoldEndOfSession []) rfl).mpr rfl
  exact ⟨_, s, sunk, rfl, hend⟩

/-- The first of three datagrams arrives, and the end of the session with the number four behind it:
two records are lost and none is counted. -/
theorem eventsAround_lost_at_end :
    ∃ datagrams s sunk, packetizeMold [0x48] eventsAround 1 = some datagrams ∧
      ({} : MoldSession).feed (datagrams.take 1 ++
        [encodeMoldPacket [0x48] 4 kMoldEndOfSession []]) = some (s, sunk) ∧
      (frames eventsAround).length + 1 = 4 ∧ frameCount (datagrams.drop 1) = 2 ∧
      s.gaps.toNat = 0 := by
  refine ⟨_, _, _, rfl, rfl, ?_, ?_, rfl⟩
  · rw [frames_eventsAround]
    rfl
  · change ((frames ((packet [0x48] 2 [[0x5A]]).drop 20)).length +
      ((frames ((packet [0x48] 3 [[0x53, 0, 0, 0, 0, 0, 0, 0, 0, 0, 0, 0x43]]).drop 20)).length +
        0) : Nat) = 2
    rw [frames_drop_packet, frames_drop_packet]
    · rfl
    · unfold Body
      decide
    · unfold Body
      decide

end HftOrderbook
