import HftOrderbook.Proof.MoldPackets
import HftOrderbook.Library.Histories

/-!
# Deliveries of a packetized stream

The datagrams of a stream arrive in some order, some of them more than once. What the session makes
of an arrival depends on the datagram and, for the gap count, on the arrival before it, whose end
the session takes for the next number to expect.
-/

namespace HftOrderbook

open LengthPrefix

def firstSeq (runs : List (List (List UInt8))) (i : Nat) : Nat := 1 + (runs.take i).flatten.length

def packetAt (session : List UInt8) (runs : List (List (List UInt8))) (i : Nat) : List UInt8 :=
  packet session (firstSeq runs i) (runs.getD i [])

def sinkOf (runs : List (List (List UInt8))) (i : Nat) : List (UInt64 × Message) :=
  numbered (firstSeq runs i) (runs.getD i [])

structure Carried (runs : List (List (List UInt8))) : Prop where
  bodies : ∀ run ∈ runs, ∀ body ∈ run, Body body
  nonempty : ∀ run ∈ runs, run ≠ []
  length_le : ∀ run ∈ runs, run.length ≤ 65534
  flatten_lt : 1 + runs.flatten.length < 2 ^ 64

section Runs

variable {session : List UInt8} {runs : List (List (List UInt8))}

theorem take_succ_flatten (runs : List (List (List UInt8))) (i : Nat) :
    (runs.take (i + 1)).flatten = (runs.take i).flatten ++ runs.getD i [] := by
  rw [List.take_add_one, List.flatten_append, List.getD_eq_getElem?_getD]
  cases runs[i]? <;> simp

theorem firstSeq_succ (runs : List (List (List UInt8))) (i : Nat) :
    firstSeq runs (i + 1) = firstSeq runs i + (runs.getD i []).length := by
  rw [firstSeq, firstSeq, take_succ_flatten, List.length_append, Nat.add_assoc]

theorem firstSeq_mono (runs : List (List (List UInt8))) : Monotone (firstSeq runs) :=
  monotone_nat_of_le_succ fun i => by
    rw [firstSeq_succ]
    exact Nat.le_add_right _ _

theorem getD_mem {i : Nat} (hi : i < runs.length) : runs.getD i [] ∈ runs := by
  rw [List.getD_eq_getElem?_getD, List.getElem?_eq_getElem hi]
  exact List.getElem_mem hi

theorem Carried.firstSeq_lt_succ (h : Carried runs) {i : Nat} (hi : i < runs.length) :
    firstSeq runs i < firstSeq runs (i + 1) := by
  have hpos := List.length_pos_of_ne_nil (h.nonempty _ (getD_mem hi))
  rw [firstSeq_succ]
  omega

theorem Carried.lt_firstSeq (h : Carried runs) {i : Nat} (hi : i ≤ runs.length) :
    i < firstSeq runs i := by
  induction i with
  | zero => exact Nat.lt_add_right _ Nat.one_pos
  | succ i ih =>
      have hlt := h.firstSeq_lt_succ (i := i) (by omega)
      have := ih (by omega)
      omega

theorem Carried.firstSeq_lt (h : Carried runs) (i : Nat) : firstSeq runs i < 2 ^ 64 := by
  have hle : (runs.take i).flatten.length ≤ runs.flatten.length :=
    (List.take_sublist i runs).flatten.length_le
  have hlt := h.flatten_lt
  unfold firstSeq
  omega

theorem Carried.toNat_firstSeq (h : Carried runs) (i : Nat) :
    (UInt64.ofNat (firstSeq runs i)).toNat = firstSeq runs i :=
  UInt64.toNat_ofNat_of_lt' (h.firstSeq_lt i)

theorem packets_getElem? (session : List UInt8) (runs : List (List (List UInt8))) :
    ∀ first i : Nat, (packets session first runs)[i]? =
      (runs[i]?).map fun run => packet session (first + (runs.take i).flatten.length) run := by
  induction runs with
  | nil => exact fun _ _ => rfl
  | cons run runs ih =>
      intro first i
      cases i with
      | zero => rfl
      | succ i =>
          rw [packets, List.getElem?_cons_succ, ih, List.getElem?_cons_succ, List.take_succ_cons,
            List.flatten_cons, List.length_append, Nat.add_assoc]

theorem packets_eq_map (session : List UInt8) (runs : List (List (List UInt8))) :
    packets session 1 runs = (List.range runs.length).map (packetAt session runs) := by
  refine List.ext_getElem? fun i => ?_
  rw [packets_getElem?, List.getElem?_map]
  by_cases hi : i < runs.length
  · rw [List.getElem?_range hi, List.getElem?_eq_getElem hi]
    simp only [Option.map_some, packetAt, firstSeq, List.getD_eq_getElem?_getD,
      List.getElem?_eq_getElem hi, Option.getD_some]
  · rw [List.getElem?_eq_none (by omega), List.getElem?_eq_none (by simpa using hi)]
    rfl

/-! ### What holds of every delivery -/

/-- The part of the session that does not depend on the order of arrival, and the next number to
expect, which depends on the last arrival only. -/
structure Arrived (runs : List (List (List UInt8))) (order : List Nat)
    (state : MoldSession × List (UInt64 × Message)) : Prop where
  sunk : state.2 = order.flatMap (sinkOf runs)
  packets : state.1.packets = UInt64.ofNat order.length
  messages : state.1.messages = UInt64.ofNat state.2.length
  ended : state.1.ended = false
  fresh : order = [] → state.1 = {}
  expected : ∀ a, order.getLast? = some a →
    state.1.started = true ∧ state.1.expected = UInt64.ofNat (firstSeq runs (a + 1))

theorem arrived_receiveAll (session : List UInt8) (h : Carried runs) (order : List Nat)
    (horder : ∀ i ∈ order, i < runs.length) :
    Arrived runs order (({} : MoldSession).receiveAll (order.map (packetAt session runs))) := by
  induction order using List.reverseRecOn with
  | nil => exact ⟨rfl, rfl, rfl, rfl, fun _ => rfl, fun a ha => by cases ha⟩
  | append_singleton order i ih =>
      have hold := ih fun j hj => horder j (List.mem_append_left _ hj)
      have hmem := getD_mem (horder i (by simp))
      rw [List.map_append, List.map_singleton, MoldSession.receiveAll_concat]
      generalize ({} : MoldSession).receiveAll (order.map (packetAt session runs)) = state at hold ⊢
      rw [packetAt, MoldSession.receive_packet _ session _ (h.bodies _ hmem) (h.length_le _ hmem)]
      refine ⟨?_, ?_, ?_, hold.ended, fun hnil => by simp at hnil, fun a ha => ?_⟩
      · rw [List.flatMap_append, hold.sunk]
        simp [sinkOf]
      · change state.1.packets + 1 = _
        rw [hold.packets, List.length_append]
        exact (UInt64.ofNat_add _ _).symm
      · change state.1.messages + _ = _
        rw [hold.messages, List.length_append]
        exact (UInt64.ofNat_add _ _).symm
      · obtain rfl : i = a := by simpa using ha
        exact ⟨rfl, by rw [firstSeq_succ]⟩

/-- An arrival that starts no later than the last one ended is not taken for a gap. -/
theorem gaps_concat (session : List UInt8) (h : Carried runs) {order : List Nat} {i : Nat}
    (horder : ∀ j ∈ order ++ [i], j < runs.length)
    (hnext : ∀ a, order.getLast? = some a → i ≤ a + 1) :
    (({} : MoldSession).receiveAll ((order ++ [i]).map (packetAt session runs))).1.gaps =
      (({} : MoldSession).receiveAll (order.map (packetAt session runs))).1.gaps := by
  have harrived := arrived_receiveAll session h order
    fun j hj => horder j (List.mem_append_left _ hj)
  have hmem := getD_mem (horder i (by simp))
  rw [List.map_append, List.map_singleton, MoldSession.receiveAll_concat]
  generalize ({} : MoldSession).receiveAll (order.map (packetAt session runs)) = state at harrived ⊢
  rw [packetAt, MoldSession.receive_packet _ session _ (h.bodies _ hmem) (h.length_le _ hmem)]
  refine if_neg fun hgap => ?_
  cases hlast : order.getLast? with
  | none =>
      rw [harrived.fresh (List.getLast?_eq_none_iff.mp hlast)] at hgap
      exact absurd hgap.1 (by decide)
  | some a =>
      have hlt := hgap.2
      rw [(harrived.expected a hlast).2, UInt64.lt_iff_toNat_lt, h.toNat_firstSeq,
        h.toNat_firstSeq] at hlt
      exact absurd (firstSeq_mono runs (hnext a hlast)) (not_le.mpr hlt)

/-! ### Deliveries with harmless duplicates -/

/-- Every datagram arrives, and when one arrives the ones before it have arrived already. -/
structure Delivery (total : Nat) (order : List Nat) : Prop where
  mem_iff : ∀ i, i ∈ order ↔ i < total
  inOrder : ∀ pre i, pre ++ [i] <+: order → ∀ j, j < i → j ∈ pre

/-- A datagram only arrives again as the newest one and with no message that decodes. -/
def SilentDuplicates (runs : List (List (List UInt8))) (order : List Nat) : Prop :=
  ∀ pre i, pre ++ [i] <+: order → i ∈ pre →
    (∀ j ∈ pre, j ≤ i) ∧ ∀ body ∈ runs.getD i [], decoded body = none

/-- After a prefix of such a delivery the first `k` datagrams have arrived, the newest of them last,
and their messages have been delivered once. -/
structure CaughtUp (session : List UInt8) (runs : List (List (List UInt8))) (pre : List Nat)
    (k : Nat) : Prop where
  mem_iff : ∀ j, j ∈ pre ↔ j < k
  last : ∀ a, pre.getLast? = some a → a + 1 = k
  gaps : (({} : MoldSession).receiveAll (pre.map (packetAt session runs))).1.gaps = 0
  sunk : pre.flatMap (sinkOf runs) = numbered 1 (runs.take k).flatten

theorem caughtUp_of_prefix (session : List UInt8) (h : Carried runs) {order : List Nat}
    (hdelivery : Delivery runs.length order) (hsilent : SilentDuplicates runs order) :
    ∀ pre, pre <+: order → ∃ k, CaughtUp session runs pre k := by
  refine Histories.forall_prefix ⟨0, ?_⟩ ?_
  · exact ⟨by simp, by simp, rfl, by simp [numbered]⟩
  · rintro pre i hpre ⟨k, hk⟩
    have horder : ∀ j ∈ pre ++ [i], j < runs.length := fun j hj =>
      (hdelivery.mem_iff j).mp (hpre.subset hj)
    have hle : i ≤ k := by
      by_contra hlt
      exact lt_irrefl k ((hk.mem_iff k).mp (hdelivery.inOrder pre i hpre k (not_le.mp hlt)))
    have hgaps := gaps_concat session h horder fun a ha => (hk.last a ha).symm ▸ hle
    rw [hk.gaps] at hgaps
    rcases Nat.lt_or_eq_of_le hle with hlt | rfl
    · -- a duplicate: it is the newest datagram, and it has nothing for the sink
      have hmem := (hk.mem_iff i).mpr hlt
      obtain ⟨hnewest, hnone⟩ := hsilent pre i hpre hmem
      have hpred : k - 1 ≤ i := hnewest (k - 1) ((hk.mem_iff _).mpr (by omega))
      have hsink : sinkOf runs i = [] := numbered_eq_nil_iff.mpr hnone
      refine ⟨k, fun j => ?_, fun a ha => ?_, hgaps, ?_⟩
      · rw [List.mem_append, hk.mem_iff, List.mem_singleton]
        omega
      · obtain rfl : i = a := by simpa using ha
        omega
      · rw [List.flatMap_append, hk.sunk]
        simp [hsink]
    · refine ⟨i + 1, fun j => ?_, fun a ha => ?_, hgaps, ?_⟩
      · rw [List.mem_append, hk.mem_iff, List.mem_singleton]
        omega
      · obtain rfl : i = a := by simpa using ha
        rfl
      · rw [List.flatMap_append, hk.sunk, take_succ_flatten, numbered_append]
        simp [sinkOf, firstSeq]

theorem CaughtUp.sunk_eq {order : List Nat} {k : Nat} (h : CaughtUp session runs order k)
    (hdelivery : Delivery runs.length order) :
    order.flatMap (sinkOf runs) = numbered 1 runs.flatten := by
  obtain rfl : k = runs.length := by
    have hiff : ∀ j, j < k ↔ j < runs.length := fun j =>
      (h.mem_iff j).symm.trans (hdelivery.mem_iff j)
    exact Nat.le_antisymm (not_lt.mp fun hlt => lt_irrefl _ ((hiff _).mp hlt))
      (not_lt.mp fun hlt => lt_irrefl _ ((hiff _).mpr hlt))
  rw [h.sunk, List.take_length]

end Runs

/-! ### Packetized streams -/

def arrivals (datagrams : List (List UInt8)) (order : List Nat) : List (List UInt8) :=
  order.filterMap fun i => datagrams[i]?

theorem exists_carried (session buf : List UInt8) (hlen : buf.length < 2 ^ 64)
    {msgsPerPacket : UInt16} (hpos : 1 ≤ msgsPerPacket.toNat) (hmax : msgsPerPacket.toNat ≤ 65534) :
    ∃ runs : List (List (List UInt8)), Carried runs ∧ runs.flatten = frames buf ∧
      (∀ i run, runs[i]? = some run →
        run = ((frames buf).drop (i * msgsPerPacket.toNat)).take msgsPerPacket.toNat) ∧
      packetizeMold session buf msgsPerPacket =
        some ((List.range runs.length).map (packetAt session runs)) := by
  obtain ⟨runs, hflatten, hruns, hcut, hpackets⟩ := packetizeMold_spec session buf hpos
  refine ⟨runs, ⟨fun run hrun body hbody => ?_, fun run hrun => (hruns run hrun).1,
    fun run hrun => (hruns run hrun).2.trans hmax, ?_⟩, hflatten, hcut, ?_⟩
  · obtain ⟨bodies, rest, hbodies, hrest, rfl⟩ := exists_records buf
    rw [frames_encodeAll hbodies hrest] at hflatten
    exact hbodies body (hflatten ▸ List.mem_flatten.mpr ⟨run, hrun, hbody⟩)
  · obtain ⟨bodies, rest, hbodies, hrest, rfl⟩ := exists_records buf
    have hle := length_le_encodeAll bodies
    rw [frames_encodeAll hbodies hrest] at hflatten
    rw [List.length_append] at hlen
    rw [hflatten]
    omega
  · rw [hpackets, packets_eq_map]

theorem arrivals_map_range {n : Nat} (f : Nat → List UInt8) {order : List Nat}
    (horder : ∀ i ∈ order, i < n) :
    arrivals ((List.range n).map f) order = order.map f := by
  induction order with
  | nil => rfl
  | cons i order ih =>
      have hi := horder i List.mem_cons_self
      rw [arrivals, List.filterMap_cons, List.getElem?_map, List.getElem?_range hi, List.map_cons]
      exact congrArg _ (ih fun j hj => horder j (List.mem_cons_of_mem _ hj))

theorem delivery_range (n : Nat) : Delivery n (List.range n) := by
  refine ⟨fun i => List.mem_range, fun pre i hpre j hj => ?_⟩
  have htake := List.prefix_iff_eq_take.mp hpre
  rw [List.take_range, List.length_append, List.length_singleton] at htake
  have hlt : pre.length < min (pre.length + 1) n := by
    have hlength := congrArg List.length htake
    rw [List.length_append, List.length_range, List.length_singleton] at hlength
    omega
  have hmin : min (pre.length + 1) n = pre.length + 1 := by omega
  rw [hmin, List.range_succ] at htake
  obtain ⟨hpre', hi⟩ := List.append_inj' htake rfl
  obtain rfl := List.singleton_inj.mp hi
  rw [hpre', List.mem_range]
  exact hj

theorem silentDuplicates_range (runs : List (List (List UInt8))) (n : Nat) :
    SilentDuplicates runs (List.range n) := by
  intro pre i hpre hmem
  have hnodup := hpre.sublist.nodup List.nodup_range
  rw [List.nodup_append] at hnodup
  exact absurd rfl (hnodup.2.2 i hmem i (List.mem_singleton_self i))

theorem mold_round_trip (session buf : List UInt8) (hlen : buf.length < 2 ^ 64)
    (msgsPerPacket : UInt16) (hpos : 1 ≤ msgsPerPacket.toNat)
    (hmax : msgsPerPacket.toNat ≤ 65534) :
    ∃ datagrams s sunk, packetizeMold session buf msgsPerPacket = some datagrams ∧
      ({} : MoldSession).feed datagrams = some (s, sunk) ∧
      sunk.map Prod.snd = framedMessages buf ∧
      sunk.map (fun e => (e.1.toNat, e.2)) =
        ((frames buf).zipIdx 1).filterMap (fun e => (decoded e.1).map fun m => (e.2, m)) ∧
      s.gaps = 0 ∧ s.ended = false ∧ s.messages.toNat = (framedMessages buf).length ∧
      s.packets.toNat = datagrams.length ∧
      (frames buf ≠ [] → s.expectedSeq.toNat = (frames buf).length + 1) := by
  obtain ⟨runs, hcarried, hflatten, -, hpackets⟩ :=
    exists_carried session buf hlen hpos hmax
  have horder : ∀ i ∈ List.range runs.length, i < runs.length := fun i hi => List.mem_range.mp hi
  obtain ⟨k, hk⟩ := caughtUp_of_prefix session hcarried (delivery_range runs.length)
    (silentDuplicates_range runs runs.length) _ List.prefix_rfl
  have harrived := arrived_receiveAll session hcarried _ horder
  have hsunk := harrived.sunk
  rw [hk.sunk_eq (delivery_range _), hflatten] at hsunk
  have hgaps := hk.gaps
  have hfeed := MoldSession.feed_eq_some {} ((List.range runs.length).map (packetAt session runs))
  generalize ({} : MoldSession).receiveAll ((List.range runs.length).map (packetAt session runs)) =
    state at harrived hsunk hgaps hfeed
  have hmessages : (numbered 1 (frames buf)).length = (framedMessages buf).length := by
    rw [framedMessages_eq, ← map_snd_numbered 1, List.length_map]
  have hcount : (framedMessages buf).length ≤ (frames buf).length := by
    rw [framedMessages_eq]
    exact List.length_filterMap_le _ _
  have hruns := hcarried.lt_firstSeq (le_refl runs.length)
  have hlast : firstSeq runs runs.length = (frames buf).length + 1 := by
    rw [firstSeq, List.take_length, hflatten, Nat.add_comm]
  have hbound := hcarried.firstSeq_lt runs.length
  refine ⟨_, state.1, state.2, hpackets, hfeed, ?_, ?_, hgaps, harrived.ended, ?_, ?_,
    fun hne => ?_⟩
  · rw [hsunk, map_snd_numbered, framedMessages_eq]
  · rw [hsunk, map_toNat_numbered (by omega)]
  · rw [harrived.messages, hsunk, hmessages]
    exact UInt64.toNat_ofNat_of_lt' (by change _ < 2 ^ 64; omega)
  · rw [harrived.packets, List.length_map]
    exact UInt64.toNat_ofNat_of_lt' (by rw [List.length_range]; change _ < 2 ^ 64; omega)
  · have hpositive : runs.length ≠ 0 := by
      intro hzero
      rw [List.length_eq_zero_iff.mp hzero] at hflatten
      exact hne hflatten.symm
    have hend : (List.range runs.length).getLast? = some (runs.length - 1) := by
      rw [List.getLast?_range, if_neg hpositive]
    rw [MoldSession.expectedSeq, (harrived.expected _ hend).2, Nat.sub_add_cancel (by omega),
      hcarried.toNat_firstSeq, hlast]

/-- A buffer of three framed messages: two system events around a record that does not decode. -/
def eventsAround : List UInt8 :=
  [0, 12, 0x53, 0, 0, 0, 0, 0, 0, 0, 0, 0, 0, 0x4F, 0, 1, 0x5A,
    0, 12, 0x53, 0, 0, 0, 0, 0, 0, 0, 0, 0, 0, 0x43]

theorem mold_round_trip_eventsAround :
    ∃ datagrams s sunk, packetizeMold [0x48] eventsAround 2 = some datagrams ∧
      ({} : MoldSession).feed datagrams = some (s, sunk) ∧
      sunk.map Prod.snd = framedMessages eventsAround := by
  obtain ⟨datagrams, s, sunk, hpackets, hfeed, hsunk, -⟩ :=
    mold_round_trip [0x48] eventsAround (by decide) 2 (by decide) (by decide)
  exact ⟨datagrams, s, sunk, hpackets, hfeed, hsunk⟩

/-! ### Duplicated datagrams -/

/-- The session comes through a delivery as if every datagram had arrived once: it believes nothing
lost, never goes back, and calls the sink once for each number, as in the loss-free delivery. -/
structure Harmless (datagrams : List (List UInt8)) (order : List Nat) : Prop where
  gaps : ∀ pre, pre <+: order →
    (({} : MoldSession).receiveAll (arrivals datagrams pre)).1.gaps = 0
  expected_mono : ∀ pre i, pre ++ [i] <+: order →
    (({} : MoldSession).receiveAll (arrivals datagrams pre)).1.expectedSeq ≤
      (({} : MoldSession).receiveAll (arrivals datagrams (pre ++ [i]))).1.expectedSeq
  once : ((({} : MoldSession).receiveAll (arrivals datagrams order)).2.map Prod.fst).Nodup
  lossFree : (({} : MoldSession).receiveAll (arrivals datagrams order)).2 =
    (({} : MoldSession).receiveAll datagrams).2

section Duplicates

variable {session : List UInt8} {runs : List (List (List UInt8))} {order : List Nat}

theorem Delivery.lt_of_mem {total : Nat} (h : Delivery total order) {pre : List Nat}
    (hpre : pre <+: order) : ∀ i ∈ pre, i < total := fun i hi =>
  (h.mem_iff i).mp (hpre.subset hi)

theorem expectedSeq_arrivals (session : List UInt8) (h : Carried runs) {a : Nat}
    (horder : ∀ i ∈ order, i < runs.length) (hlast : order.getLast? = some a) :
    (({} : MoldSession).receiveAll (arrivals ((List.range runs.length).map (packetAt session runs))
      order)).1.expectedSeq.toNat = firstSeq runs (a + 1) := by
  rw [arrivals_map_range _ horder, MoldSession.expectedSeq,
    ((arrived_receiveAll session h order horder).expected a hlast).2, h.toNat_firstSeq]

theorem harmless_of_silentDuplicates (h : Carried runs) (hdelivery : Delivery runs.length order)
    (hsilent : SilentDuplicates runs order) :
    Harmless ((List.range runs.length).map (packetAt session runs)) order := by
  have hcaught := caughtUp_of_prefix session h hdelivery hsilent
  have horder := hdelivery.lt_of_mem List.prefix_rfl
  have hsunk : ((({} : MoldSession).receiveAll
      (arrivals ((List.range runs.length).map (packetAt session runs)) order)).2) =
      numbered 1 runs.flatten := by
    obtain ⟨k, hk⟩ := hcaught order List.prefix_rfl
    rw [arrivals_map_range _ horder, (arrived_receiveAll session h order horder).sunk,
      hk.sunk_eq hdelivery]
  refine ⟨fun pre hpre => ?_, fun pre i hpre => ?_, ?_, ?_⟩
  · obtain ⟨k, hk⟩ := hcaught pre hpre
    rw [arrivals_map_range _ (hdelivery.lt_of_mem hpre)]
    exact hk.gaps
  · have hpre' := (List.prefix_append pre [i]).trans hpre
    rw [UInt64.le_iff_toNat_le,
      expectedSeq_arrivals session h (hdelivery.lt_of_mem hpre) (List.getLast?_concat)]
    cases hlast : pre.getLast? with
    | none =>
        rw [List.getLast?_eq_none_iff.mp hlast]
        exact Nat.zero_le _
    | some a =>
        -- both ends are those of the newest datagram at the time
        obtain ⟨k, hk⟩ := hcaught (pre ++ [i]) hpre
        have hi := hk.last i (List.getLast?_concat)
        have ha := (hk.mem_iff a).mp (List.mem_append_left _ (List.mem_of_getLast? hlast))
        rw [expectedSeq_arrivals session h (hdelivery.lt_of_mem hpre') hlast]
        exact firstSeq_mono runs (by omega)
  · rw [hsunk]
    exact nodup_numbered h.flatten_lt.le
  · obtain ⟨k, hk⟩ := caughtUp_of_prefix session h (delivery_range runs.length)
      (silentDuplicates_range runs runs.length) _ List.prefix_rfl
    rw [hsunk, (arrived_receiveAll session h _ fun i hi => List.mem_range.mp hi).sunk,
      hk.sunk_eq (delivery_range _)]

/-- What the session expects is the end of the last arrival, so arrivals never go back. -/
theorem Harmless.last_le (h : Carried runs) (hdelivery : Delivery runs.length order)
    (hharmless : Harmless ((List.range runs.length).map (packetAt session runs)) order)
    {pre : List Nat} {i a : Nat} (hpre : pre ++ [i] <+: order) (ha : pre.getLast? = some a) :
    a ≤ i := by
  have hpre' := (List.prefix_append pre [i]).trans hpre
  have hmono := hharmless.expected_mono pre i hpre
  rw [UInt64.le_iff_toNat_le, expectedSeq_arrivals session h (hdelivery.lt_of_mem hpre') ha,
    expectedSeq_arrivals session h (hdelivery.lt_of_mem hpre) (List.getLast?_concat)] at hmono
  by_contra hlt
  have hend : firstSeq runs (i + 1) ≤ firstSeq runs a := firstSeq_mono runs (not_le.mp hlt)
  have hgrow := h.firstSeq_lt_succ (hdelivery.lt_of_mem hpre' a (List.mem_of_getLast? ha))
  omega

theorem Harmless.le_last (h : Carried runs) (hdelivery : Delivery runs.length order)
    (hharmless : Harmless ((List.range runs.length).map (packetAt session runs)) order) :
    ∀ pre, pre <+: order → ∀ a, pre.getLast? = some a → ∀ j ∈ pre, j ≤ a := by
  refine Histories.forall_prefix (by simp) fun pre i hpre ih a ha j hj => ?_
  obtain rfl : i = a := by simpa using ha
  rcases List.mem_append.mp hj with hj | hj
  · cases hlast : pre.getLast? with
    | none =>
        rw [List.getLast?_eq_none_iff.mp hlast] at hj
        cases hj
    | some b => exact (ih b hlast j hj).trans (hharmless.last_le h hdelivery hpre hlast)
  · exact (List.mem_singleton.mp hj).le

theorem silentDuplicates_of_harmless (h : Carried runs) (hdelivery : Delivery runs.length order)
    (hharmless : Harmless ((List.range runs.length).map (packetAt session runs)) order) :
    SilentDuplicates runs order := by
  intro pre i hpre hmem
  have hlast := hharmless.le_last h hdelivery _ hpre i (List.getLast?_concat)
  refine ⟨fun j hj => hlast j (List.mem_append_left _ hj), ?_⟩
  -- a second arrival repeats every number of the first
  obtain ⟨post, rfl⟩ := hpre
  have honce := hharmless.once
  have horder := hdelivery.lt_of_mem List.prefix_rfl
  rw [arrivals_map_range _ horder, (arrived_receiveAll session h _ horder).sunk,
    List.flatMap_append, List.map_append, List.flatMap_append, List.map_append] at honce
  have hdisjoint := (List.nodup_append.mp (List.nodup_append.mp honce).1).2.2
  have hsink : sinkOf runs i = [] := by
    refine List.eq_nil_iff_forall_not_mem.mpr fun e he => ?_
    exact hdisjoint e.1 (List.mem_map.mpr ⟨e, List.mem_flatMap.mpr ⟨i, hmem, he⟩, rfl⟩) e.1
      (List.mem_map.mpr ⟨e, List.mem_flatMap.mpr ⟨i, by simp, he⟩, rfl⟩) rfl
  exact numbered_eq_nil_iff.mp hsink

end Duplicates

/-- Duplicates are harmless exactly when each is of the newest datagram and has no message that
decodes. -/
theorem harmless_iff (session buf : List UInt8) (hlen : buf.length < 2 ^ 64)
    (msgsPerPacket : UInt16) (hpos : 1 ≤ msgsPerPacket.toNat)
    (hmax : msgsPerPacket.toNat ≤ 65534) (datagrams : List (List UInt8))
    (hdatagrams : packetizeMold session buf msgsPerPacket = some datagrams) (order : List Nat)
    (hdelivery : Delivery datagrams.length order) :
    Harmless datagrams order ↔
      ∀ pre i, pre ++ [i] <+: order → i ∈ pre → (∀ j ∈ pre, j ≤ i) ∧
        ∀ body ∈ ((frames buf).drop (i * msgsPerPacket.toNat)).take msgsPerPacket.toNat,
          decoded body = none := by
  obtain ⟨runs, hcarried, -, hcut, hpackets⟩ := exists_carried session buf hlen hpos hmax
  obtain rfl := Option.some.inj (hdatagrams.symm.trans hpackets)
  rw [List.length_map, List.length_range] at hdelivery
  have hiff : SilentDuplicates runs order ↔
      ∀ pre i, pre ++ [i] <+: order → i ∈ pre → (∀ j ∈ pre, j ≤ i) ∧
        ∀ body ∈ ((frames buf).drop (i * msgsPerPacket.toNat)).take msgsPerPacket.toNat,
          decoded body = none := by
    refine forall₂_congr fun pre i => forall_congr' fun hpre => ?_
    have hi : i < runs.length := (hdelivery.mem_iff i).mp (hpre.subset (by simp))
    have hget : runs[i]? = some (runs.getD i []) := by
      rw [List.getD_eq_getElem?_getD, List.getElem?_eq_getElem hi]
      rfl
    rw [← hcut i _ hget]
  rw [← hiff]
  exact ⟨silentDuplicates_of_harmless hcarried hdelivery,
    harmless_of_silentDuplicates hcarried hdelivery⟩

theorem frames_eventsAround : frames eventsAround =
    [[0x53, 0, 0, 0, 0, 0, 0, 0, 0, 0, 0, 0x4F], [0x5A],
      [0x53, 0, 0, 0, 0, 0, 0, 0, 0, 0, 0, 0x43]] := by
  have hrecords : eventsAround =
      encodeAll [[0x53, 0, 0, 0, 0, 0, 0, 0, 0, 0, 0, 0x4F], [0x5A],
        [0x53, 0, 0, 0, 0, 0, 0, 0, 0, 0, 0, 0x43]] ++ [] := rfl
  rw [hrecords, frames_encodeAll _ rfl]
  unfold Body
  decide

/-- The record that does not decode arrives twice in a row. -/
theorem harmless_iff_eventsAround :
    ∃ datagrams, packetizeMold [0x48] eventsAround 1 = some datagrams ∧
      Harmless datagrams [0, 1, 1, 2] := by
  refine ⟨_, rfl, (harmless_iff [0x48] eventsAround (by decide) 1 (by decide) (by decide) _ rfl
    [0, 1, 1, 2] ⟨fun i => ?_, ?_⟩).mpr ?_⟩
  · change i ∈ [0, 1, 1, 2] ↔ i < 3
    simp only [List.mem_cons, List.not_mem_nil, or_false]
    omega
  · rw [Histories.forall_concat_prefix_iff]
    decide
  · rw [Histories.forall_concat_prefix_iff, frames_eventsAround]
    decide

/-- The first datagram comes again late: the session takes the third one for a gap, has gone back in
between, and has called the sink twice for the first number. -/
theorem eventsAround_not_harmless :
    ∃ datagrams, packetizeMold [0x48] eventsAround 1 = some datagrams ∧
      Delivery datagrams.length [0, 1, 0, 2] ∧
      (({} : MoldSession).receiveAll (arrivals datagrams [0, 1, 0, 2])).1.gaps = 1 ∧
      (({} : MoldSession).receiveAll (arrivals datagrams [0, 1, 0, 2])).2.map Prod.fst =
        [1, 1, 3] ∧
      ¬ Harmless datagrams [0, 1, 0, 2] := by
  refine ⟨_, rfl, ⟨fun i => ?_, ?_⟩, by decide, by decide, fun hharmless => ?_⟩
  · change i ∈ [0, 1, 0, 2] ↔ i < 3
    simp only [List.mem_cons, List.not_mem_nil, or_false]
    omega
  · rw [Histories.forall_concat_prefix_iff]
    decide
  · exact absurd (hharmless.gaps _ List.prefix_rfl) (by decide)

end HftOrderbook
