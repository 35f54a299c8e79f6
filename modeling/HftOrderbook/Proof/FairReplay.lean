import HftOrderbook.Library.FairRuns
import HftOrderbook.Proof.ReplayParity

/-!
# A replay with threads ends

The producer spins while a ring is full and a worker spins while one is empty, so neither gets
anywhere on its own. While there are items left, the producer gets on if the ring of the next item
has room, and its worker if it has not. Once the flag is up, each worker comes closer to its end with
every step.
-/

namespace HftOrderbook

open FairRuns WrappingCounter

/-! ### How far a call has to go -/

/-- The steps of a push until it succeeds, if there is room. One that has loaded a counter from
before there was must fail first. -/
def PushPc.toGo {α : Type} (ring : SpscRing α) : PushPc α → Nat
  | .returned true => 0
  | .storeHead _ _ => 1
  | .storeSlot _ _ => 2
  | .retestCache _ head => if ring.looksFull head then 10 else 3
  | .storeCache _ head tail => if { ring with tailCache := tail }.looksFull head then 11 else 4
  | .loadTail _ _ => 5
  | .testCache _ _ => 6
  | .loadHead _ => 7
  | .idle => 8
  | .returned false => 9

/-- The steps of a pop until it stores `tail_`, if there is a value. -/
def PopPc.toGo {α : Type} (ring : SpscRing α) : PopPc α → Nat
  | .storeTail _ _ => 0
  | .loadSlot _ => 1
  | .retestCache tail => if tail = ring.headCache then 10 else 2
  | .storeCache tail head => if tail = head then 11 else 3
  | .loadHead _ => 4
  | .testCache _ => 5
  | .loadTail => 6
  | .idle => 7
  | .returned (some _) => 8
  | .returned none => 9

/-- The most steps a pop can take before it stores `tail_` or returns. -/
def PopPc.left {α : Type} : PopPc α → Nat
  | .returned _ => 0
  | .storeTail _ _ => 0
  | .loadSlot _ => 1
  | .retestCache _ => 2
  | .storeCache _ _ => 3
  | .loadHead _ => 4
  | .testCache _ => 5
  | .loadTail => 6
  | .idle => 7

theorem PushPc.toGo_le {α : Type} (ring : SpscRing α) (pc : PushPc α) : pc.toGo ring ≤ 11 := by
  cases pc with
  | returned ok => cases ok <;> simp [toGo]
  | retestCache item head =>
      rw [toGo]
      split_ifs <;> omega
  | storeCache item head tail =>
      rw [toGo]
      split_ifs <;> omega
  | _ => simp [toGo]

theorem PushPc.toGo_eq_zero {α : Type} {ring : SpscRing α} {pc : PushPc α}
    (h : pc.toGo ring = 0) : pc = .returned true := by
  cases pc with
  | returned ok =>
      cases ok with
      | true => rfl
      | false => cases h
  | retestCache item head =>
      rw [toGo] at h
      split_ifs at h
  | storeCache item head tail =>
      rw [toGo] at h
      split_ifs at h
  | _ => cases h

namespace Channel

variable {α : Type} {c : Channel α} {bits tailSeen headSeen : Nat}

def HasRoom (c : Channel α) : Prop := c.unpopped < c.ring.capacity.toNat

instance (c : Channel α) : Decidable c.HasRoom :=
  inferInstanceAs (Decidable (c.unpopped < c.ring.capacity.toNat))

theorem Inv.hasRoom_iff (h : c.Inv bits tailSeen headSeen) :
    c.HasRoom ↔ c.pushed.length < c.popped.length + 2 ^ bits := by
  have hle := h.popped_prefix.length_le
  rw [HasRoom, h.capacity_toNat, unpopped]
  omega

/-- The test after a load that found room passes, whatever was in the cache. -/
theorem Inv.not_looksFull_tail (h : c.Inv bits tailSeen headSeen) (hroom : c.HasRoom) :
    ({ c.ring with tailCache := c.ring.tail } : SpscRing α).looksFull
      (UInt64.ofNat c.pushed.length) = false := by
  have hpow := h.two_pow_le
  have hle := h.popped_prefix.length_le
  have hnext : UInt64.ofNat c.pushed.length + 1 = UInt64.ofNat (c.pushed.length + 1) :=
    (UInt64.ofNat_add _ _).symm
  rw [h.hasRoom_iff] at hroom
  rw [SpscRing.looksFull, decide_eq_false_iff_not, UInt64.lt_iff_toNat_lt, h.cap, h.tail, hnext,
    toNat_sub (by omega) (by omega), UInt64.toNat_ofNat_of_lt' (by change _ < 2 ^ 64; omega)]
  omega

/-- With room, every step of the producer brings the push closer to success. -/
theorem Inv.callPush_toGo (h : c.Inv bits tailSeen headSeen) (hroom : c.HasRoom) {item : α}
    {c' : Channel α} {result : Option Bool} (hcall : c.callPush item = (c', result))
    (hgo : c.producer.toGo c.ring ≠ 0) :
    result ≠ some true ∧ c'.producer.toGo c'.ring < c.producer.toGo c.ring ∧
      (c'.HasRoom ∨ c'.producer.toGo c'.ring = 0) := by
  have hproducer := h.producer
  have htail := h.not_looksFull_tail hroom
  obtain ⟨ring, pc, consumer, pushed, popped, tailLoad, headLoad⟩ := c
  cases pc with
  | idle =>
      cases hcall
      exact ⟨nofun, (by norm_num : 7 < 8), Or.inl hroom⟩
  | loadHead carried =>
      cases hcall
      exact ⟨nofun, (by norm_num : 6 < 7), Or.inl hroom⟩
  | testCache carried head =>
      cases hcall
      refine ⟨nofun, ?_, Or.inl hroom⟩
      dsimp [Channel.pushStep, SpscRing.pushStep]
      split_ifs <;> simp [PushPc.toGo]
  | loadTail carried head =>
      cases hcall
      obtain rfl : head = UInt64.ofNat pushed.length := hproducer
      refine ⟨nofun, ?_, Or.inl hroom⟩
      dsimp [Channel.pushStep, SpscRing.pushStep, PushPc.toGo] at htail ⊢
      rw [htail]
      simp
  | storeCache carried head tail =>
      cases hcall
      refine ⟨nofun, ?_, Or.inl hroom⟩
      dsimp [Channel.pushStep, SpscRing.pushStep, PushPc.toGo]
      split_ifs <;> omega
  | retestCache carried head =>
      cases hcall
      refine ⟨nofun, ?_, Or.inl hroom⟩
      dsimp [Channel.pushStep, SpscRing.pushStep, PushPc.toGo]
      split_ifs <;> norm_num
  | storeSlot carried head =>
      cases hcall
      exact ⟨nofun, (by norm_num : 1 < 2), Or.inl hroom⟩
  | storeHead carried head =>
      cases hcall
      exact ⟨nofun, (by norm_num : 0 < 1), Or.inr rfl⟩
  | returned ok =>
      cases hcall
      cases ok with
      | true => exact absurd rfl hgo
      | false => exact ⟨nofun, (by norm_num : 8 < 9), Or.inl hroom⟩

/-- Without room, a push fails, and leaves all but its own place alone. -/
theorem Inv.callPush_full (h : c.Inv bits tailSeen headSeen) (hfull : ¬ c.HasRoom) {item : α}
    {c' : Channel α} {result : Option Bool} (hcall : c.callPush item = (c', result))
    (hgo : c.producer.toGo c.ring ≠ 0) :
    result ≠ some true ∧ c'.producer.toGo c'.ring ≠ 0 ∧ c'.consumer = c.consumer ∧
      c'.ring.headCache = c.ring.headCache ∧ c'.ring.cap = c.ring.cap ∧ c'.unpopped = c.unpopped := by
  have hproducer := h.producer
  have hseen := h.tailSeen_le
  rw [h.hasRoom_iff] at hfull
  obtain ⟨ring, pc, consumer, pushed, popped, tailLoad, headLoad⟩ := c
  cases pc with
  | testCache carried head =>
      cases hcall
      dsimp [Channel.pushStep, SpscRing.pushStep]
      split_ifs
      · exact ⟨nofun, nofun, rfl, rfl, rfl, rfl⟩
      · exact ⟨nofun, nofun, rfl, rfl, rfl, rfl⟩
  | loadTail carried head =>
      cases hcall
      refine ⟨nofun, ?_, rfl, rfl, rfl, rfl⟩
      dsimp [Channel.pushStep, SpscRing.pushStep, PushPc.toGo]
      split_ifs <;> norm_num
  | storeCache carried head tail =>
      cases hcall
      refine ⟨nofun, ?_, rfl, rfl, rfl, rfl⟩
      dsimp [Channel.pushStep, SpscRing.pushStep, PushPc.toGo]
      split_ifs <;> norm_num
  | retestCache carried head =>
      cases hcall
      dsimp [Channel.pushStep, SpscRing.pushStep]
      split_ifs
      · exact ⟨nofun, nofun, rfl, rfl, rfl, rfl⟩
      · exact ⟨nofun, nofun, rfl, rfl, rfl, rfl⟩
  | storeSlot carried head =>
      have hroom := hproducer.2
      dsimp only at hroom hfull hseen
      omega
  | storeHead carried head =>
      have hroom := hproducer.2.1
      dsimp only at hroom hfull hseen
      omega
  | returned ok =>
      cases hcall
      cases ok with
      | true => exact absurd rfl hgo
      | false => exact ⟨nofun, nofun, rfl, rfl, rfl, rfl⟩
  | _ =>
      cases hcall
      exact ⟨nofun, nofun, rfl, rfl, rfl, rfl⟩

section Pop

variable [Inhabited α]

/-- A pop changes nothing that a push goes by, and can only make room. -/
theorem callPop_push (c : Channel α) :
    c.callPop.1.producer.toGo c.callPop.1.ring = c.producer.toGo c.ring ∧
      c.callPop.1.ring.cap = c.ring.cap ∧ c.callPop.1.unpopped ≤ c.unpopped := by
  obtain ⟨ring, producer, pc, pushed, popped, tailLoad, headLoad⟩ := c
  cases pc with
  | storeTail tail out =>
      refine ⟨rfl, rfl, ?_⟩
      change pushed.length - (popped ++ [out]).length ≤ pushed.length - popped.length
      rw [List.length_append]
      omega
  | _ => exact ⟨rfl, rfl, le_rfl⟩

/-- With a value in the ring, a step of the consumer takes one or brings the pop closer to it, and
one that returns was closer before. -/
theorem Inv.callPop_toGo (h : c.Inv bits tailSeen headSeen) (hvalue : c.unpopped ≠ 0) :
    c.callPop.1.unpopped < c.unpopped ∨ c.callPop.1.unpopped = c.unpopped ∧
      (c.callPop.2 = none → c.callPop.1.consumer.toGo c.callPop.1.ring < c.consumer.toGo c.ring) ∧
      ∀ out, c.callPop.2 = some out →
        c.callPop.1.consumer = .idle ∧ c.consumer.toGo c.ring = if out.isSome then 8 else 9 := by
  have hconsumer := h.consumer
  have hne : UInt64.ofNat c.popped.length ≠ c.ring.head := by
    have hpow := h.two_pow_le
    have hle := h.pushed_le
    have hseen := h.tailSeen_le
    rw [h.head, Ne, ofNat_eq_iff h.popped_prefix.length_le (by omega)]
    rw [unpopped] at hvalue
    omega
  obtain ⟨ring, producer, pc, pushed, popped, tailLoad, headLoad⟩ := c
  cases pc with
  | idle => exact Or.inr ⟨rfl, fun _ => (by norm_num : 6 < 7), nofun⟩
  | loadTail => exact Or.inr ⟨rfl, fun _ => (by norm_num : 5 < 6), nofun⟩
  | testCache tail =>
      refine Or.inr ⟨rfl, fun _ => ?_, nofun⟩
      dsimp [callPop, Channel.popStep, SpscRing.popStep]
      split_ifs <;> simp [PopPc.toGo]
  | loadHead tail =>
      refine Or.inr ⟨rfl, fun _ => ?_, nofun⟩
      obtain rfl : tail = UInt64.ofNat popped.length := hconsumer
      dsimp [callPop, Channel.popStep, SpscRing.popStep, PopPc.toGo]
      rw [if_neg hne]
      norm_num
  | storeCache tail head =>
      refine Or.inr ⟨rfl, fun _ => ?_, nofun⟩
      dsimp [callPop, Channel.popStep, SpscRing.popStep, PopPc.toGo]
      split_ifs <;> norm_num
  | retestCache tail =>
      refine Or.inr ⟨rfl, fun _ => ?_, nofun⟩
      dsimp [callPop, Channel.popStep, SpscRing.popStep, PopPc.toGo]
      split_ifs <;> norm_num
  | loadSlot tail => exact Or.inr ⟨rfl, fun _ => (by norm_num : 0 < 1), nofun⟩
  | storeTail tail out =>
      refine Or.inl ?_
      change pushed.length - (popped ++ [out]).length < pushed.length - popped.length
      change pushed.length - popped.length ≠ 0 at hvalue
      rw [List.length_append, List.length_singleton]
      omega
  | returned out =>
      refine Or.inr ⟨rfl, nofun, fun out' hout => ?_⟩
      obtain rfl : out = out' := Option.some.inj hout
      cases out with
      | none => exact ⟨rfl, rfl⟩
      | some out => exact ⟨rfl, rfl⟩

/-- On any ring, a step of the consumer takes a value or comes closer to the end of the pop. -/
theorem Inv.callPop_left (h : c.Inv bits tailSeen headSeen) :
    (c.callPop.2 = none ∧ c.callPop.1.unpopped < c.unpopped ∧
      ∃ out, c.callPop.1.consumer = .returned (some out)) ∨
    (c.callPop.2 = none ∧ c.callPop.1.unpopped = c.unpopped ∧
      c.callPop.1.consumer.left < c.consumer.left ∧
      ∀ out, c.callPop.1.consumer ≠ .returned (some out)) ∨
    ∃ out, c.callPop = ({ c with consumer := .idle }, some out) ∧ c.consumer = .returned out := by
  have hconsumer := h.consumer
  have hseen := h.headSeen_le
  obtain ⟨ring, producer, pc, pushed, popped, tailLoad, headLoad⟩ := c
  cases pc with
  | idle => exact Or.inr (Or.inl ⟨rfl, rfl, (by norm_num : 6 < 7), nofun⟩)
  | loadTail => exact Or.inr (Or.inl ⟨rfl, rfl, (by norm_num : 5 < 6), nofun⟩)
  | testCache tail =>
      refine Or.inr (Or.inl ⟨rfl, rfl, ?_⟩)
      dsimp [callPop, Channel.popStep, SpscRing.popStep]
      split_ifs <;> simp [PopPc.left]
  | loadHead tail => exact Or.inr (Or.inl ⟨rfl, rfl, (by norm_num : 3 < 4), nofun⟩)
  | storeCache tail head => exact Or.inr (Or.inl ⟨rfl, rfl, (by norm_num : 2 < 3), nofun⟩)
  | retestCache tail =>
      refine Or.inr (Or.inl ⟨rfl, rfl, ?_⟩)
      dsimp [callPop, Channel.popStep, SpscRing.popStep]
      split_ifs <;> simp [PopPc.left]
  | loadSlot tail => exact Or.inr (Or.inl ⟨rfl, rfl, (by norm_num : 0 < 1), nofun⟩)
  | storeTail tail out =>
      refine Or.inl ⟨rfl, ?_, out, rfl⟩
      change pushed.length - (popped ++ [out]).length < pushed.length - popped.length
      have hlt : popped.length < headSeen := hconsumer.2.1
      change headSeen ≤ pushed.length at hseen
      rw [List.length_append, List.length_singleton]
      omega
  | returned out => exact Or.inr (Or.inr ⟨out, rfl, rfl⟩)

end Pop

end Channel

/-! ### How far a worker has to go -/

/-- The place of a pop on the way out, from `base` on. A value in hand leads back to the loop. -/
def PopPc.leftFrom {α : Type} (base : Nat) : PopPc α → Nat
  | .returned (some _) => 18
  | pc => base + pc.left

/-- A pop goes by the consumer's cache alone. -/
theorem PopPc.toGo_congr {α : Type} {ring ring' : SpscRing α}
    (h : ring'.headCache = ring.headCache) (pc : PopPc α) : pc.toGo ring' = pc.toGo ring := by
  cases pc with
  | retestCache tail => rw [toGo, toGo, h]
  | returned out => cases out <;> rfl
  | _ => rfl

theorem PopPc.leftFrom_of_ne {α : Type} {base : Nat} {pc : PopPc α}
    (h : ∀ out, pc ≠ .returned (some out)) : pc.leftFrom base = base + pc.left := by
  unfold leftFrom
  split
  · next out => exact absurd rfl (h out)
  · rfl

def WorkerPc.left {α : Type} (pc : PopPc α) : WorkerPc → Nat
  | .exited => 0
  | .drain => pc.leftFrom 1
  | .loadFlag => 9
  | .pop => pc.leftFrom 10

namespace Lane

variable {α σ : Type}

/-- The steps of a worker until it has taken a value, if there is one and the flag is down. -/
def toPop (lane : Lane α σ) : Nat :=
  match lane.pc with
  | .loadFlag => 8
  | _ => lane.channel.consumer.toGo lane.channel.ring

/-- A bound on the steps of a worker until it leaves, if the flag is up. -/
def toExit (lane : Lane α σ) : Nat :=
  20 * lane.channel.unpopped + lane.pc.left lane.channel.consumer

variable [Inhabited α] {apply : σ → α → σ} {init : σ} {finished : Bool} {todo total : List α}
  {lane : Lane α σ}

theorem channel_popping (apply : σ → α → σ) (onEmpty : WorkerPc) (lane : Lane α σ) :
    (lane.popping apply onEmpty).channel = lane.channel.callPop.1 := by
  unfold popping
  rcases lane.channel.callPop with ⟨c, _ | _ | item⟩ <;> rfl

/-- A worker changes nothing that a push goes by, and can only make room. -/
theorem work_push (apply : σ → α → σ) (finished : Bool) (lane : Lane α σ) :
    (lane.work apply finished).channel.producer.toGo (lane.work apply finished).channel.ring =
        lane.channel.producer.toGo lane.channel.ring ∧
      (lane.work apply finished).channel.ring.cap = lane.channel.ring.cap ∧
      (lane.work apply finished).channel.unpopped ≤ lane.channel.unpopped := by
  unfold work
  cases lane.pc with
  | pop =>
      simp only [channel_popping]
      exact lane.channel.callPop_push
  | loadFlag => exact ⟨rfl, rfl, le_rfl⟩
  | drain =>
      simp only [channel_popping]
      exact lane.channel.callPop_push
  | exited => exact ⟨rfl, rfl, le_rfl⟩

theorem Inv.work_toPop (h : lane.Inv apply init false todo total)
    (hvalue : lane.channel.unpopped ≠ 0) :
    (lane.work apply false).channel.unpopped < lane.channel.unpopped ∨
      (lane.work apply false).channel.unpopped = lane.channel.unpopped ∧
        (lane.work apply false).toPop < lane.toPop := by
  have hworker := h.worker
  obtain ⟨_, _, _, hring⟩ := h.ring
  unfold WorkerInv at hworker
  unfold Lane.work
  cases hpc : lane.pc with
  | pop =>
      dsimp only
      rw [channel_popping]
      rcases hring.callPop_toGo hvalue with hlt | ⟨heq, hrunning, hreturned⟩
      · exact Or.inl hlt
      refine Or.inr ⟨heq, ?_⟩
      unfold Lane.popping
      rcases hcall : lane.channel.callPop with ⟨c, _ | _ | item⟩
      · rw [hcall] at hrunning
        simpa only [toPop, hpc] using hrunning rfl
      · rw [hcall] at hreturned
        obtain ⟨-, hgo⟩ := hreturned none rfl
        simp [toPop, hpc, hgo]
      · rw [hcall] at hreturned
        obtain ⟨hidle, hgo⟩ := hreturned (some item) rfl
        change c.consumer = .idle at hidle
        simp only [toPop, hpc, hgo, hidle]
        exact (by norm_num : 7 < 8)
  | loadFlag =>
      rw [hpc] at hworker
      refine Or.inr ⟨rfl, ?_⟩
      simp only [toPop, hpc, hworker]
      exact (by norm_num : 7 < 8)
  | drain =>
      rw [hpc] at hworker
      exact absurd hworker.1 Bool.false_ne_true
  | exited =>
      rw [hpc] at hworker
      exact absurd hworker.1 Bool.false_ne_true

/-- A step inside a pop, when an empty ring leads nearer to the end than `base`. -/
theorem Inv.popping_toExit {onEmpty : WorkerPc} {base : Nat}
    (h : lane.Inv apply init finished todo total)
    (hbase : ∀ pc : PopPc α, lane.pc.left pc = pc.leftFrom base)
    (hempty : onEmpty.left (PopPc.idle : PopPc α) < base) :
    (lane.popping apply onEmpty).toExit < lane.toExit := by
  obtain ⟨_, _, _, hring⟩ := h.ring
  unfold toExit
  rw [channel_popping, hbase]
  unfold Lane.popping
  rcases hring.callPop_left with ⟨hrunning, hlt, out, hout⟩ |
    ⟨hrunning, heq, hlt, hout⟩ | ⟨out, hcall, hreturned⟩
  · rcases hcall : lane.channel.callPop with ⟨c, result⟩
    rw [hcall] at hrunning hlt hout
    obtain rfl : result = none := hrunning
    dsimp only at hlt hout ⊢
    rw [hbase, hout]
    change 20 * c.unpopped + 18 < _
    omega
  · rcases hcall : lane.channel.callPop with ⟨c, result⟩
    rw [hcall] at hrunning heq hlt hout
    obtain rfl : result = none := hrunning
    dsimp only at heq hlt hout ⊢
    have hnone : ∀ out, lane.channel.consumer ≠ .returned (some out) := by
      intro out hin
      rw [hin] at hlt
      exact Nat.not_lt_zero _ hlt
    rw [hbase, heq, PopPc.leftFrom_of_ne hout, PopPc.leftFrom_of_ne hnone]
    omega
  · rw [hcall, hreturned]
    cases out with
    | none => exact Nat.add_lt_add_left hempty _
    | some item => exact Nat.add_lt_add_left (by norm_num : 17 < 18) _

theorem Inv.work_toExit (h : lane.Inv apply init true todo total) (hpc : lane.pc ≠ .exited) :
    (lane.work apply true).toExit < lane.toExit := by
  have hworker := h.worker
  unfold WorkerInv at hworker
  unfold Lane.work
  cases hlane : lane.pc with
  | pop => exact h.popping_toExit (fun pc => by rw [hlane, WorkerPc.left]) (by norm_num : 9 < 10)
  | loadFlag =>
      rw [hlane] at hworker
      unfold toExit
      rw [hlane, hworker]
      exact Nat.add_lt_add_left (by norm_num : 8 < 9) _
  | drain => exact h.popping_toExit (fun pc => by rw [hlane, WorkerPc.left]) (by norm_num : 0 < 1)
  | exited => exact absurd hlane hpc

/-- The producer can get on without the worker of this ring. -/
def CanPush (lane : Lane α σ) : Prop :=
  lane.channel.HasRoom ∨ lane.channel.producer.toGo lane.channel.ring = 0

omit [Inhabited α] in
instance (lane : Lane α σ) : Decidable lane.CanPush :=
  inferInstanceAs (Decidable (lane.channel.HasRoom ∨ _ = 0))

/-- The steps of the two sides together until a push succeeds. -/
def toPush (lane : Lane α σ) : Nat :=
  if lane.CanPush then lane.channel.producer.toGo lane.channel.ring else 12 + lane.toPop

theorem canPush_work (apply : σ → α → σ) (finished : Bool) (h : lane.CanPush) :
    (lane.work apply finished).CanPush ∧ (lane.work apply finished).toPush = lane.toPush := by
  obtain ⟨hgo, hcap, hle⟩ := lane.work_push apply finished
  have hcan : (lane.work apply finished).CanPush := by
    refine h.imp (fun hroom => ?_) hgo.trans
    rw [Channel.HasRoom, SpscRing.capacity, hcap]
    exact hle.trans_lt hroom
  refine ⟨hcan, ?_⟩
  rw [toPush, toPush, if_pos h, if_pos hcan, hgo]

theorem Inv.toPush_work (h : lane.Inv apply init false todo total) (hcan : ¬ lane.CanPush) :
    (lane.work apply false).toPush < lane.toPush := by
  obtain ⟨hgo, hcap, -⟩ := lane.work_push apply false
  obtain ⟨bits, _, _, hring⟩ := h.ring
  obtain ⟨hfull, hgo'⟩ := not_or.mp hcan
  have hfull' := mt hring.hasRoom_iff.mpr hfull
  have hlen := hring.pushed_le
  have hseen := hring.tailSeen_le
  have hpos := Nat.two_pow_pos bits
  have hall : lane.channel.unpopped = lane.channel.ring.capacity.toNat := by
    rw [hring.capacity_toNat, Channel.unpopped]
    omega
  have hvalue : lane.channel.unpopped ≠ 0 := by
    rw [Channel.unpopped]
    omega
  rw [toPush, toPush, if_neg hcan]
  rcases h.work_toPop hvalue with hlt | ⟨heq, hlt⟩
  · have hroom : (lane.work apply false).channel.HasRoom := by
      rw [Channel.HasRoom, SpscRing.capacity, hcap]
      exact hlt.trans_eq hall
    have hle := PushPc.toGo_le (lane.work apply false).channel.ring
      (lane.work apply false).channel.producer
    rw [if_pos (show (lane.work apply false).CanPush from Or.inl hroom)]
    omega
  · have hstill : ¬ (lane.work apply false).CanPush := by
      rw [CanPush, Channel.HasRoom, SpscRing.capacity, hcap, heq, hgo]
      exact hcan
    rw [if_neg hstill]
    omega

end Lane

/-! ### All threads -/

namespace Fanout

section Rank

variable {ι α σ : Type} {route : α → ι} {s s' : Fanout ι α σ} {item : α} {rest : List α}

/-- Items left, then the steps to the next push; in the end, the steps of the workers. -/
def rank [Fintype ι] (route : α → ι) (s : Fanout ι α σ) : ℕ ×ₗ ℕ :=
  match s.remaining with
  | item :: rest => toLex (rest.length + 2, (s.lanes (route item)).toPush)
  | [] => if s.finished then toLex (0, ∑ i, (s.lanes i).toExit) else toLex (1, 0)

open Classical in
/-- The thread that gets on. -/
noncomputable def helper (route : α → ι) (s : Fanout ι α σ) : Thread ι :=
  match s.remaining with
  | item :: _ => if (s.lanes (route item)).CanPush then .producer else .worker (route item)
  | [] =>
      if hleft : s.finished = true ∧ ∃ i, (s.lanes i).pc ≠ .exited then .worker hleft.2.choose
      else .producer

theorem helper_cons (hremaining : s.remaining = item :: rest) :
    s.helper route =
      if (s.lanes (route item)).CanPush then .producer else .worker (route item) := by
  rw [helper, hremaining]

/-- The helper after the last item. -/
theorem helper_nil (hremaining : s.remaining = []) (hfinished : s.finished = false) :
    s.helper route = .producer := by
  rw [helper, hremaining]
  exact dif_neg fun hleft => Bool.false_ne_true (hfinished.symm.trans hleft.1)

variable (route) in
theorem exists_helper (hremaining : s.remaining = []) (hfinished : s.finished = true)
    (hleft : ∃ i, (s.lanes i).pc ≠ .exited) :
    ∃ i, (s.lanes i).pc ≠ .exited ∧ s.helper route = .worker i := by
  have hboth : s.finished = true ∧ ∃ i, (s.lanes i).pc ≠ .exited := ⟨hfinished, hleft⟩
  refine ⟨hboth.2.choose, hboth.2.choose_spec, ?_⟩
  rw [helper, hremaining]
  exact dif_pos hboth

theorem exists_left (hfinished : s.finished = true) (hend : ¬ s.Terminated) :
    ∃ i, (s.lanes i).pc ≠ .exited := by
  by_contra hnone
  exact hend ⟨hfinished, fun i => not_not.mp (not_exists.mp hnone i)⟩

variable [Fintype ι]

theorem rank_nil (hremaining : s.remaining = []) (hfinished : s.finished = false) :
    s.rank route = toLex (1, 0) := by
  rw [rank, hremaining, hfinished]
  rfl

theorem rank_cons (hremaining : s.remaining = item :: rest) :
    s.rank route = toLex (rest.length + 2, (s.lanes (route item)).toPush) := by
  rw [rank, hremaining]

/-- A push has succeeded. -/
theorem rank_pushed (hremaining : s.remaining = item :: rest) (hnext : s'.remaining = rest)
    (hfinished : s'.finished = false) : s'.rank route < s.rank route := by
  rw [rank_cons hremaining]
  cases rest with
  | nil =>
      rw [rank, hnext, hfinished]
      exact Prod.Lex.toLex_lt_toLex.mpr (Or.inl (by norm_num : 1 < 2))
  | cons item' rest' =>
      rw [rank_cons hnext]
      exact Prod.Lex.toLex_lt_toLex.mpr (Or.inl (Nat.lt_succ_self _))

/-- The two sides of the ring have come closer to a push. -/
theorem rank_lt_of_toPush (hremaining : s.remaining = item :: rest)
    (hremaining' : s'.remaining = item :: rest)
    (hlt : (s'.lanes (route item)).toPush < (s.lanes (route item)).toPush) :
    s'.rank route < s.rank route := by
  rw [rank_cons hremaining, rank_cons hremaining']
  exact Prod.Lex.toLex_lt_toLex.mpr (Or.inr ⟨rfl, hlt⟩)

/-- Nothing has changed that the rank and the helper go by. -/
theorem rank_eq_of_toPush (hremaining : s.remaining = item :: rest)
    (hremaining' : s'.remaining = item :: rest)
    (heq : (s'.lanes (route item)).toPush = (s.lanes (route item)).toPush)
    (hcan : (s'.lanes (route item)).CanPush ↔ (s.lanes (route item)).CanPush) :
    s'.rank route = s.rank route ∧ s'.helper route = s.helper route := by
  rw [rank_cons hremaining, rank_cons hremaining', heq, helper_cons hremaining,
    helper_cons hremaining']
  exact ⟨rfl, by simp only [hcan]⟩

end Rank

section Lanes

variable {ι α σ : Type} [DecidableEq ι] {s : Fanout ι α σ} {i j : ι} {lane : Lane α σ}

theorem lanes_setLane_self : (s.setLane i lane).lanes i = lane := Function.update_self ..

theorem lanes_setLane_of_ne (hne : j ≠ i) : (s.setLane i lane).lanes j = s.lanes j :=
  Function.update_of_ne hne ..

end Lanes

section Steps

variable {ι α σ : Type} [DecidableEq ι] [Fintype ι] {route : α → ι}
  {apply : σ → α → σ} {init : σ} {items : List α} {s : Fanout ι α σ} {item : α} {rest : List α}

/-- The producer before a ring with room. -/
theorem Inv.rank_produce (h : s.Inv route apply init items)
    (hremaining : s.remaining = item :: rest) (hcan : (s.lanes (route item)).CanPush) :
    (s.produce route).rank route < s.rank route := by
  obtain ⟨_, _, _, hring⟩ := (h.lane (route item)).ring
  rcases hcall : (s.lanes (route item)).channel.callPush item with ⟨c, result⟩
  by_cases hgo : (s.lanes (route item)).channel.producer.toGo (s.lanes (route item)).channel.ring = 0
  · have hreturned := PushPc.toGo_eq_zero hgo
    obtain rfl : result = some true := by
      rw [Channel.callPush, hreturned] at hcall
      exact (Prod.mk.inj hcall).2.symm
    rw [produce_pushed hremaining hcall]
    exact rank_pushed hremaining rfl (h.unfinished hremaining)
  · obtain ⟨hresult, hlt, hcan'⟩ := hring.callPush_toGo (hcan.resolve_right hgo) hcall hgo
    rw [produce_running hremaining hcall hresult]
    refine rank_lt_of_toPush hremaining hremaining ?_
    rw [lanes_setLane_self, Lane.toPush, Lane.toPush, if_pos hcan,
      if_pos (show Lane.CanPush { s.lanes (route item) with channel := c } from hcan')]
    exact hlt

/-- The producer before a full ring. -/
theorem Inv.rank_produce_full (h : s.Inv route apply init items)
    (hremaining : s.remaining = item :: rest) (hcan : ¬ (s.lanes (route item)).CanPush) :
    (s.produce route).rank route = s.rank route ∧
      (s.produce route).helper route = s.helper route := by
  obtain ⟨_, _, _, hring⟩ := (h.lane (route item)).ring
  obtain ⟨hfull, hgo⟩ := not_or.mp hcan
  rcases hcall : (s.lanes (route item)).channel.callPush item with ⟨c, result⟩
  obtain ⟨hresult, hgo', hconsumer, hcache, hcap, hunpopped⟩ :=
    hring.callPush_full hfull hcall hgo
  have hcan' : ¬ Lane.CanPush { s.lanes (route item) with channel := c } := by
    refine not_or.mpr ⟨?_, hgo'⟩
    rw [Channel.HasRoom, SpscRing.capacity, hcap, hunpopped]
    exact hfull
  rw [produce_running hremaining hcall hresult]
  refine rank_eq_of_toPush hremaining hremaining ?_ ?_
  · rw [lanes_setLane_self, Lane.toPush, Lane.toPush, if_neg hcan, if_neg hcan', Lane.toPop,
      Lane.toPop, hconsumer, PopPc.toGo_congr hcache]
  · rw [lanes_setLane_self]
    exact iff_of_false hcan' hcan

/-- The flag goes up. -/
theorem rank_finish (hremaining : s.remaining = []) (hfinished : s.finished = false) :
    (s.produce route).rank route < s.rank route := by
  rw [rank_nil hremaining hfinished, produce_nil hremaining, rank, hremaining]
  exact Prod.Lex.toLex_lt_toLex.mpr (Or.inl Nat.one_pos)

variable [Inhabited α]

/-- The worker of a full ring. -/
theorem Inv.rank_work_full (h : s.Inv route apply init items)
    (hremaining : s.remaining = item :: rest) (hcan : ¬ (s.lanes (route item)).CanPush) :
    (s.step route apply (.worker (route item))).rank route < s.rank route := by
  have hlane := h.lane (route item)
  rw [h.unfinished hremaining] at hlane
  refine rank_lt_of_toPush hremaining hremaining ?_
  rw [Fanout.step, lanes_setLane_self, h.unfinished hremaining]
  exact hlane.toPush_work hcan

/-- Any other worker while there are items left. -/
theorem rank_work (hremaining : s.remaining = item :: rest) {i : ι}
    (hcan : i = route item → (s.lanes (route item)).CanPush) :
    (s.step route apply (.worker i)).rank route = s.rank route ∧
      (s.step route apply (.worker i)).helper route = s.helper route := by
  by_cases hi : i = route item
  · subst hi
    obtain ⟨hcan', heq⟩ := Lane.canPush_work apply s.finished (hcan rfl)
    refine rank_eq_of_toPush hremaining hremaining ?_ ?_
    · rw [step, lanes_setLane_self]
      exact heq
    · rw [step, lanes_setLane_self]
      exact iff_of_true hcan' (hcan rfl)
  · refine rank_eq_of_toPush hremaining hremaining ?_ ?_
    · rw [step, lanes_setLane_of_ne (Ne.symm hi)]
    · rw [step, lanes_setLane_of_ne (Ne.symm hi)]

/-- A worker that has not left, after the flag. -/
theorem Inv.rank_work_finished (h : s.Inv route apply init items) (hfinished : s.finished = true)
    {i : ι} (hi : (s.lanes i).pc ≠ .exited) :
    (s.step route apply (.worker i)).rank route < s.rank route := by
  have hlane := h.lane i
  rw [hfinished] at hlane
  have hremaining := h.finished hfinished
  have hrank : ∀ s' : Fanout ι α σ, s'.remaining = [] → s'.finished = true →
      s'.rank route = toLex (0, ∑ i, (s'.lanes i).toExit) := by
    intro s' hnil hup
    rw [rank, hnil, hup]
    rfl
  rw [hrank (s.step route apply (.worker i)) hremaining hfinished, hrank s hremaining hfinished]
  refine Prod.Lex.toLex_lt_toLex.mpr (Or.inr ⟨rfl, ?_⟩)
  refine Finset.sum_lt_sum (fun j _ => ?_) ⟨i, Finset.mem_univ i, ?_⟩
  · by_cases hj : j = i
    · subst hj
      rw [Fanout.step, lanes_setLane_self, hfinished]
      exact (hlane.work_toExit hi).le
    · rw [Fanout.step, lanes_setLane_of_ne hj]
  · rw [Fanout.step, lanes_setLane_self, hfinished]
    exact hlane.work_toExit hi

omit [Fintype ι] in
/-- A thread that has ended does nothing more. -/
theorem step_of_ended (hfinished : s.finished = true) (hremaining : s.remaining = [])
    {thread : Thread ι} (hthread : ∀ i, thread = .worker i → (s.lanes i).pc = .exited) :
    s.step route apply thread = s := by
  cases thread with
  | producer =>
      rw [step, produce_nil hremaining, ← hfinished]
  | worker i =>
      rw [step, Lane.work, hthread i rfl, setLane, Function.update_eq_self]

variable (route apply init items) in
/-- Some thread always gets on. -/
theorem progress :
    Progress (step route apply) (Inv route apply init items)
      (fun s : Fanout ι α σ => s.Terminated) (rank route) (helper route) where
  inv _ thread h := h.step thread
  helps s h hend := by
    cases hremaining : s.remaining with
    | cons item rest =>
        rw [helper_cons hremaining]
        split_ifs with hcan
        · exact h.rank_produce hremaining hcan
        · exact h.rank_work_full hremaining hcan
    | nil =>
        cases hfinished : s.finished with
        | false =>
            rw [helper_nil hremaining hfinished]
            exact rank_finish hremaining hfinished
        | true =>
            obtain ⟨i, hi, hhelper⟩ :=
              exists_helper route hremaining hfinished (exists_left hfinished hend)
            rw [hhelper]
            exact h.rank_work_finished hfinished hi
  waits s thread h hend := by
    cases hremaining : s.remaining with
    | cons item rest =>
        by_cases hcan : (s.lanes (route item)).CanPush
        · cases thread with
          | producer => exact Or.inl (h.rank_produce hremaining hcan)
          | worker i => exact Or.inr (rank_work hremaining fun _ => hcan)
        · cases thread with
          | producer => exact Or.inr (h.rank_produce_full hremaining hcan)
          | worker i =>
              by_cases hi : i = route item
              · exact Or.inl (hi ▸ h.rank_work_full hremaining hcan)
              · exact Or.inr (rank_work hremaining fun heq => absurd heq hi)
    | nil =>
        cases hfinished : s.finished with
        | false =>
            cases thread with
            | producer => exact Or.inl (rank_finish hremaining hfinished)
            | worker i =>
                refine Or.inr ⟨?_, ?_⟩
                · rw [rank_nil hremaining hfinished]
                  exact rank_nil hremaining hfinished
                · rw [helper_nil hremaining hfinished]
                  exact helper_nil hremaining hfinished
        | true =>
            by_cases hthread : ∀ i, thread = .worker i → (s.lanes i).pc = .exited
            · rw [step_of_ended hfinished hremaining hthread]
              exact Or.inr ⟨rfl, rfl⟩
            · obtain ⟨i, hi⟩ := not_forall.mp hthread
              obtain ⟨rfl, hleft⟩ := Classical.not_imp.mp hi
              exact Or.inl (h.rank_work_finished hfinished hleft)

/-- Under a fair schedule all threads end, and stay so. -/
theorem Inv.exists_terminated (h : s.Inv route apply init items) {schedule : Stream' (Thread ι)}
    (hfair : Fair schedule) : ∃ n, ∀ m, n ≤ m → (s.run route apply (schedule.take m)).Terminated := by
  obtain ⟨n, hn⟩ := (progress route apply init items).exists_final h hfair
  refine ⟨n, fun m hm => ?_⟩
  change (after (Fanout.step route apply) schedule s m).Terminated
  induction m, hm using Nat.le_induction with
  | base => exact hn
  | succ m _ ih =>
      have hinv : (after (Fanout.step route apply) schedule s m).Inv route apply init items :=
        after_invariant (progress route apply init items).inv h m
      rw [after_succ, step_of_ended ih.1 (hinv.finished ih.1) fun i _ => ih.2 i]
      exact ih

end Steps

end Fanout

/-! ### The replays -/

/-- The pipeline hands back what the reference path computes, however long its threads spin. -/
theorem replayPipelined_ends (buf : List UInt8) (book : OrderBook) (ringCapacity : UInt64)
    (hcapacity : ringCapacity.toNat ≤ 2 ^ 63) (schedule : Stream' (Thread Unit))
    (hfair : Fair schedule) :
    ∃ n, ∀ m, n ≤ m →
      replayPipelined buf book ringCapacity (schedule.take m) =
        some (replaySingleThreaded buf book) := by
  obtain ⟨_, -, -, hcap, -⟩ := roundUpPow2_spec hcapacity
  obtain ⟨ring, hring⟩ : ∃ ring : SpscRing Message, SpscRing.new ringCapacity = some ring :=
    ⟨_, congrArg (Option.map _) hcap⟩
  have hstart := Fanout.inv_start (ι := Unit) (fun _ => ()) applyCounting (book, 0)
    (framedMessages buf) hring
  obtain ⟨n, hn⟩ := hstart.exists_terminated hfair
  refine ⟨n, fun m hm => ?_⟩
  have hstate := (hstart.run (schedule.take m)).state_of_terminated (hn m hm) ()
  rw [replayPipelined, pipelinedThreads, hring]
  change (if _ then some _ else none) = _
  have hall : (framedMessages buf).filter (fun _ => decide (() = ())) = framedMessages buf :=
    List.filter_eq_self.mpr fun _ _ => rfl
  rw [if_pos (hn m hm), hstate, replaySingleThreaded, hall]

def takingTurns : Stream' (Thread Unit) := fun n => if n % 2 = 0 then .producer else .worker ()

theorem takingTurns_fair : Fair takingTurns := by
  intro thread n
  cases thread with
  | producer => exact ⟨2 * n, by omega, if_pos (Nat.mul_mod_right 2 n)⟩
  | worker i => exact ⟨2 * n + 1, by omega, if_neg (by omega)⟩

theorem replayPipelined_ends_twoAdds :
    ∃ n, ∀ m, n ≤ m →
      replayPipelined twoAdds .empty 2 (takingTurns.take m) =
        some (replaySingleThreaded twoAdds .empty) :=
  replayPipelined_ends twoAdds .empty 2 (by decide) takingTurns takingTurns_fair

/-- The sharded pipeline ends for every number of workers, with every message handed on. -/
theorem replaySharded_ends (buf : List UInt8) (out : BookSet) (nWorkers : UInt32)
    (schedule : Stream' (Thread (Fin (workerCount nWorkers).toNat))) (hfair : Fair schedule) :
    ∃ n, ∀ m, n ≤ m → ∃ out',
      replaySharded buf out nWorkers (schedule.take m) =
        some (out', (framedMessages buf).length) := by
  obtain ⟨ring, hring⟩ : ∃ ring : SpscRing Message, SpscRing.new 4096 = some ring := ⟨_, rfl⟩
  have hstart := Fanout.inv_start (fun m : Message => shard nWorkers m.stockLocate) BookSet.apply {}
    (framedMessages buf) hring
  obtain ⟨n, hn⟩ := hstart.exists_terminated hfair
  refine ⟨n, fun m hm => ?_⟩
  let s := (Fanout.start ring ({} : BookSet) (framedMessages buf)).run
    (fun m => shard nWorkers m.stockLocate) BookSet.apply (schedule.take m)
  have hsent : s.sent = (framedMessages buf).length :=
    (hstart.run (schedule.take m)).sent_of_terminated (hn m hm)
  refine ⟨out.mergeAll (fun w => (s.lanes w).state) (List.finRange _), ?_⟩
  rw [replaySharded, shardedThreads, hring, ← hsent]
  exact if_pos (hn m hm)

/-- One worker after the other, then the producer. -/
def roundRobin (workers : Nat) : Stream' (Thread (Fin workers)) := fun n =>
  if h : n % (workers + 1) < workers then .worker ⟨n % (workers + 1), h⟩ else .producer

theorem roundRobin_fair (workers : Nat) : Fair (roundRobin workers) := by
  intro thread n
  cases thread with
  | producer =>
      have hmod : ((workers + 1) * n + workers) % (workers + 1) = workers := by
        rw [Nat.mul_add_mod, Nat.mod_eq_of_lt (Nat.lt_succ_self _)]
      refine ⟨(workers + 1) * n + workers, by nlinarith, ?_⟩
      exact dif_neg (by rw [hmod]; exact lt_irrefl _)
  | worker i =>
      have hmod : ((workers + 1) * n + i) % (workers + 1) = i := by
        rw [Nat.mul_add_mod, Nat.mod_eq_of_lt (i.isLt.trans (Nat.lt_succ_self _))]
      refine ⟨(workers + 1) * n + i, by nlinarith, ?_⟩
      refine (dif_pos (by rw [hmod]; exact i.isLt)).trans ?_
      rw [Thread.worker.injEq]
      exact Fin.ext hmod

theorem replaySharded_ends_twoAdds :
    ∃ n, ∀ m, n ≤ m → ∃ out,
      replaySharded twoAdds {} 2 ((roundRobin (workerCount 2).toNat).take m) =
        some (out, (framedMessages twoAdds).length) :=
  replaySharded_ends twoAdds {} 2 (roundRobin _) (roundRobin_fair _)

end HftOrderbook
