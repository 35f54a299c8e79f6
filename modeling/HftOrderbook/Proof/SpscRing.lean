import HftOrderbook.Core.SpscRing
import HftOrderbook.Library.WrappingCounter

/-!
# The ring is a bounded queue

Behind the four wrapping counters stand four natural numbers: how many values have been pushed and
popped, and the popped and pushed counts each side last saw. Each side's stale view errs on the safe
side, and everything within one lap of everything else is compared correctly in spite of the wrap.
-/

namespace HftOrderbook

open WrappingCounter

/-! ### The capacity -/

theorem roundUpLoop_spec {n : UInt64} (hn : n.toNat ≤ 2 ^ 63) (fuel : Nat) :
    ∀ bits, bits + fuel = 64 → (∀ j, j < bits → 2 ^ j < n.toNat) → bits ≤ 63 →
      ∃ k, k ≤ 63 ∧ roundUpLoop n fuel (UInt64.ofNat (2 ^ bits)) = some (UInt64.ofNat (2 ^ k)) ∧
        n.toNat ≤ 2 ^ k ∧ ∀ j, j < k → 2 ^ j < n.toNat := by
  induction fuel with
  | zero =>
      intro bits hbits _ hle
      omega
  | succ fuel ih =>
      intro bits hbits hbelow hle
      have hpow : 2 ^ bits < 2 ^ 64 := Nat.pow_lt_pow_right (by norm_num) (by omega)
      have htoNat : (UInt64.ofNat (2 ^ bits)).toNat = 2 ^ bits := UInt64.toNat_ofNat_of_lt' hpow
      have htest : UInt64.ofNat (2 ^ bits) < n ↔ 2 ^ bits < n.toNat := by
        rw [UInt64.lt_iff_toNat_lt, htoNat]
      unfold roundUpLoop
      by_cases hlt : 2 ^ bits < n.toNat
      · rw [if_pos (htest.mpr hlt)]
        have hbits63 : bits < 63 := by
          by_contra hge
          have : 2 ^ 63 ≤ 2 ^ bits := Nat.pow_le_pow_right (by norm_num) (by omega)
          omega
        rw [shiftLeft_one]
        refine ih (bits + 1) (by omega) (fun j hj => ?_) (by omega)
        rcases Nat.lt_succ_iff_lt_or_eq.mp hj with hj | rfl
        · exact hbelow j hj
        · exact hlt
      · rw [if_neg (fun h => hlt (htest.mp h))]
        exact ⟨bits, hle, rfl, not_lt.mp hlt, hbelow⟩

theorem roundUpPow2_spec {n : UInt64} (hn : n.toNat ≤ 2 ^ 63) :
    ∃ bits, 1 ≤ bits ∧ bits ≤ 63 ∧ roundUpPow2 n = some (UInt64.ofNat (2 ^ bits)) ∧
      IsLeast {p | (∃ j, p = 2 ^ j) ∧ max n.toNat 2 ≤ p} (2 ^ bits) := by
  obtain ⟨k, hk, hloop, hle, hbelow⟩ :=
    roundUpLoop_spec hn 64 0 rfl (fun j hj => absurd hj (Nat.not_lt_zero j)) (by omega)
  have hloop' : roundUpLoop n 64 1 = some (UInt64.ofNat (2 ^ k)) := hloop
  have hpow : 2 ^ k < 2 ^ 64 := Nat.pow_lt_pow_right (by norm_num) (by omega)
  have htest : UInt64.ofNat (2 ^ k) < 2 ↔ k = 0 := by
    rw [UInt64.lt_iff_toNat_lt, UInt64.toNat_ofNat_of_lt' hpow]
    change 2 ^ k < 2 ↔ k = 0
    constructor
    · intro hlt
      by_contra hne
      have : 2 ^ 1 ≤ 2 ^ k := Nat.pow_le_pow_right (by norm_num) (by omega)
      omega
    · rintro rfl
      norm_num
  unfold roundUpPow2
  rw [hloop', Option.map_some]
  by_cases hzero : k = 0
  · subst hzero
    refine ⟨1, le_rfl, by norm_num, by rfl, ⟨⟨1, rfl⟩, ?_⟩, ?_⟩
    · simp only [pow_zero] at hle
      omega
    · rintro p ⟨-, hp⟩
      omega
  · refine ⟨k, by omega, hk, by rw [if_neg (fun h => hzero (htest.mp h))], ⟨⟨k, rfl⟩, ?_⟩, ?_⟩
    · have : 2 ^ 1 ≤ 2 ^ k := Nat.pow_le_pow_right (by norm_num) (by omega)
      omega
    · rintro p ⟨⟨j, rfl⟩, hp⟩
      by_contra hlt
      have hjk : j < k := (Nat.pow_lt_pow_iff_right (by norm_num)).mp (not_le.mp hlt)
      have := hbelow j hjk
      omega

theorem roundUpLoop_eq_none {n : UInt64} (hn : 2 ^ 63 < n.toNat) (fuel : Nat) :
    ∀ bits, bits + fuel = 64 → roundUpLoop n fuel (UInt64.ofNat (2 ^ bits)) = none := by
  induction fuel with
  | zero =>
      rintro bits rfl
      have hlt : UInt64.ofNat (2 ^ 64) < n := by
        rw [UInt64.lt_iff_toNat_lt]
        exact (Nat.zero_le _).trans_lt hn
      exact if_pos hlt
  | succ fuel ih =>
      intro bits hbits
      have hle : 2 ^ bits ≤ 2 ^ 63 := Nat.pow_le_pow_right (by norm_num) (by omega)
      have hlt : UInt64.ofNat (2 ^ bits) < n := by
        rw [UInt64.lt_iff_toNat_lt, UInt64.toNat_ofNat_of_lt' (by change _ < 2 ^ 64; omega)]
        omega
      rw [roundUpLoop, if_pos hlt, shiftLeft_one]
      exact ih (bits + 1) (by omega)

/-- A ring that gets built has a capacity of the right shape: for a larger request the constructor
does not return. -/
theorem roundUpPow2_eq_some {n cap : UInt64} (hcap : roundUpPow2 n = some cap) :
    n.toNat ≤ 2 ^ 63 := by
  by_contra hn
  have hloop := roundUpLoop_eq_none (not_le.mp hn) 64 0 rfl
  change roundUpLoop n 64 1 = none at hloop
  rw [roundUpPow2, hloop] at hcap
  cases hcap

/-! ### What a call records -/

variable {α : Type}

/-- The value a running push carries. -/
def PushPc.item? : PushPc α → Option α
  | .idle | .returned _ => none
  | .loadHead item | .testCache item _ | .loadTail item _ | .storeCache item _ _
  | .retestCache item _ | .storeSlot item _ | .storeHead item _ => some item

def PopPc.isRunning : PopPc α → Bool
  | .idle | .returned _ => false
  | .loadTail | .testCache _ | .loadHead _ | .storeCache _ _ | .retestCache _ | .loadSlot _
  | .storeTail _ _ => true

/-- The value whose push goes on to return `true` between the two states of the producer. -/
def PushPc.completed (before : PushPc α) : PushPc α → Option α
  | .returned true => before.item?
  | _ => none

/-- The value that a pop goes on to return between the two states of the consumer. -/
def PopPc.completed (before : PopPc α) : PopPc α → Option α
  | .returned out => if before.isRunning then out else none
  | _ => none

theorem PushPc.completed_self (pc : PushPc α) : pc.completed pc = none := by
  cases pc with
  | returned ok => cases ok <;> rfl
  | _ => rfl

theorem PushPc.completed_of_item? {before after : PushPc α} {item : α}
    (hafter : after.item? = some item) : before.completed after = none := by
  cases after with
  | returned ok => cases hafter
  | _ => rfl

theorem PopPc.completed_self (pc : PopPc α) : pc.completed pc = none := by
  cases pc <;> rfl

theorem PopPc.completed_of_isRunning {before after : PopPc α} (hafter : after.isRunning = true) :
    before.completed after = none := by
  cases after with
  | returned out => cases hafter
  | _ => rfl

namespace Channel

/-- A push keeps its value until it returns, and it is the pushes returning `true` that grow
`pushed`, each by its own value. -/
structure PushRecords (c c' : Channel α) : Prop where
  pushed : c'.pushed = c.pushed ++ (c.producer.completed c'.producer).toList
  held : ∀ item, c.producer.item? = some item →
    c'.producer.item? = some item ∨ ∃ ok, c'.producer = .returned ok
  returns : ∀ ok, c'.producer = .returned ok →
    c.producer = .returned ok ∨ ∃ item, c.producer.item? = some item

/-- It is the pops returning a value that grow `popped`, each by what it returns. -/
structure PopRecords (c c' : Channel α) : Prop where
  popped : c'.popped = c.popped ++ (c.consumer.completed c'.consumer).toList
  returns : ∀ out, c'.consumer = .returned out →
    c.consumer = .returned out ∨ c.consumer.isRunning = true

def Records (c c' : Channel α) : Prop := c.PushRecords c' ∧ c.PopRecords c'

variable {c c' : Channel α}

theorem PushRecords.of_eq (hproducer : c'.producer = c.producer) (hpushed : c'.pushed = c.pushed) :
    c.PushRecords c' where
  pushed := by
    rw [hproducer, PushPc.completed_self, hpushed, Option.toList_none, List.append_nil]
  held := fun item hitem => .inl (hproducer ▸ hitem)
  returns := fun ok hok => .inl (hproducer ▸ hok)

/-- A step within a push. -/
theorem PushRecords.of_item {item : α} (hbefore : c.producer.item? = some item)
    (hafter : c'.producer.item? = some item) (hpushed : c'.pushed = c.pushed) :
    c.PushRecords c' where
  pushed := by
    rw [PushPc.completed_of_item? hafter, hpushed, Option.toList_none, List.append_nil]
  held := fun other hother => .inl (by rw [hafter, ← hbefore, hother])
  returns := fun ok hok => .inr ⟨item, hbefore⟩

theorem PopRecords.of_eq (hconsumer : c'.consumer = c.consumer) (hpopped : c'.popped = c.popped) :
    c.PopRecords c' where
  popped := by
    rw [hconsumer, PopPc.completed_self, hpopped, Option.toList_none, List.append_nil]
  returns := fun out hout => .inl (hconsumer ▸ hout)

/-- A step within a pop. -/
theorem PopRecords.of_running (hbefore : c.consumer.isRunning = true)
    (hafter : c'.consumer.isRunning = true) (hpopped : c'.popped = c.popped) :
    c.PopRecords c' where
  popped := by
    rw [PopPc.completed_of_isRunning hafter, hpopped, Option.toList_none, List.append_nil]
  returns := fun _ _ => .inr hbefore

theorem pushStep_records (hstep : c.pushStep = some c') : c.Records c' := by
  unfold pushStep at hstep
  cases hpc : c.producer with
  | idle => simp [hpc, SpscRing.pushStep] at hstep
  | returned ok => simp [hpc, SpscRing.pushStep] at hstep
  | retestCache item head =>
      simp only [hpc, SpscRing.pushStep, Option.map_some, Option.some.injEq] at hstep
      subst hstep
      refine ⟨?_, .of_eq rfl rfl⟩
      have hitem : c.producer.item? = some item := by rw [hpc]; rfl
      by_cases hfull : c.ring.looksFull head
      · refine ⟨?_, fun _ _ => .inr ⟨false, if_pos hfull⟩, fun _ _ => .inr ⟨item, hitem⟩⟩
        simp [hfull, PushPc.completed]
      · exact .of_item hitem (by rw [if_neg hfull]; rfl) rfl
  | storeHead item head =>
      simp only [hpc, SpscRing.pushStep, Option.map_some, Option.some.injEq] at hstep
      subst hstep
      have hitem : c.producer.item? = some item := by rw [hpc]; rfl
      refine ⟨⟨?_, fun _ _ => .inr ⟨true, rfl⟩, fun _ _ => .inr ⟨item, hitem⟩⟩, .of_eq rfl rfl⟩
      simp [PushPc.completed, hitem]
  | testCache item head =>
      simp only [hpc, SpscRing.pushStep, Option.map_some, Option.some.injEq] at hstep
      subst hstep
      refine ⟨.of_item (by rw [hpc]; rfl) ?_ rfl, .of_eq rfl rfl⟩
      dsimp only
      split_ifs <;> rfl
  | loadHead item | loadTail item head | storeCache item head tail | storeSlot item head =>
      simp only [hpc, SpscRing.pushStep, Option.map_some, Option.some.injEq] at hstep
      subst hstep
      exact ⟨.of_item (by rw [hpc]; rfl) rfl rfl, .of_eq rfl rfl⟩

theorem popStep_records [Inhabited α] (hstep : c.popStep = some c') : c.Records c' := by
  unfold popStep at hstep
  cases hpc : c.consumer with
  | idle => simp [hpc, SpscRing.popStep] at hstep
  | returned out => simp [hpc, SpscRing.popStep] at hstep
  | retestCache tail =>
      simp only [hpc, SpscRing.popStep, Option.map_some, Option.some.injEq] at hstep
      subst hstep
      refine ⟨.of_eq rfl rfl, ?_⟩
      have hrunning : c.consumer.isRunning = true := by rw [hpc]; rfl
      by_cases hempty : tail = c.ring.headCache
      · refine ⟨?_, fun _ _ => .inr hrunning⟩
        simp [hempty, PopPc.completed]
      · exact .of_running hrunning (by rw [if_neg hempty]; rfl) rfl
  | storeTail tail out =>
      simp only [hpc, SpscRing.popStep, Option.map_some, Option.some.injEq] at hstep
      subst hstep
      have hrunning : c.consumer.isRunning = true := by rw [hpc]; rfl
      refine ⟨.of_eq rfl rfl, ?_, fun _ _ => .inr hrunning⟩
      simp [PopPc.completed, hrunning]
  | testCache tail =>
      simp only [hpc, SpscRing.popStep, Option.map_some, Option.some.injEq] at hstep
      subst hstep
      refine ⟨.of_eq rfl rfl, .of_running (by rw [hpc]; rfl) ?_ rfl⟩
      dsimp only
      split_ifs <;> rfl
  | loadTail | loadHead tail | storeCache tail head | loadSlot tail =>
      simp only [hpc, SpscRing.popStep, Option.map_some, Option.some.injEq] at hstep
      subst hstep
      exact ⟨.of_eq rfl rfl, .of_running (by rw [hpc]; rfl) rfl rfl⟩

theorem callPush_records (item : α) (hidle : c.producer = .idle) :
    c.Records { c with producer := .loadHead item } := by
  refine ⟨⟨(List.append_nil _).symm, fun other hother => ?_, fun ok hok => (by cases hok)⟩,
    .of_eq rfl rfl⟩
  rw [hidle] at hother
  cases hother

theorem returnPush_records {ok : Bool} (hreturned : c.producer = .returned ok) :
    c.Records { c with producer := .idle } := by
  refine ⟨⟨(List.append_nil _).symm, fun other hother => ?_, fun ok hok => (by cases hok)⟩,
    .of_eq rfl rfl⟩
  rw [hreturned] at hother
  cases hother

theorem callPop_records : c.Records { c with consumer := .loadTail } :=
  ⟨.of_eq rfl rfl, (List.append_nil _).symm, fun out hout => by cases hout⟩

theorem returnPop_records : c.Records { c with consumer := .idle } :=
  ⟨.of_eq rfl rfl, (List.append_nil _).symm, fun out hout => by cases hout⟩

theorem Records.refl (c : Channel α) : c.Records c := ⟨.of_eq rfl rfl, .of_eq rfl rfl⟩

theorem Step.records [Inhabited α] (hstep : c.Step c') : c.Records c' := by
  cases hstep with
  | callPush item hidle => exact callPush_records item hidle
  | push hstep => exact pushStep_records hstep
  | returnPush ok hreturned => exact returnPush_records hreturned
  | callPop hidle => exact callPop_records
  | pop hstep => exact popStep_records hstep
  | returnPop out hreturned => exact returnPop_records

end Channel

/-! ### The invariant -/

namespace Channel

/-- What a running push knows. `seen` is the popped count the producer last saw. -/
def ProducerInv (c : Channel α) (bits seen : Nat) : PushPc α → Prop
  | .idle | .loadHead _ => True
  | .testCache _ head | .loadTail _ head => head = UInt64.ofNat c.pushed.length
  | .storeCache _ head tail => head = UInt64.ofNat c.pushed.length ∧
      ∃ loaded, tail = UInt64.ofNat loaded ∧ loaded ≤ c.popped.length ∧
        c.pushed.length ≤ loaded + 2 ^ bits ∧ c.tailLoad = c.pushed.length - loaded
  | .retestCache _ head => head = UInt64.ofNat c.pushed.length ∧
      c.tailLoad = c.pushed.length - seen
  | .storeSlot _ head => head = UInt64.ofNat c.pushed.length ∧ c.pushed.length < seen + 2 ^ bits
  | .storeHead item head => head = UInt64.ofNat c.pushed.length ∧
      c.pushed.length < seen + 2 ^ bits ∧ c.ring.slots[c.pushed.length % 2 ^ bits]? = some item
  | .returned ok => ok = false → c.tailLoad = 2 ^ bits

/-- What a running pop knows. `seen` is the pushed count the consumer last saw. -/
def ConsumerInv (c : Channel α) (seen : Nat) : PopPc α → Prop
  | .idle | .loadTail => True
  | .testCache tail | .loadHead tail => tail = UInt64.ofNat c.popped.length
  | .storeCache tail head => tail = UInt64.ofNat c.popped.length ∧
      ∃ loaded, head = UInt64.ofNat loaded ∧ c.popped.length ≤ loaded ∧
        loaded ≤ c.pushed.length ∧ c.headLoad = loaded - c.popped.length
  | .retestCache tail => tail = UInt64.ofNat c.popped.length ∧
      c.headLoad = seen - c.popped.length
  | .loadSlot tail => tail = UInt64.ofNat c.popped.length ∧ c.popped.length < seen
  | .storeTail tail out => tail = UInt64.ofNat c.popped.length ∧ c.popped.length < seen ∧
      c.pushed[c.popped.length]? = some out
  | .returned none => c.headLoad = 0
  | .returned (some out) => c.popped.getLast? = some out

structure Inv (c : Channel α) (bits tailSeen headSeen : Nat) : Prop where
  bits_le : bits ≤ 63
  cap : c.ring.cap = UInt64.ofNat (2 ^ bits)
  mask : c.ring.mask.toNat = 2 ^ bits - 1
  slots_length : c.ring.slots.length = 2 ^ bits
  head : c.ring.head = UInt64.ofNat c.pushed.length
  tail : c.ring.tail = UInt64.ofNat c.popped.length
  tailCache : c.ring.tailCache = UInt64.ofNat tailSeen
  headCache : c.ring.headCache = UInt64.ofNat headSeen
  tailSeen_le : tailSeen ≤ c.popped.length
  pushed_le : c.pushed.length ≤ tailSeen + 2 ^ bits
  popped_le : c.popped.length ≤ headSeen
  headSeen_le : headSeen ≤ c.pushed.length
  popped_prefix : c.popped <+: c.pushed
  slot : ∀ k, c.popped.length ≤ k → k < c.pushed.length →
    c.ring.slots[k % 2 ^ bits]? = c.pushed[k]?
  producer : c.ProducerInv bits tailSeen c.producer
  consumer : c.ConsumerInv headSeen c.consumer

theorem ConsumerInv.frame {c c' : Channel α} {seen : Nat} {pc : PopPc α}
    (h : c.ConsumerInv seen pc) (hpushed : c.pushed <+: c'.pushed) (hpopped : c'.popped = c.popped)
    (hload : c'.headLoad = c.headLoad) : c'.ConsumerInv seen pc := by
  cases pc with
  | idle => trivial
  | loadTail => trivial
  | testCache tail => exact Eq.trans h (by rw [hpopped])
  | loadHead tail => exact Eq.trans h (by rw [hpopped])
  | storeCache tail head =>
      obtain ⟨htail, loaded, hhead, hle, hle', hseen⟩ := h
      refine ⟨hpopped ▸ htail, loaded, hhead, hpopped ▸ hle, hle'.trans hpushed.length_le, ?_⟩
      rw [hload, hpopped, hseen]
  | retestCache tail => exact ⟨hpopped ▸ h.1, by rw [hload, hpopped, h.2]⟩
  | loadSlot tail => exact ⟨hpopped ▸ h.1, hpopped ▸ h.2⟩
  | storeTail tail out =>
      refine ⟨hpopped ▸ h.1, hpopped ▸ h.2.1, ?_⟩
      have hlt := (List.getElem?_eq_some_iff.mp h.2.2).1
      obtain ⟨rest, hrest⟩ := hpushed
      rw [hpopped, ← hrest, List.getElem?_append_left hlt, h.2.2]
  | returned out =>
      cases out with
      | none => exact hload.trans h
      | some out => exact (congrArg List.getLast? hpopped).trans h

theorem ProducerInv.frame {c c' : Channel α} {bits seen : Nat} {pc : PushPc α}
    (h : c.ProducerInv bits seen pc) (hpushed : c'.pushed = c.pushed)
    (hpopped : c.popped.length ≤ c'.popped.length) (hload : c'.tailLoad = c.tailLoad)
    (hslots : c'.ring.slots = c.ring.slots) : c'.ProducerInv bits seen pc := by
  cases pc with
  | idle => trivial
  | loadHead item => trivial
  | testCache item head => exact Eq.trans h (by rw [hpushed])
  | loadTail item head => exact Eq.trans h (by rw [hpushed])
  | storeCache item head tail =>
      obtain ⟨hhead, loaded, htail, hle, hle', hseen⟩ := h
      refine ⟨hpushed ▸ hhead, loaded, htail, hle.trans hpopped, hpushed ▸ hle', ?_⟩
      rw [hload, hpushed, hseen]
  | retestCache item head => exact ⟨hpushed ▸ h.1, by rw [hload, hpushed, h.2]⟩
  | storeSlot item head => exact ⟨hpushed ▸ h.1, hpushed ▸ h.2⟩
  | storeHead item head =>
      refine ⟨hpushed ▸ h.1, hpushed ▸ h.2.1, ?_⟩
      rw [hslots, hpushed, h.2.2]
  | returned ok => exact fun hok => hload.trans (h hok)

namespace Inv

variable {c : Channel α} {bits tailSeen headSeen : Nat}

theorem two_pow_le (h : c.Inv bits tailSeen headSeen) : 2 ^ bits ≤ 2 ^ 63 :=
  Nat.pow_le_pow_right (by norm_num) h.bits_le

theorem capacity_toNat (h : c.Inv bits tailSeen headSeen) :
    c.ring.capacity.toNat = 2 ^ bits := by
  have hpow := h.two_pow_le
  rw [SpscRing.capacity, h.cap]
  exact UInt64.toNat_ofNat_of_lt' (by change _ < 2 ^ 64; omega)

theorem slot_eq (h : c.Inv bits tailSeen headSeen) (n : Nat) :
    c.ring.slot (UInt64.ofNat n) = n % 2 ^ bits :=
  toNat_and_mask (h.bits_le.trans (by norm_num)) h.mask n

/-- The producer's test is right about its stale view, across the wrap. -/
theorem looksFull_iff (h : c.Inv bits tailSeen headSeen) :
    c.ring.looksFull (UInt64.ofNat c.pushed.length) = true ↔
      c.pushed.length = tailSeen + 2 ^ bits := by
  have hpow := h.two_pow_le
  have hle := h.pushed_le
  have hseen := h.tailSeen_le.trans (h.popped_le.trans h.headSeen_le)
  have hnext : UInt64.ofNat c.pushed.length + 1 = UInt64.ofNat (c.pushed.length + 1) :=
    (UInt64.ofNat_add _ _).symm
  rw [SpscRing.looksFull, decide_eq_true_eq, UInt64.lt_iff_toNat_lt, h.cap, h.tailCache, hnext,
    toNat_sub (by omega) (by omega), UInt64.toNat_ofNat_of_lt' (by change _ < 2 ^ 64; omega)]
  omega

theorem tail_eq_headCache_iff (h : c.Inv bits tailSeen headSeen) :
    UInt64.ofNat c.popped.length = c.ring.headCache ↔ headSeen = c.popped.length := by
  have hpow := h.two_pow_le
  have hle := h.pushed_le
  have hseen := h.tailSeen_le
  have hhead := h.headSeen_le
  rw [h.headCache]
  exact ofNat_eq_iff h.popped_le (by omega)

/-- The slot of the next push is one that no unpopped value is in. -/
theorem slot_ne (h : c.Inv bits tailSeen headSeen) (hroom : c.pushed.length < tailSeen + 2 ^ bits)
    {k : Nat} (hle : c.popped.length ≤ k) (hlt : k < c.pushed.length) :
    k % 2 ^ bits ≠ c.pushed.length % 2 ^ bits := by
  have hseen := h.tailSeen_le
  exact mod_ne_mod hlt (by omega)

theorem storeSlot (h : c.Inv bits tailSeen headSeen) (item : α) {head : UInt64}
    (hhead : head = UInt64.ofNat c.pushed.length) (hroom : c.pushed.length < tailSeen + 2 ^ bits) :
    ({ c with
      ring := { c.ring with slots := c.ring.slots.set (c.ring.slot head) item }
      producer := .storeHead item head } : Channel α).Inv bits tailSeen headSeen := by
  have hslot : c.ring.slot head = c.pushed.length % 2 ^ bits := by rw [hhead, h.slot_eq]
  have hlt : c.pushed.length % 2 ^ bits < c.ring.slots.length := by
    rw [h.slots_length]
    exact Nat.mod_lt _ (Nat.two_pow_pos bits)
  refine { h with slots_length := ?_, slot := ?_, producer := ⟨hhead, hroom, ?_⟩ }
  · exact List.length_set.trans h.slots_length
  · intro k hle hk
    rw [hslot, List.getElem?_set_ne (h.slot_ne hroom hle hk).symm]
    exact h.slot k hle hk
  · rw [hslot]
    exact List.getElem?_set_self hlt

theorem storeHead (h : c.Inv bits tailSeen headSeen) {item : α} {head : UInt64}
    (hhead : head = UInt64.ofNat c.pushed.length) (hroom : c.pushed.length < tailSeen + 2 ^ bits)
    (hwritten : c.ring.slots[c.pushed.length % 2 ^ bits]? = some item) :
    ({ c with
      ring := { c.ring with head := head + 1 }
      producer := .returned true
      pushed := c.pushed ++ [item] } : Channel α).Inv bits tailSeen headSeen := by
  have hpre : c.pushed <+: c.pushed ++ [item] := List.prefix_append _ _
  refine { h with
    head := ?_
    pushed_le := ?_
    headSeen_le := h.headSeen_le.trans hpre.length_le
    popped_prefix := h.popped_prefix.trans hpre
    slot := ?_
    producer := fun hok => by cases hok
    consumer := h.consumer.frame hpre rfl rfl }
  · rw [hhead, List.length_append]
    exact (UInt64.ofNat_add _ _).symm
  · rw [List.length_append]
    exact hroom
  · intro k hle hk
    rw [List.length_append, List.length_singleton] at hk
    rcases Nat.lt_succ_iff_lt_or_eq.mp hk with hk | rfl
    · rw [List.getElem?_append_left hk]
      exact h.slot k hle hk
    · rw [List.getElem?_concat_length]
      exact hwritten

theorem storeTail (h : c.Inv bits tailSeen headSeen) {out : α} {tail : UInt64}
    (htail : tail = UInt64.ofNat c.popped.length) (hlt : c.popped.length < headSeen)
    (hout : c.pushed[c.popped.length]? = some out) :
    ({ c with
      ring := { c.ring with tail := tail + 1 }
      consumer := .returned (some out)
      popped := c.popped ++ [out] } : Channel α).Inv bits tailSeen headSeen := by
  have hlength : (c.popped ++ [out]).length = c.popped.length + 1 := by simp
  -- the value read is the next pushed one, so the popped values stay a prefix
  have hpre : c.popped ++ [out] <+: c.pushed := by
    obtain ⟨rest, hrest⟩ := h.popped_prefix
    rw [← hrest, List.getElem?_append_right le_rfl, Nat.sub_self] at hout
    cases rest with
    | nil => simp at hout
    | cons first rest =>
        obtain rfl : first = out := by simpa using hout
        exact ⟨rest, by rw [List.append_assoc]; exact hrest⟩
  refine { h with
    tail := ?_
    tailSeen_le := h.tailSeen_le.trans (hlength ▸ Nat.le_succ _)
    popped_le := hlength ▸ hlt
    popped_prefix := hpre
    slot := fun k hle hk => h.slot k ((Nat.le_succ _).trans (hlength.ge.trans hle)) hk
    producer := h.producer.frame rfl (hlength ▸ Nat.le_succ _) rfl rfl
    consumer := List.getLast?_concat }
  rw [htail, hlength]
  exact (UInt64.ofNat_add _ _).symm

theorem pushStep (h : c.Inv bits tailSeen headSeen) {c' : Channel α}
    (hstep : c.pushStep = some c') : ∃ tailSeen', c'.Inv bits tailSeen' headSeen := by
  have hproducer := h.producer
  unfold Channel.pushStep at hstep
  cases hpc : c.producer with
  | idle => simp [hpc, SpscRing.pushStep] at hstep
  | returned ok => simp [hpc, SpscRing.pushStep] at hstep
  | loadHead item =>
      simp only [hpc, SpscRing.pushStep, Option.map_some, Option.some.injEq] at hstep
      subst hstep
      exact ⟨tailSeen, { h with producer := h.head }⟩
  | testCache item head =>
      rw [hpc] at hproducer
      simp only [hpc, SpscRing.pushStep, Option.map_some, Option.some.injEq] at hstep
      subst hstep
      have hhead : head = UInt64.ofNat c.pushed.length := hproducer
      refine ⟨tailSeen, { h with producer := ?_ }⟩
      dsimp only
      split_ifs with hfull
      · exact hhead
      · rw [hhead, h.looksFull_iff] at hfull
        exact ⟨hhead, lt_of_le_of_ne h.pushed_le hfull⟩
  | loadTail item head =>
      rw [hpc] at hproducer
      simp only [hpc, SpscRing.pushStep, Option.map_some, Option.some.injEq] at hstep
      subst hstep
      have hseen := h.tailSeen_le
      have hle := h.pushed_le
      refine ⟨tailSeen, { h with
        producer := ⟨hproducer, c.popped.length, h.tail, le_rfl, ?_, rfl⟩ }⟩
      exact hle.trans (Nat.add_le_add_right hseen _)
  | storeCache item head tail =>
      rw [hpc] at hproducer
      obtain ⟨hhead, loaded, htail, hle, hle', hload⟩ := hproducer
      simp only [hpc, SpscRing.pushStep, Option.map_some, Option.some.injEq] at hstep
      subst hstep
      exact ⟨loaded, { h with
        tailCache := htail
        tailSeen_le := hle
        pushed_le := hle'
        producer := ⟨hhead, hload⟩ }⟩
  | retestCache item head =>
      rw [hpc] at hproducer
      obtain ⟨hhead, hload⟩ := hproducer
      simp only [hpc, SpscRing.pushStep, Option.map_some, Option.some.injEq] at hstep
      subst hstep
      refine ⟨tailSeen, { h with producer := ?_ }⟩
      dsimp only
      split_ifs with hfull
      · rw [hhead, h.looksFull_iff] at hfull
        exact fun _ => by rw [hload, hfull, Nat.add_sub_cancel_left]
      · rw [hhead, h.looksFull_iff] at hfull
        exact ⟨hhead, lt_of_le_of_ne h.pushed_le hfull⟩
  | storeSlot item head =>
      rw [hpc] at hproducer
      obtain ⟨hhead, hroom⟩ := hproducer
      simp only [hpc, SpscRing.pushStep, Option.map_some, Option.some.injEq] at hstep
      subst hstep
      exact ⟨tailSeen, h.storeSlot item hhead hroom⟩
  | storeHead item head =>
      rw [hpc] at hproducer
      obtain ⟨hhead, hroom, hwritten⟩ := hproducer
      simp only [hpc, SpscRing.pushStep, Option.map_some, Option.some.injEq] at hstep
      subst hstep
      exact ⟨tailSeen, h.storeHead hhead hroom hwritten⟩

theorem popStep [Inhabited α] (h : c.Inv bits tailSeen headSeen) {c' : Channel α}
    (hstep : c.popStep = some c') : ∃ headSeen', c'.Inv bits tailSeen headSeen' := by
  have hconsumer := h.consumer
  unfold Channel.popStep at hstep
  cases hpc : c.consumer with
  | idle => simp [hpc, SpscRing.popStep] at hstep
  | returned out => simp [hpc, SpscRing.popStep] at hstep
  | loadTail =>
      simp only [hpc, SpscRing.popStep, Option.map_some, Option.some.injEq] at hstep
      subst hstep
      exact ⟨headSeen, { h with consumer := h.tail }⟩
  | testCache tail =>
      rw [hpc] at hconsumer
      simp only [hpc, SpscRing.popStep, Option.map_some, Option.some.injEq] at hstep
      subst hstep
      have htail : tail = UInt64.ofNat c.popped.length := hconsumer
      refine ⟨headSeen, { h with consumer := ?_ }⟩
      dsimp only
      split_ifs with hempty
      · exact htail
      · rw [htail, h.tail_eq_headCache_iff] at hempty
        exact ⟨htail, lt_of_le_of_ne h.popped_le (Ne.symm hempty)⟩
  | loadHead tail =>
      rw [hpc] at hconsumer
      simp only [hpc, SpscRing.popStep, Option.map_some, Option.some.injEq] at hstep
      subst hstep
      exact ⟨headSeen, { h with
        consumer := ⟨hconsumer, c.pushed.length, h.head, h.popped_prefix.length_le, le_rfl, rfl⟩ }⟩
  | storeCache tail head =>
      rw [hpc] at hconsumer
      obtain ⟨htail, loaded, hhead, hle, hle', hload⟩ := hconsumer
      simp only [hpc, SpscRing.popStep, Option.map_some, Option.some.injEq] at hstep
      subst hstep
      exact ⟨loaded, { h with
        headCache := hhead
        popped_le := hle
        headSeen_le := hle'
        consumer := ⟨htail, hload⟩ }⟩
  | retestCache tail =>
      rw [hpc] at hconsumer
      obtain ⟨htail, hload⟩ := hconsumer
      simp only [hpc, SpscRing.popStep, Option.map_some, Option.some.injEq] at hstep
      subst hstep
      refine ⟨headSeen, { h with consumer := ?_ }⟩
      dsimp only
      split_ifs with hempty
      · rw [htail, h.tail_eq_headCache_iff] at hempty
        exact hload.trans (by rw [hempty, Nat.sub_self])
      · rw [htail, h.tail_eq_headCache_iff] at hempty
        exact ⟨htail, lt_of_le_of_ne h.popped_le (Ne.symm hempty)⟩
  | loadSlot tail =>
      rw [hpc] at hconsumer
      obtain ⟨htail, hlt⟩ := hconsumer
      simp only [hpc, SpscRing.popStep, Option.map_some, Option.some.injEq] at hstep
      subst hstep
      have hread := h.slot c.popped.length le_rfl (hlt.trans_le h.headSeen_le)
      refine ⟨headSeen, { h with consumer := ⟨htail, hlt, ?_⟩ }⟩
      rw [htail, h.slot_eq, List.getD_eq_getElem?_getD, hread,
        List.getElem?_eq_getElem (hlt.trans_le h.headSeen_le)]
      rfl
  | storeTail tail out =>
      rw [hpc] at hconsumer
      obtain ⟨htail, hlt, hout⟩ := hconsumer
      simp only [hpc, SpscRing.popStep, Option.map_some, Option.some.injEq] at hstep
      subst hstep
      exact ⟨headSeen, h.storeTail htail hlt hout⟩

theorem step [Inhabited α] (h : c.Inv bits tailSeen headSeen) {c' : Channel α} (hstep : c.Step c') :
    ∃ tailSeen' headSeen', c'.Inv bits tailSeen' headSeen' := by
  cases hstep with
  | callPush item hidle => exact ⟨tailSeen, headSeen, { h with producer := trivial }⟩
  | push hstep =>
      obtain ⟨tailSeen', h'⟩ := h.pushStep hstep
      exact ⟨tailSeen', headSeen, h'⟩
  | returnPush ok hreturned => exact ⟨tailSeen, headSeen, { h with producer := trivial }⟩
  | callPop hidle => exact ⟨tailSeen, headSeen, { h with consumer := trivial }⟩
  | pop hstep =>
      obtain ⟨headSeen', h'⟩ := h.popStep hstep
      exact ⟨tailSeen, headSeen', h'⟩
  | returnPop out hreturned => exact ⟨tailSeen, headSeen, { h with consumer := trivial }⟩

end Inv

theorem inv_of_reachable [Inhabited α] {c c' : Channel α} {bits tailSeen headSeen : Nat}
    (h : c.Inv bits tailSeen headSeen) (hreach : Relation.ReflTransGen Step c c') :
    ∃ tailSeen' headSeen', c'.Inv bits tailSeen' headSeen' := by
  induction hreach with
  | refl => exact ⟨tailSeen, headSeen, h⟩
  | tail _ hstep ih =>
      obtain ⟨_, _, h'⟩ := ih
      exact h'.step hstep

theorem inv_new [Inhabited α] {n : UInt64} {ring : SpscRing α}
    (hring : SpscRing.new n = some ring) :
    ∃ bits, ({ ring := ring } : Channel α).Inv bits 0 0 ∧
      IsLeast {p | (∃ j, p = 2 ^ j) ∧ max n.toNat 2 ≤ p} (2 ^ bits) := by
  obtain ⟨cap, hcap, rfl⟩ := Option.map_eq_some_iff.mp hring
  obtain ⟨bits, -, hbits, hcap', hleast⟩ := roundUpPow2_spec (roundUpPow2_eq_some hcap)
  obtain rfl : cap = UInt64.ofNat (2 ^ bits) := Option.some.inj (hcap.symm.trans hcap')
  have hpow : 2 ^ bits < 2 ^ 64 := Nat.pow_lt_pow_right (by norm_num) (by omega)
  have htoNat : (UInt64.ofNat (2 ^ bits)).toNat = 2 ^ bits := UInt64.toNat_ofNat_of_lt' hpow
  have hone : (1 : UInt64) ≤ UInt64.ofNat (2 ^ bits) := by
    rw [UInt64.le_iff_toNat_le, htoNat]
    exact Nat.one_le_two_pow
  refine ⟨bits, ?_, hleast⟩
  exact
    { bits_le := hbits
      cap := rfl
      mask := by rw [UInt64.toNat_sub_of_le _ _ hone, htoNat]; rfl
      slots_length := by rw [List.length_replicate, htoNat]
      head := rfl
      tail := rfl
      tailCache := rfl
      headCache := rfl
      tailSeen_le := le_rfl
      pushed_le := Nat.zero_le _
      popped_le := le_rfl
      headSeen_le := le_rfl
      popped_prefix := List.prefix_rfl
      slot := fun k _ hk => absurd hk (Nat.not_lt_zero k)
      producer := trivial
      consumer := trivial }

end Channel

/-- For every requested capacity up to `2 ^ 63` and every interleaving of one producer and one
consumer. -/
theorem spscRing_bounded_fifo {α : Type} [Inhabited α] (n : UInt64) (hn : n.toNat ≤ 2 ^ 63) :
    ∃ ring : SpscRing α, SpscRing.new n = some ring ∧
      IsLeast {p | (∃ j, p = 2 ^ j) ∧ max n.toNat 2 ≤ p} ring.capacity.toNat ∧
      ∀ c : Channel α, Relation.ReflTransGen Channel.Step { ring := ring } c →
        c.ring.capacity = ring.capacity ∧
        c.popped <+: c.pushed ∧
        c.pushed.length - c.popped.length ≤ ring.capacity.toNat ∧
        (∀ item head, c.producer = .storeSlot item head →
          c.ring.slot head < c.ring.slots.length ∧
          ∀ k, c.popped.length ≤ k → k < c.pushed.length →
            c.ring.slots[c.ring.slot (UInt64.ofNat k)]? = c.pushed[k]? ∧
            c.ring.slot (UInt64.ofNat k) ≠ c.ring.slot head) ∧
        (c.producer = .returned false → c.tailLoad = ring.capacity.toNat) ∧
        (c.consumer = .returned none → c.headLoad = 0) ∧
        ∀ c', c.Step c' → c.Records c' := by
  obtain ⟨_, -, -, hcap, -⟩ := roundUpPow2_spec hn
  obtain ⟨ring, hring⟩ : ∃ ring : SpscRing α, SpscRing.new n = some ring :=
    ⟨_, congrArg (Option.map _) hcap⟩
  obtain ⟨bits, hinit, hleast⟩ := Channel.inv_new hring
  have hcapacity : ring.capacity.toNat = 2 ^ bits := hinit.capacity_toNat
  refine ⟨ring, hring, hcapacity ▸ hleast, fun c hreach => ?_⟩
  obtain ⟨tailSeen, headSeen, hinv⟩ := Channel.inv_of_reachable hinit hreach
  have hseen := hinv.tailSeen_le
  have hle := hinv.pushed_le
  have hproducer := hinv.producer
  have hconsumer := hinv.consumer
  rw [hcapacity]
  refine ⟨hinv.cap.trans hinit.cap.symm, hinv.popped_prefix, by omega, fun item head hpc => ?_,
    fun hpc => ?_, fun hpc => ?_, fun c' hstep => hstep.records⟩
  · rw [hpc] at hproducer
    obtain ⟨rfl, hroom⟩ := hproducer
    simp only [hinv.slot_eq]
    refine ⟨?_, fun k hpopped hpushed => ⟨hinv.slot k hpopped hpushed, ?_⟩⟩
    · rw [hinv.slots_length]
      exact Nat.mod_lt _ (Nat.two_pow_pos bits)
    · exact hinv.slot_ne hroom hpopped hpushed
  · rw [hpc] at hproducer
    exact hproducer rfl
  · rw [hpc] at hconsumer
    exact hconsumer

theorem spscRing_bounded_fifo_three :
    ∃ ring : SpscRing Nat, SpscRing.new 3 = some ring ∧ ring.capacity = 4 ∧
      ∀ c : Channel Nat, Relation.ReflTransGen Channel.Step { ring := ring } c →
        c.popped <+: c.pushed ∧ c.pushed.length - c.popped.length ≤ 4 := by
  obtain ⟨ring, hring, -, hrun⟩ := spscRing_bounded_fifo (α := Nat) 3 (by decide)
  have hcapacity : ring.capacity = 4 := by
    obtain ⟨cap, hcap, rfl⟩ := Option.map_eq_some_iff.mp hring
    exact Option.some.inj (hcap.symm.trans (by decide))
  refine ⟨ring, hring, hcapacity, fun c hreach => ?_⟩
  obtain ⟨-, hpre, hle, -⟩ := hrun c hreach
  rw [hcapacity] at hle
  exact ⟨hpre, hle⟩

end HftOrderbook
