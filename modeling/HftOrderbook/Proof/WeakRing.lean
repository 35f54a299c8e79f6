import HftOrderbook.Core.WeakRing
import HftOrderbook.Proof.RingObservers

/-!
# The memory orders are strong enough

A side may read a counter late, but never one older than what it has read before, and that is all
the old proof needs of a load. An access to a slot is followed by a release of the own counter, and
the other side touches the slot only after it has acquired that counter, so the accesses to a slot
are ordered.
-/

namespace HftOrderbook

open ReleaseAcquire WrappingCounter

namespace Channel.Inv

variable {α : Type} {c : Channel α} {bits tailSeen headSeen n : Nat}

/-- Within a lap the cached counter says which count it is. -/
theorem tailSeen_eq (h : c.Inv bits tailSeen headSeen) (hcache : c.ring.tailCache = UInt64.ofNat n)
    (hle : n ≤ c.popped.length) (hpushed : c.pushed.length ≤ n + 2 ^ bits) : tailSeen = n := by
  have hpow := h.two_pow_le
  have hseen := h.tailSeen_le
  have hlen := h.pushed_le
  have hpopped := h.popped_prefix.length_le
  rw [h.tailCache] at hcache
  rcases le_total tailSeen n with hlt | hlt
  · exact ((ofNat_eq_iff hlt (by omega)).mp hcache).symm
  · exact (ofNat_eq_iff hlt (by omega)).mp hcache.symm

theorem headSeen_eq (h : c.Inv bits tailSeen headSeen) (hcache : c.ring.headCache = UInt64.ofNat n)
    (hle : c.popped.length ≤ n) (hpushed : n ≤ c.pushed.length) : headSeen = n := by
  have hpow := h.two_pow_le
  have hseen := h.tailSeen_le
  have hlen := h.pushed_le
  have hpopped := h.popped_le
  have hhead := h.headSeen_le
  rw [h.headCache] at hcache
  rcases le_total headSeen n with hlt | hlt
  · exact ((ofNat_eq_iff hlt (by omega)).mp hcache).symm
  · exact (ofNat_eq_iff hlt (by omega)).mp hcache.symm

end Channel.Inv

namespace WeakRing

variable {T α : Type}

/-! ### The accesses to a slot -/

/-- The access recorded as event `n` was to the place `k` that the slot `q` stands for, and the store
that published it covers it; or it is the one inside the running call. -/
def Covered (history : History T UInt64) (t : T) (clock : Clock T) (count bits q : Nat)
    (inside : Prop) (n : Nat) : Prop :=
  n = 0 ∨ ∃ k, k % 2 ^ bits = q ∧
    (k < count ∧ (∃ m, history[k + 1]? = some m ∧ n ≤ m.clock t) ∨
      k = count ∧ inside ∧ n ≤ clock t)

namespace Covered

variable {history : History T UInt64} {t : T} {clock clock' : Clock T} {count bits q n : Nat}
  {inside inside' : Prop}

theorem mono (h : Covered history t clock count bits q inside n) (hle : clock ≤ clock')
    (hinside : inside → inside') : Covered history t clock' count bits q inside' n := by
  rcases h with h | ⟨k, hk, h | ⟨hcount, hin, hn⟩⟩
  · exact Or.inl h
  · exact Or.inr ⟨k, hk, Or.inl h⟩
  · exact Or.inr ⟨k, hk, Or.inr ⟨hcount, hinside hin, hn.trans (hle t)⟩⟩

/-- The store that publishes the access inside the call. -/
theorem release (h : Covered history t clock count bits q inside n)
    (hlength : history.length = count + 1) (v : UInt64) :
    Covered (history ++ [⟨v, clock⟩]) t clock' (count + 1) bits q inside' n := by
  rcases h with h | ⟨k, hk, ⟨hlt, m, hm, hn⟩ | ⟨rfl, -, hn⟩⟩
  · exact Or.inl h
  · refine Or.inr ⟨k, hk, Or.inl ⟨hlt.trans (Nat.lt_succ_self _), m, ?_, hn⟩⟩
    rwa [List.getElem?_append_left (by omega)]
  · refine Or.inr ⟨k, hk, Or.inl ⟨Nat.lt_succ_self _, ⟨v, clock⟩, ?_, hn⟩⟩
    rw [← hlength, List.getElem?_concat_length]

/-- Who knows the stores of all the places a slot has stood for knows the access. -/
theorem le_of_knows (h : Covered history t clock count bits q inside n)
    (hlength : history.length = count + 1) (hstamped : Stamped history t clock) {j : Nat}
    (hknown : Knows history t clock' j)
    (hplaces : ∀ k, k % 2 ^ bits = q → k < count ∨ k = count ∧ inside → k + 1 ≤ j) :
    n ≤ clock' t := by
  have hj := hknown.lt_length
  rcases h with rfl | ⟨k, hk, ⟨hlt, m, hm, hn⟩ | ⟨rfl, hin, -⟩⟩
  · exact Nat.zero_le _
  · obtain ⟨m', hm', hle⟩ := hknown
    exact (hn.trans (hstamped.le hm hm' (hplaces k hk (Or.inl hlt)))).trans hle
  · have hle := hplaces k hk (Or.inr ⟨rfl, hin⟩)
    omega

end Covered

/-- The stores to a counter count. -/
theorem value_append {history : History T UInt64} {count : Nat} {value : UInt64} {clock : Clock T}
    (hvalue : ∀ k m, history[k]? = some m → m.value = UInt64.ofNat k)
    (hlength : history.length = count + 1) (hcount : value = UInt64.ofNat count) :
    ∀ k m, (history ++ [⟨value + 1, clock⟩])[k]? = some m → m.value = UInt64.ofNat k := by
  intro k m hm
  rcases lt_or_ge k history.length with hlt | hge
  · rw [List.getElem?_append_left hlt] at hm
    exact hvalue k m hm
  · rw [List.getElem?_append_right hge, List.getElem?_singleton] at hm
    split_ifs at hm with hk
    obtain rfl := Option.some.inj hm
    obtain rfl : k = count + 1 := by omega
    rw [hcount]
    exact (UInt64.ofNat_add _ _).symm

/-! ### The invariant -/

/-- The producer has written a slot and not yet published it. -/
def Storing (w : WeakRing T α) : Prop := ∃ item head, w.channel.producer = .storeHead item head

/-- The consumer has read a slot and not yet given it back. -/
def Taking (w : WeakRing T α) : Prop := ∃ tail out, w.channel.consumer = .storeTail tail out

structure Touched (p c : T) (kp kc : Clock T) (bits : Nat) (w : WeakRing T α) (q : Nat)
    (a : Accesses T) : Prop where
  writes : ∀ t, t ≠ p → a.writes t = 0
  reads : ∀ t, t ≠ c → a.reads t = 0
  written : Covered w.heads p kp w.channel.pushed.length bits q w.Storing (a.writes p)
  read : Covered w.tails c kc w.channel.popped.length bits q w.Taking (a.reads c)

/-- `kp` and `kc` are the clocks of the two sides. -/
structure Inv (p c : T) (kp kc : Clock T) (bits tailSeen headSeen : Nat) (w : WeakRing T α) :
    Prop where
  channel : w.channel.Inv bits tailSeen headSeen
  heads_length : w.heads.length = w.channel.pushed.length + 1
  tails_length : w.tails.length = w.channel.popped.length + 1
  heads_value : ∀ k m, w.heads[k]? = some m → m.value = UInt64.ofNat k
  tails_value : ∀ k m, w.tails[k]? = some m → m.value = UInt64.ofNat k
  heads_stamped : Stamped w.heads p kp
  tails_stamped : Stamped w.tails c kc
  tail_known : Knows w.tails c kp tailSeen
  head_known : Knows w.heads p kc headSeen
  tails_know : ∀ k m, w.tails[k]? = some m → Knows w.heads p m.clock k
  pushing : ∀ item head tail, w.channel.producer = .storeCache item head tail →
    ∃ loaded, tail = UInt64.ofNat loaded ∧ tailSeen ≤ loaded ∧ Knows w.tails c kp loaded
  popping : ∀ tail head, w.channel.consumer = .storeCache tail head →
    ∃ loaded, head = UInt64.ofNat loaded ∧ headSeen ≤ loaded ∧ Knows w.heads p kc loaded
  accesses_length : w.accesses.length = 2 ^ bits
  accesses : ∀ q a, w.accesses[q]? = some a → w.Touched p c kp kc bits q a

namespace Inv

variable {p c : T} {kp kc kp' kc' : Clock T} {bits tailSeen headSeen : Nat} {w w' : WeakRing T α}

/-- Every access to a slot that is about to happen is ordered. -/
theorem raceFree (h : w.Inv p c kp kc bits tailSeen headSeen) {clocks : T → Clock T}
    (hp : clocks p = kp) (hc : clocks c = kc) : w.RaceFree p c clocks := by
  have hseen := h.channel.tailSeen_le
  have hpushed := h.channel.pushed_le
  have hpopped := h.channel.popped_le
  have hhead := h.channel.headSeen_le
  have hfound (n : Nat) : ∃ a, w.accesses[n % 2 ^ bits]? = some a := by
    refine ⟨_, List.getElem?_eq_getElem ?_⟩
    rw [h.accesses_length]
    exact Nat.mod_lt n (Nat.two_pow_pos bits)
  constructor
  · intro item head hpc
    have hproducer := h.channel.producer
    rw [hpc] at hproducer
    obtain ⟨rfl, hroom⟩ := hproducer
    rw [h.channel.slot_eq]
    obtain ⟨a, ha⟩ := hfound w.channel.pushed.length
    have htouched := h.accesses _ a ha
    refine ⟨a, ha, fun u hu => ?_⟩
    rw [hp, htouched.writes u hu]
    refine ⟨Nat.zero_le _, ?_⟩
    by_cases huc : u = c
    · subst huc
      refine htouched.read.le_of_knows h.tails_length h.tails_stamped h.tail_known
        fun k hk hplace => ?_
      -- a slot that was read before stood for a place at least a lap back
      have hlt : k < w.channel.pushed.length := by
        rcases hplace with hlt | ⟨rfl, tail, out, htaking⟩
        · omega
        · have hconsumer := h.channel.consumer
          rw [htaking] at hconsumer
          exact hconsumer.2.1.trans_le hhead
      by_contra hlate
      exact mod_ne_mod hlt (by omega) hk
    · rw [htouched.reads u huc]
      exact Nat.zero_le _
  · intro tail hpc
    have hconsumer := h.channel.consumer
    rw [hpc] at hconsumer
    obtain ⟨rfl, hlt⟩ := hconsumer
    rw [h.channel.slot_eq]
    obtain ⟨a, ha⟩ := hfound w.channel.popped.length
    have htouched := h.accesses _ a ha
    refine ⟨a, ha, fun u hu => ?_⟩
    rw [hc]
    by_cases hup : u = p
    · subst hup
      refine htouched.written.le_of_knows h.heads_length h.heads_stamped h.head_known
        fun k hk hplace => ?_
      -- nothing more than a lap ahead has been written
      have hlap : k < w.channel.popped.length + 2 ^ bits := by
        rcases hplace with hlt | ⟨rfl, item, head, hstoring⟩
        · omega
        · have hproducer := h.channel.producer
          rw [hstoring] at hproducer
          have hroom := hproducer.2.1
          omega
      by_contra hlate
      exact mod_ne_mod (show w.channel.popped.length < k by omega) hlap hk.symm
    · rw [htouched.writes u hup]
      exact Nat.zero_le _

/-- Clocks that run on take nothing away. -/
theorem mono (h : w.Inv p c kp kc bits tailSeen headSeen) (hp : kp ≤ kp') (hc : kc ≤ kc') :
    w.Inv p c kp' kc' bits tailSeen headSeen :=
  { h with
    heads_stamped := h.heads_stamped.mono hp
    tails_stamped := h.tails_stamped.mono hc
    tail_known := h.tail_known.mono hp
    head_known := h.head_known.mono hc
    pushing := fun item head tail hpc => by
      obtain ⟨loaded, htail, hle, hknown⟩ := h.pushing item head tail hpc
      exact ⟨loaded, htail, hle, hknown.mono hp⟩
    popping := fun tail head hpc => by
      obtain ⟨loaded, hhead, hle, hknown⟩ := h.popping tail head hpc
      exact ⟨loaded, hhead, hle, hknown.mono hc⟩
    accesses := fun q a ha =>
      { h.accesses q a ha with
        written := (h.accesses q a ha).written.mono hp id
        read := (h.accesses q a ha).read.mono hc id } }

/-- A step that stores to no counter and touches no slot. -/
theorem update (h : w.Inv p c kp kc bits tailSeen headSeen) {next : Channel α}
    {tailSeen' headSeen' : Nat} (hnext : next.Inv bits tailSeen' headSeen')
    (hpushed : next.pushed = w.channel.pushed) (hpopped : next.popped = w.channel.popped)
    (htail : Knows w.tails c kp tailSeen') (hhead : Knows w.heads p kc headSeen')
    (hpushing : ∀ item head tail, next.producer = .storeCache item head tail →
      ∃ loaded, tail = UInt64.ofNat loaded ∧ tailSeen' ≤ loaded ∧ Knows w.tails c kp loaded)
    (hpopping : ∀ tail head, next.consumer = .storeCache tail head →
      ∃ loaded, head = UInt64.ofNat loaded ∧ headSeen' ≤ loaded ∧ Knows w.heads p kc loaded)
    (hstoring : w.Storing → ({ w with channel := next } : WeakRing T α).Storing)
    (htaking : w.Taking → ({ w with channel := next } : WeakRing T α).Taking) :
    ({ w with channel := next } : WeakRing T α).Inv p c kp kc bits tailSeen' headSeen' :=
  { channel := hnext
    heads_length := h.heads_length.trans (by rw [hpushed])
    tails_length := h.tails_length.trans (by rw [hpopped])
    heads_value := h.heads_value
    tails_value := h.tails_value
    heads_stamped := h.heads_stamped
    tails_stamped := h.tails_stamped
    tail_known := htail
    head_known := hhead
    tails_know := h.tails_know
    pushing := hpushing
    popping := hpopping
    accesses_length := h.accesses_length
    accesses := fun q a ha =>
      { writes := (h.accesses q a ha).writes
        reads := (h.accesses q a ha).reads
        written := hpushed ▸ (h.accesses q a ha).written.mono le_rfl hstoring
        read := hpopped ▸ (h.accesses q a ha).read.mono le_rfl htaking } }

/-! ### The producer's accesses -/

theorem loadTail (h : w.Inv p c kp kc bits tailSeen headSeen) {item : α} {head : UInt64} {i : Nat}
    {m : Write T UInt64} (hpc : w.channel.producer = .loadTail item head)
    (hread : Reads w.tails c kp i m) :
    ({ w with channel := { w.channel with
      producer := .storeCache item head m.value
      tailLoad := w.channel.pushed.length - i } } : WeakRing T α).Inv
        p c (kp ⊔ m.clock) kc bits tailSeen headSeen := by
  have hproducer := h.channel.producer
  rw [hpc] at hproducer
  have hle := hread.le h.tail_known
  have hlt := hread.lt_length
  have hpushed := h.channel.pushed_le
  have hvalue := h.tails_value i m hread.found
  rw [h.tails_length] at hlt
  refine (h.mono le_sup_left le_rfl).update
    { h.channel with
      producer := ⟨hproducer, i, hvalue, Nat.le_of_lt_succ hlt,
        hpushed.trans (Nat.add_le_add_right hle _), rfl⟩ } rfl rfl
    (h.tail_known.mono le_sup_left) h.head_known ?_ h.popping ?_ id
  · rintro item' head' tail heq
    obtain ⟨rfl, rfl, rfl⟩ := PushPc.storeCache.inj heq
    exact ⟨i, hvalue, hle, hread.knows⟩
  · rintro ⟨item', head', hstoring⟩
    rw [hpc] at hstoring
    cases hstoring

theorem loadHead_own (h : w.Inv p c kp kc bits tailSeen headSeen) {item : α} {i : Nat}
    {m : Write T UInt64} (hpc : w.channel.producer = .loadHead item)
    (hread : Reads w.heads p kp i m) :
    ({ w with channel := { w.channel with producer := .testCache item m.value } } :
      WeakRing T α).Inv p c kp kc bits tailSeen headSeen := by
  have hnewest := hread.own h.heads_stamped
  rw [h.heads_length] at hnewest
  have hvalue : m.value = UInt64.ofNat w.channel.pushed.length := by
    rw [h.heads_value i m hread.found, Nat.succ_injective hnewest]
  refine h.update { h.channel with producer := hvalue } rfl rfl h.tail_known h.head_known ?_
    h.popping ?_ id
  · rintro item' head' tail heq
    cases heq
  · rintro ⟨item', head', hstoring⟩
    rw [hpc] at hstoring
    cases hstoring

/-- The tests of the cache and the store to it. -/
theorem pushStep_private (h : w.Inv p c kp kc bits tailSeen headSeen) {next : Channel α}
    (hpc : w.channel.producer.isPrivate = true) (hstep : w.channel.pushStep = some next) :
    ∃ tailSeen', ({ w with channel := next } : WeakRing T α).Inv
      p c kp kc bits tailSeen' headSeen := by
  obtain ⟨tailSeen', hnext⟩ := h.channel.pushStep hstep
  have hnotStoring : ¬ w.Storing := by
    rintro ⟨item, head, hstoring⟩
    rw [hstoring] at hpc
    cases hpc
  unfold Channel.pushStep at hstep
  cases hproducer : w.channel.producer <;> rw [hproducer] at hpc <;> try cases hpc
  case testCache item head =>
    simp only [hproducer, SpscRing.pushStep, Option.map_some, Option.some.injEq] at hstep
    subst hstep
    obtain rfl := hnext.tailSeen_eq h.channel.tailCache h.channel.tailSeen_le h.channel.pushed_le
    refine ⟨_, h.update hnext rfl rfl h.tail_known h.head_known (fun item' head' tail heq => ?_)
      h.popping (fun hstoring => absurd hstoring hnotStoring) id⟩
    dsimp only at heq
    split_ifs at heq
  case retestCache item head =>
    simp only [hproducer, SpscRing.pushStep, Option.map_some, Option.some.injEq] at hstep
    subst hstep
    obtain rfl := hnext.tailSeen_eq h.channel.tailCache h.channel.tailSeen_le h.channel.pushed_le
    refine ⟨_, h.update hnext rfl rfl h.tail_known h.head_known (fun item' head' tail heq => ?_)
      h.popping (fun hstoring => absurd hstoring hnotStoring) id⟩
    dsimp only at heq
    split_ifs at heq
  case storeCache item head tail =>
    simp only [hproducer, SpscRing.pushStep, Option.map_some, Option.some.injEq] at hstep
    subst hstep
    obtain ⟨loaded, htail, hle, hknown⟩ := h.pushing item head tail hproducer
    have hlt := hknown.lt_length
    rw [h.tails_length] at hlt
    obtain rfl := hnext.tailSeen_eq htail (Nat.le_of_lt_succ hlt)
      (h.channel.pushed_le.trans (Nat.add_le_add_right hle _))
    refine ⟨_, h.update hnext rfl rfl hknown h.head_known (fun item' head' tail heq => ?_)
      h.popping (fun hstoring => absurd hstoring hnotStoring) id⟩
    cases heq

variable [DecidableEq T]

theorem storeSlot (h : w.Inv p c kp kc bits tailSeen headSeen) {item : α} {head : UInt64}
    {next : Channel α} (hpc : w.channel.producer = .storeSlot item head)
    (hstep : w.channel.pushStep = some next) :
    ({ w with
      channel := next
      accesses := w.accesses.modify (w.channel.ring.slot head) (·.write p kp) } :
        WeakRing T α).Inv p c kp kc bits tailSeen headSeen := by
  have hproducer := h.channel.producer
  rw [hpc] at hproducer
  obtain ⟨hhead, hroom⟩ := hproducer
  simp only [Channel.pushStep, hpc, SpscRing.pushStep, Option.map_some, Option.some.injEq] at hstep
  subst hstep
  have hupdated := h.update (h.channel.storeSlot item hhead hroom) rfl rfl h.tail_known h.head_known
    (fun _ _ _ heq => by cases heq) h.popping
    (fun _ => ⟨item, head, rfl⟩) id
  have hslot : w.channel.ring.slot head = w.channel.pushed.length % 2 ^ bits := by
    rw [hhead, h.channel.slot_eq]
  refine { hupdated with
    accesses_length := (List.length_modify _ _ _).trans h.accesses_length
    accesses := fun q a ha => ?_ }
  rw [List.getElem?_modify] at ha
  obtain ⟨a₀, ha₀, rfl⟩ := Option.map_eq_some_iff.mp ha
  have htouched := hupdated.accesses q a₀ ha₀
  split_ifs with hq
  · refine { htouched with writes := fun t ht => ?_, written := Or.inr ⟨_, ?_, Or.inr ⟨rfl, ?_, ?_⟩⟩ }
    · exact (Function.update_of_ne ht _ _).trans (htouched.writes t ht)
    · exact hslot.symm.trans hq
    · exact ⟨item, head, rfl⟩
    · exact (Function.update_self ..).le
  · exact { htouched with }

theorem storeHead (h : w.Inv p c kp kc bits tailSeen headSeen) {item : α} {head : UInt64}
    {next : Channel α} (hpc : w.channel.producer = .storeHead item head)
    (hstep : w.channel.pushStep = some next) :
    ({ w with channel := next, heads := w.heads ++ [⟨head + 1, kp⟩] } : WeakRing T α).Inv
      p c (tick p kp) kc bits tailSeen headSeen := by
  have hproducer := h.channel.producer
  rw [hpc] at hproducer
  obtain ⟨hhead, hroom, hwritten⟩ := hproducer
  simp only [Channel.pushStep, hpc, SpscRing.pushStep, Option.map_some, Option.some.injEq] at hstep
  subst hstep
  have hlength : (w.channel.pushed ++ [item]).length = w.channel.pushed.length + 1 := by simp
  exact
    { channel := h.channel.storeHead hhead hroom hwritten
      heads_length := by rw [List.length_append, h.heads_length, hlength]; rfl
      tails_length := h.tails_length
      heads_value := value_append h.heads_value h.heads_length hhead
      tails_value := h.tails_value
      heads_stamped := h.heads_stamped.release _
      tails_stamped := h.tails_stamped
      tail_known := h.tail_known.mono (le_tick p kp)
      head_known := h.head_known.append _
      tails_know := fun k m hm => (h.tails_know k m hm).append _
      pushing := fun _ _ _ heq => by cases heq
      popping := fun tail head' heq => by
        obtain ⟨loaded, hloaded, hle, hknown⟩ := h.popping tail head' heq
        exact ⟨loaded, hloaded, hle, hknown.append _⟩
      accesses_length := h.accesses_length
      accesses := fun q a ha =>
        { writes := (h.accesses q a ha).writes
          reads := (h.accesses q a ha).reads
          written := by
            rw [hlength]
            exact (h.accesses q a ha).written.release h.heads_length _
          read := (h.accesses q a ha).read } }

theorem pushStep (h : w.Inv p c kp kc bits tailSeen headSeen)
    (hstep : w.PushStep p c kp w' kp') :
    kp ≤ kp' ∧ ∃ tailSeen', w'.Inv p c kp' kc bits tailSeen' headSeen := by
  cases hstep with
  | loadHead hpc hread => exact ⟨le_rfl, tailSeen, h.loadHead_own hpc hread⟩
  | own hpc hstep => exact ⟨le_rfl, h.pushStep_private hpc hstep⟩
  | loadTail hpc hread => exact ⟨le_sup_left, tailSeen, h.loadTail hpc hread⟩
  | storeSlot hpc hstep => exact ⟨le_rfl, tailSeen, h.storeSlot hpc hstep⟩
  | storeHead hpc hstep => exact ⟨le_tick p kp, tailSeen, h.storeHead hpc hstep⟩

theorem pushCall (h : w.Inv p c kp kc bits tailSeen headSeen) {item : α} {result : Option Bool}
    (hcall : w.PushCall p c item kp w' kp' result) :
    kp ≤ kp' ∧ ∃ tailSeen', w'.Inv p c kp' kc bits tailSeen' headSeen := by
  cases hcall with
  | call hidle =>
      refine ⟨le_rfl, tailSeen, h.update { h.channel with producer := trivial } rfl rfl h.tail_known
        h.head_known (fun _ _ _ heq => by cases heq) h.popping ?_ id⟩
      rintro ⟨item', head, hstoring⟩
      rw [hidle] at hstoring
      cases hstoring
  | step hstep => exact h.pushStep hstep
  | ret hreturned =>
      refine ⟨le_rfl, tailSeen, h.update { h.channel with producer := trivial } rfl rfl h.tail_known
        h.head_known (fun _ _ _ heq => by cases heq) h.popping ?_ id⟩
      rintro ⟨item', head, hstoring⟩
      rw [hreturned] at hstoring
      cases hstoring

/-! ### The consumer's accesses -/

variable [Inhabited α]

omit [DecidableEq T] [Inhabited α] in
theorem loadTail_own (h : w.Inv p c kp kc bits tailSeen headSeen) {i : Nat}
    {m : Write T UInt64} (hpc : w.channel.consumer = .loadTail)
    (hread : Reads w.tails c kc i m) :
    ({ w with channel := { w.channel with consumer := .testCache m.value } } :
      WeakRing T α).Inv p c kp kc bits tailSeen headSeen := by
  have hnewest := hread.own h.tails_stamped
  rw [h.tails_length] at hnewest
  have hvalue : m.value = UInt64.ofNat w.channel.popped.length := by
    rw [h.tails_value i m hread.found, Nat.succ_injective hnewest]
  refine h.update { h.channel with consumer := hvalue } rfl rfl h.tail_known h.head_known h.pushing
    ?_ id ?_
  · rintro tail head heq
    cases heq
  · rintro ⟨tail, out, htaking⟩
    rw [hpc] at htaking
    cases htaking

omit [DecidableEq T] [Inhabited α] in
theorem loadHead (h : w.Inv p c kp kc bits tailSeen headSeen) {tail : UInt64} {i : Nat}
    {m : Write T UInt64} (hpc : w.channel.consumer = .loadHead tail)
    (hread : Reads w.heads p kc i m) :
    ({ w with channel := { w.channel with
      consumer := .storeCache tail m.value
      headLoad := i - w.channel.popped.length } } : WeakRing T α).Inv
        p c kp (kc ⊔ m.clock) bits tailSeen headSeen := by
  have hconsumer := h.channel.consumer
  rw [hpc] at hconsumer
  have hle := hread.le h.head_known
  have hlt := hread.lt_length
  have hvalue := h.heads_value i m hread.found
  rw [h.heads_length] at hlt
  refine (h.mono le_rfl le_sup_left).update
    { h.channel with
      consumer := ⟨hconsumer, i, hvalue, h.channel.popped_le.trans hle, Nat.le_of_lt_succ hlt,
        rfl⟩ } rfl rfl
    h.tail_known (h.head_known.mono le_sup_left) h.pushing ?_ id ?_
  · rintro tail' head heq
    obtain ⟨rfl, rfl⟩ := PopPc.storeCache.inj heq
    exact ⟨i, hvalue, hle, hread.knows⟩
  · rintro ⟨tail', out, htaking⟩
    rw [hpc] at htaking
    cases htaking

omit [DecidableEq T] in
theorem popStep_private (h : w.Inv p c kp kc bits tailSeen headSeen) {next : Channel α}
    (hpc : w.channel.consumer.isPrivate = true) (hstep : w.channel.popStep = some next) :
    ∃ headSeen', ({ w with channel := next } : WeakRing T α).Inv
      p c kp kc bits tailSeen headSeen' := by
  obtain ⟨headSeen', hnext⟩ := h.channel.popStep hstep
  have hnotTaking : ¬ w.Taking := by
    rintro ⟨tail, out, htaking⟩
    rw [htaking] at hpc
    cases hpc
  unfold Channel.popStep at hstep
  cases hconsumer : w.channel.consumer <;> rw [hconsumer] at hpc <;> try cases hpc
  case testCache tail =>
    simp only [hconsumer, SpscRing.popStep, Option.map_some, Option.some.injEq] at hstep
    subst hstep
    obtain rfl := hnext.headSeen_eq h.channel.headCache h.channel.popped_le h.channel.headSeen_le
    refine ⟨_, h.update hnext rfl rfl h.tail_known h.head_known h.pushing (fun tail' head heq => ?_)
      id (fun htaking => absurd htaking hnotTaking)⟩
    dsimp only at heq
    split_ifs at heq
  case retestCache tail =>
    simp only [hconsumer, SpscRing.popStep, Option.map_some, Option.some.injEq] at hstep
    subst hstep
    obtain rfl := hnext.headSeen_eq h.channel.headCache h.channel.popped_le h.channel.headSeen_le
    refine ⟨_, h.update hnext rfl rfl h.tail_known h.head_known h.pushing (fun tail' head heq => ?_)
      id (fun htaking => absurd htaking hnotTaking)⟩
    dsimp only at heq
    split_ifs at heq
  case storeCache tail head =>
    simp only [hconsumer, SpscRing.popStep, Option.map_some, Option.some.injEq] at hstep
    subst hstep
    obtain ⟨loaded, hhead, hle, hknown⟩ := h.popping tail head hconsumer
    have hlt := hknown.lt_length
    rw [h.heads_length] at hlt
    obtain rfl := hnext.headSeen_eq hhead (h.channel.popped_le.trans hle) (Nat.le_of_lt_succ hlt)
    refine ⟨_, h.update hnext rfl rfl h.tail_known hknown h.pushing (fun tail' head' heq => ?_)
      id (fun htaking => absurd htaking hnotTaking)⟩
    cases heq

theorem loadSlot (h : w.Inv p c kp kc bits tailSeen headSeen) {tail : UInt64}
    {next : Channel α} (hpc : w.channel.consumer = .loadSlot tail)
    (hstep : w.channel.popStep = some next) :
    ({ w with
      channel := next
      accesses := w.accesses.modify (w.channel.ring.slot tail) (·.read c kc) } :
        WeakRing T α).Inv p c kp kc bits tailSeen headSeen := by
  have hconsumer := h.channel.consumer
  rw [hpc] at hconsumer
  obtain ⟨htail, hlt⟩ := hconsumer
  obtain ⟨headSeen', hnext⟩ := h.channel.popStep hstep
  simp only [Channel.popStep, hpc, SpscRing.popStep, Option.map_some, Option.some.injEq] at hstep
  subst hstep
  obtain rfl := hnext.headSeen_eq h.channel.headCache h.channel.popped_le h.channel.headSeen_le
  have hupdated := h.update hnext rfl rfl h.tail_known h.head_known h.pushing
    (fun _ _ heq => by cases heq) id (fun _ => ⟨tail, _, rfl⟩)
  have hslot : w.channel.ring.slot tail = w.channel.popped.length % 2 ^ bits := by
    rw [htail, h.channel.slot_eq]
  refine { hupdated with
    accesses_length := (List.length_modify _ _ _).trans h.accesses_length
    accesses := fun q a ha => ?_ }
  rw [List.getElem?_modify] at ha
  obtain ⟨a₀, ha₀, rfl⟩ := Option.map_eq_some_iff.mp ha
  have htouched := hupdated.accesses q a₀ ha₀
  split_ifs with hq
  · refine { htouched with reads := fun t ht => ?_, read := Or.inr ⟨_, ?_, Or.inr ⟨rfl, ?_, ?_⟩⟩ }
    · exact (Function.update_of_ne ht _ _).trans (htouched.reads t ht)
    · exact hslot.symm.trans hq
    · exact ⟨tail, _, rfl⟩
    · exact (Function.update_self ..).le
  · exact { htouched with }

/-- The store to `tail_` tells who reads it about the pushes before it. -/
theorem storeTail (h : w.Inv p c kp kc bits tailSeen headSeen) {tail : UInt64}
    {out : α} {next : Channel α} (hpc : w.channel.consumer = .storeTail tail out)
    (hstep : w.channel.popStep = some next) :
    ({ w with channel := next, tails := w.tails ++ [⟨tail + 1, kc⟩] } : WeakRing T α).Inv
      p c kp (tick c kc) bits tailSeen headSeen := by
  have hconsumer := h.channel.consumer
  rw [hpc] at hconsumer
  obtain ⟨htail, hlt, hout⟩ := hconsumer
  simp only [Channel.popStep, hpc, SpscRing.popStep, Option.map_some, Option.some.injEq] at hstep
  subst hstep
  have hlength : (w.channel.popped ++ [out]).length = w.channel.popped.length + 1 := by simp
  exact
    { channel := h.channel.storeTail htail hlt hout
      heads_length := h.heads_length
      tails_length := by rw [List.length_append, h.tails_length, hlength]; rfl
      heads_value := h.heads_value
      tails_value := value_append h.tails_value h.tails_length htail
      heads_stamped := h.heads_stamped
      tails_stamped := h.tails_stamped.release _
      tail_known := h.tail_known.append _
      head_known := h.head_known.mono (le_tick c kc)
      tails_know := fun k m hm => by
        rcases lt_or_ge k w.tails.length with hk | hge
        · rw [List.getElem?_append_left hk] at hm
          exact h.tails_know k m hm
        · rw [List.getElem?_append_right hge, List.getElem?_singleton] at hm
          split_ifs at hm with hk
          obtain rfl := Option.some.inj hm
          have hlength := h.tails_length
          exact h.head_known.of_le h.heads_stamped (by omega)
      pushing := fun item head tail' heq => by
        obtain ⟨loaded, hloaded, hle, hknown⟩ := h.pushing item head tail' heq
        exact ⟨loaded, hloaded, hle, hknown.append _⟩
      popping := fun _ _ heq => by cases heq
      accesses_length := h.accesses_length
      accesses := fun q a ha =>
        { writes := (h.accesses q a ha).writes
          reads := (h.accesses q a ha).reads
          written := (h.accesses q a ha).written
          read := by
            rw [hlength]
            exact (h.accesses q a ha).read.release h.tails_length _ } }

theorem popStep (h : w.Inv p c kp kc bits tailSeen headSeen)
    (hstep : w.PopStep p c kc w' kc') :
    kc ≤ kc' ∧ ∃ headSeen', w'.Inv p c kp kc' bits tailSeen headSeen' := by
  cases hstep with
  | loadTail hpc hread => exact ⟨le_rfl, headSeen, h.loadTail_own hpc hread⟩
  | own hpc hstep => exact ⟨le_rfl, h.popStep_private hpc hstep⟩
  | loadHead hpc hread => exact ⟨le_sup_left, headSeen, h.loadHead hpc hread⟩
  | loadSlot hpc hstep => exact ⟨le_rfl, headSeen, h.loadSlot hpc hstep⟩
  | storeTail hpc hstep => exact ⟨le_tick c kc, headSeen, h.storeTail hpc hstep⟩

theorem popCall (h : w.Inv p c kp kc bits tailSeen headSeen) {result : Option (Option α)}
    (hcall : w.PopCall p c kc w' kc' result) :
    kc ≤ kc' ∧ ∃ headSeen', w'.Inv p c kp kc' bits tailSeen headSeen' := by
  cases hcall with
  | call hidle =>
      refine ⟨le_rfl, headSeen, h.update { h.channel with consumer := trivial } rfl rfl h.tail_known
        h.head_known h.pushing (fun _ _ heq => by cases heq) id ?_⟩
      rintro ⟨tail, out, htaking⟩
      rw [hidle] at htaking
      cases htaking
  | step hstep => exact h.popStep hstep
  | ret hreturned =>
      refine ⟨le_rfl, headSeen, h.update { h.channel with consumer := trivial } rfl rfl h.tail_known
        h.head_known h.pushing (fun _ _ heq => by cases heq) id ?_⟩
      rintro ⟨tail, out, htaking⟩
      rw [hreturned] at htaking
      cases htaking

end Inv

variable [DecidableEq T]

/-- What a step of a push adds. -/
theorem PushStep.grows {p c : T} {w w' : WeakRing T α} {clock clock' : Clock T}
    (hstep : w.PushStep p c clock w' clock') :
    w.heads <+: w'.heads ∧ w'.tails = w.tails ∧
      w.channel.pushed.length ≤ w'.channel.pushed.length ∧
      w'.channel.popped = w.channel.popped := by
  cases hstep with
  | loadHead hpc hread => exact ⟨List.prefix_rfl, rfl, le_rfl, rfl⟩
  | loadTail hpc hread => exact ⟨List.prefix_rfl, rfl, le_rfl, rfl⟩
  | own hpc hstep | storeSlot hpc hstep =>
      obtain ⟨hpopped, hpushed⟩ := Channel.counts_of_pushStep hstep
      exact ⟨List.prefix_rfl, rfl, hpushed, hpopped⟩
  | storeHead hpc hstep =>
      obtain ⟨hpopped, hpushed⟩ := Channel.counts_of_pushStep hstep
      exact ⟨List.prefix_append _ _, rfl, hpushed, hpopped⟩

theorem PushCall.grows {p c : T} {item : α} {w w' : WeakRing T α} {clock clock' : Clock T}
    {result : Option Bool} (hcall : w.PushCall p c item clock w' clock' result) :
    w.heads <+: w'.heads ∧ w'.tails = w.tails ∧
      w.channel.pushed.length ≤ w'.channel.pushed.length ∧
      w'.channel.popped = w.channel.popped := by
  cases hcall with
  | call hidle => exact ⟨List.prefix_rfl, rfl, le_rfl, rfl⟩
  | step hstep => exact hstep.grows
  | ret hreturned => exact ⟨List.prefix_rfl, rfl, le_rfl, rfl⟩

theorem PopStep.grows [Inhabited α] {p c : T} {w w' : WeakRing T α} {clock clock' : Clock T}
    (hstep : w.PopStep p c clock w' clock') :
    w'.heads = w.heads ∧ w.tails <+: w'.tails ∧ w'.channel.pushed = w.channel.pushed ∧
      w.channel.popped.length ≤ w'.channel.popped.length := by
  have hcounts {next : Channel α} (hstep : w.channel.popStep = some next) :
      next.pushed = w.channel.pushed ∧ w.channel.popped.length ≤ next.popped.length := by
    obtain ⟨hpushed, hpopped | hpopped⟩ := Channel.counts_of_popStep hstep
    · exact ⟨hpushed, (congrArg List.length hpopped).ge⟩
    · exact ⟨hpushed, hpopped ▸ Nat.le_succ _⟩
  cases hstep with
  | loadTail hpc hread => exact ⟨rfl, List.prefix_rfl, rfl, le_rfl⟩
  | loadHead hpc hread => exact ⟨rfl, List.prefix_rfl, rfl, le_rfl⟩
  | own hpc hstep | loadSlot hpc hstep => exact ⟨rfl, List.prefix_rfl, hcounts hstep⟩
  | storeTail hpc hstep => exact ⟨rfl, List.prefix_append _ _, hcounts hstep⟩

theorem PopCall.grows [Inhabited α] {p c : T} {w w' : WeakRing T α} {clock clock' : Clock T}
    {result : Option (Option α)} (hcall : w.PopCall p c clock w' clock' result) :
    w'.heads = w.heads ∧ w.tails <+: w'.tails ∧ w'.channel.pushed = w.channel.pushed ∧
      w.channel.popped.length ≤ w'.channel.popped.length := by
  cases hcall with
  | call hidle => exact ⟨rfl, List.prefix_rfl, rfl, le_rfl⟩
  | step hstep => exact hstep.grows
  | ret hreturned => exact ⟨rfl, List.prefix_rfl, rfl, le_rfl⟩

theorem PushCall.records {p c : T} {item : α} {w w' : WeakRing T α} {clock clock' : Clock T}
    {result : Option Bool} (hcall : w.PushCall p c item clock w' clock' result) :
    w.channel.Records w'.channel := by
  cases hcall with
  | call hidle => exact Channel.callPush_records item hidle
  | ret hreturned => exact Channel.returnPush_records hreturned
  | step hstep =>
      cases hstep with
      | loadHead hpc hread | loadTail hpc hread =>
          exact ⟨.of_item (by rw [hpc]; rfl) rfl rfl, .of_eq rfl rfl⟩
      | own hpc hstep | storeSlot hpc hstep | storeHead hpc hstep =>
          exact Channel.pushStep_records hstep

theorem PopCall.records [Inhabited α] {p c : T} {w w' : WeakRing T α} {clock clock' : Clock T}
    {result : Option (Option α)} (hcall : w.PopCall p c clock w' clock' result) :
    w.channel.Records w'.channel := by
  cases hcall with
  | call hidle => exact Channel.callPop_records
  | ret hreturned => exact Channel.returnPop_records
  | step hstep =>
      cases hstep with
      | loadTail hpc hread | loadHead hpc hread =>
          exact ⟨.of_eq rfl rfl, .of_running (by rw [hpc]; rfl) rfl rfl⟩
      | own hpc hstep | loadSlot hpc hstep | storeTail hpc hstep =>
          exact Channel.popStep_records hstep

theorem inv_start {ring : SpscRing α} {bits : Nat} (h : ({ ring := ring } : Channel α).Inv bits 0 0)
    (p c : T) :
    (start ring : WeakRing T α).Inv p c (tick p fun _ => 0) (tick c fun _ => 0) bits 0 0 := by
  have hstored (k : Nat) (m : Write T UInt64)
      (hm : ([⟨0, fun _ => 0⟩] : History T UInt64)[k]? = some m) : k = 0 ∧ m = ⟨0, fun _ => 0⟩ := by
    rw [List.getElem?_singleton] at hm
    split_ifs at hm with hk
    exact ⟨hk, (Option.some.inj hm).symm⟩
  have hstamped (t : T) : Stamped [⟨(0 : UInt64), fun _ => 0⟩] t (tick t fun _ => 0) :=
    (⟨List.Pairwise.nil, fun m hm => nomatch hm⟩ : Stamped [] t fun _ => 0).release (0 : UInt64)
  have hknown (t : T) (clock : Clock T) : Knows [⟨(0 : UInt64), fun _ => 0⟩] t clock 0 :=
    ⟨_, rfl, Nat.zero_le _⟩
  exact
    { channel := h
      heads_length := rfl
      tails_length := rfl
      heads_value := fun k m hm => by
        obtain ⟨rfl, rfl⟩ := hstored k m hm
        rfl
      tails_value := fun k m hm => by
        obtain ⟨rfl, rfl⟩ := hstored k m hm
        rfl
      heads_stamped := hstamped p
      tails_stamped := hstamped c
      tail_known := hknown c _
      head_known := hknown p _
      tails_know := fun k m hm => by
        obtain ⟨rfl, rfl⟩ := hstored k m hm
        exact hknown p _
      pushing := fun _ _ _ heq => by cases heq
      popping := fun _ _ heq => by cases heq
      accesses_length := List.length_replicate.trans h.slots_length
      accesses := fun q a ha => by
        obtain rfl := List.eq_of_mem_replicate (List.mem_of_getElem? ha)
        exact ⟨fun _ _ => rfl, fun _ _ => rfl, Or.inl rfl, Or.inl rfl⟩ }

end WeakRing

/-! ### Runs with observers -/

namespace WeakWatched

variable {ι α : Type}

/-- What a running `size_approx` has seen: the pushes behind the pops it has read of happen before
its second load. -/
def ObserverInv (w : WeakWatched ι α) (clock : Clock (RingThread ι)) (o : WeakObserver) : Prop :=
  match o.pc with
  | .idle | .loadTail => True
  | .loadHead tail => tail = UInt64.ofNat o.tailIndex ∧ o.tailIndex ≤ w.ring.channel.popped.length ∧
      Knows w.ring.heads .producer clock o.tailIndex
  | .returned size => size = UInt64.ofNat o.headIndex - UInt64.ofNat o.tailIndex ∧
      o.tailIndex ≤ w.ring.channel.popped.length ∧ o.tailIndex ≤ o.headIndex ∧
      o.headIndex ≤ w.ring.channel.pushed.length

structure Inv (w : WeakWatched ι α) (bits : Nat) : Prop where
  ring : ∃ tailSeen headSeen, w.ring.Inv .producer .consumer (w.clocks .producer)
    (w.clocks .consumer) bits tailSeen headSeen
  observers : ∀ i, w.ObserverInv (w.clocks (.observer i)) (w.observers i)

theorem ObserverInv.mono {w w' : WeakWatched ι α} {clock clock' : Clock (RingThread ι)}
    {o : WeakObserver} (h : w.ObserverInv clock o) (hle : clock ≤ clock')
    (hpopped : w.ring.channel.popped.length ≤ w'.ring.channel.popped.length)
    (hpushed : w.ring.channel.pushed.length ≤ w'.ring.channel.pushed.length)
    (hheads : w.ring.heads <+: w'.ring.heads) : w'.ObserverInv clock' o := by
  unfold ObserverInv at h ⊢
  cases hpc : o.pc with
  | idle => trivial
  | loadTail => trivial
  | loadHead tail =>
      rw [hpc] at h
      obtain ⟨htail, hle', hknown⟩ := h
      obtain ⟨later, hlater⟩ := hheads
      exact ⟨htail, hle'.trans hpopped, hlater ▸ (hknown.mono hle).append later⟩
  | returned size =>
      rw [hpc] at h
      obtain ⟨hsize, htail, hle', hhead⟩ := h
      exact ⟨hsize, htail.trans hpopped, hle', hhead.trans hpushed⟩

variable [DecidableEq ι] {w w' : WeakWatched ι α} {bits : Nat}

theorem Inv.push (h : w.Inv bits) {item : α} {ring : WeakRing (RingThread ι) α}
    {clock : Clock (RingThread ι)} {result : Option Bool}
    (hcall : w.ring.PushCall .producer .consumer item (w.clocks .producer) ring clock result) :
    ({ w with ring := ring, clocks := Function.update w.clocks .producer clock } :
      WeakWatched ι α).Inv bits := by
  obtain ⟨tailSeen, headSeen, hring⟩ := h.ring
  obtain ⟨-, tailSeen', hring'⟩ := hring.pushCall hcall
  obtain ⟨hheads, -, hpushed, hpopped⟩ := hcall.grows
  refine ⟨⟨tailSeen', headSeen, ?_⟩, fun i => ?_⟩
  · dsimp only
    rwa [Function.update_self, Function.update_of_ne (by simp)]
  · refine (h.observers i).mono ?_ (congrArg List.length hpopped).ge hpushed hheads
    dsimp only
    rw [Function.update_of_ne (by simp)]

/-- A step of the observer `i`. -/
theorem Inv.observe (h : w.Inv bits) (i : ι) {clock : Clock (RingThread ι)} {o : WeakObserver}
    (ho : w.ObserverInv clock o) :
    ({ w with
      clocks := Function.update w.clocks (.observer i) clock
      observers := Function.update w.observers i o } : WeakWatched ι α).Inv bits := by
  refine ⟨?_, fun j => ?_⟩
  · dsimp only
    rw [Function.update_of_ne (by simp), Function.update_of_ne (by simp)]
    exact h.ring
  · by_cases hj : j = i
    · subst hj
      dsimp only
      rw [Function.update_self, Function.update_self]
      exact ho.mono le_rfl le_rfl le_rfl List.prefix_rfl
    · dsimp only
      rw [Function.update_of_ne hj, Function.update_of_ne (by simpa using hj)]
      exact (h.observers j).mono le_rfl le_rfl le_rfl List.prefix_rfl

/-- A step of the observer `i` that loads nothing. -/
theorem Inv.observe_idle (h : w.Inv bits) (i : ι) (o : WeakObserver)
    (ho : w.ObserverInv (w.clocks (.observer i)) o) :
    ({ w with observers := Function.update w.observers i o } : WeakWatched ι α).Inv bits := by
  have hnext := h.observe i ho
  rwa [Function.update_eq_self] at hnext

variable [Inhabited α]

theorem Inv.pop (h : w.Inv bits) {ring : WeakRing (RingThread ι) α}
    {clock : Clock (RingThread ι)} {result : Option (Option α)}
    (hcall : w.ring.PopCall .producer .consumer (w.clocks .consumer) ring clock result) :
    ({ w with ring := ring, clocks := Function.update w.clocks .consumer clock } :
      WeakWatched ι α).Inv bits := by
  obtain ⟨tailSeen, headSeen, hring⟩ := h.ring
  obtain ⟨-, headSeen', hring'⟩ := hring.popCall hcall
  obtain ⟨hheads, -, hpushed, hpopped⟩ := hcall.grows
  refine ⟨⟨tailSeen, headSeen', ?_⟩, fun i => ?_⟩
  · dsimp only
    rwa [Function.update_self, Function.update_of_ne (by simp)]
  · refine (h.observers i).mono ?_ hpopped (congrArg List.length hpushed).ge
      (hheads ▸ List.prefix_rfl)
    dsimp only
    rw [Function.update_of_ne (by simp)]

theorem Inv.step (h : w.Inv bits) (hstep : w.Step w') : w'.Inv bits := by
  obtain ⟨tailSeen, headSeen, hring⟩ := h.ring
  cases hstep with
  | push hcall => exact h.push hcall
  | pop hcall => exact h.pop hcall
  | callSize i hidle =>
      exact h.observe_idle i { pc := .loadTail } trivial
  | @loadTail i k m hpc hread =>
      have hlt := hread.lt_length
      rw [hring.tails_length] at hlt
      exact h.observe i ⟨hring.tails_value k m hread.found, Nat.le_of_lt_succ hlt,
        (hring.tails_know k m hread.found).mono le_sup_right⟩
  | @loadHead i tail k m hpc hread =>
      have hobserver := h.observers i
      unfold ObserverInv at hobserver
      rw [hpc] at hobserver
      obtain ⟨rfl, hpopped, hknown⟩ := hobserver
      have hlt := hread.lt_length
      rw [hring.heads_length] at hlt
      refine h.observe i ⟨?_, hpopped, hread.le hknown, Nat.le_of_lt_succ hlt⟩
      dsimp only
      rw [hring.heads_value k m hread.found]
  | returnSize i hreturned =>
      exact h.observe_idle i { w.observers i with pc := .idle } trivial

theorem Step.records (hstep : w.Step w') : w.ring.channel.Records w'.ring.channel := by
  cases hstep with
  | push hcall => exact hcall.records
  | pop hcall => exact hcall.records
  | callSize | loadTail | loadHead | returnSize => exact .refl _

theorem inv_of_reachable {ring : SpscRing α}
    (hring : ({ ring := ring } : Channel α).Inv bits 0 0)
    (hreach : Relation.ReflTransGen Step (start ring) w) : w.Inv bits := by
  induction hreach with
  | refl => exact ⟨⟨0, 0, WeakRing.inv_start hring _ _⟩, fun _ => trivial⟩
  | tail _ hstep ih => exact ih.step hstep

end WeakWatched

/-- With the memory orders of the source, for every requested capacity up to `2 ^ 63`, any number of
observers and every run: no two accesses to a slot race, the values come out in order, the calls
that return a success are the recorded ones, and `size_approx` reads a push count not below the pop
count. -/
theorem spscRing_releaseAcquire {ι α : Type} [DecidableEq ι] [Inhabited α] (n : UInt64)
    (hn : n.toNat ≤ 2 ^ 63) :
    ∃ ring : SpscRing α, SpscRing.new n = some ring ∧
      ∀ w : WeakWatched ι α, Relation.ReflTransGen WeakWatched.Step (.start ring) w →
        w.ring.RaceFree .producer .consumer w.clocks ∧
        w.ring.channel.popped <+: w.ring.channel.pushed ∧
        w.ring.channel.unpopped ≤ ring.capacity.toNat ∧
        (w.ring.channel.producer = .returned false →
          w.ring.channel.tailLoad = ring.capacity.toNat) ∧
        (w.ring.channel.consumer = .returned none → w.ring.channel.headLoad = 0) ∧
        (∀ w', w.Step w' → w.ring.channel.Records w'.ring.channel) ∧
        ∀ i size, (w.observers i).pc = .returned size →
          size = UInt64.ofNat ((w.observers i).headIndex - (w.observers i).tailIndex) ∧
          (w.observers i).tailIndex ≤ (w.observers i).headIndex ∧
          (w.observers i).tailIndex ≤ w.ring.channel.popped.length ∧
          (w.observers i).headIndex ≤ w.ring.channel.pushed.length := by
  obtain ⟨_, -, -, hcap, -⟩ := roundUpPow2_spec hn
  obtain ⟨ring, hring⟩ : ∃ ring : SpscRing α, SpscRing.new n = some ring :=
    ⟨_, congrArg (Option.map _) hcap⟩
  obtain ⟨bits, hinit, -⟩ := Channel.inv_new hring
  have hcapacity : ring.capacity.toNat = 2 ^ bits := hinit.capacity_toNat
  refine ⟨ring, hring, fun w hreach => ?_⟩
  have h := WeakWatched.inv_of_reachable hinit hreach
  obtain ⟨tailSeen, headSeen, hinv⟩ := h.ring
  have hproducer := hinv.channel.producer
  have hconsumer := hinv.channel.consumer
  rw [hcapacity]
  refine ⟨hinv.raceFree rfl rfl, hinv.channel.popped_prefix, hinv.channel.unpopped_le,
    fun hpc => ?_, fun hpc => ?_, fun w' hstep => hstep.records, fun i size hpc => ?_⟩
  · rw [hpc] at hproducer
    exact hproducer rfl
  · rw [hpc] at hconsumer
    exact hconsumer
  · have hobserver := h.observers i
    unfold WeakWatched.ObserverInv at hobserver
    rw [hpc] at hobserver
    obtain ⟨hsize, htail, hle, hhead⟩ := hobserver
    exact ⟨hsize.trans (UInt64.ofNat_sub hle).symm, hle, htail, hhead⟩

theorem spscRing_releaseAcquire_three :
    ∃ ring : SpscRing Nat, SpscRing.new 3 = some ring ∧
      ∀ w : WeakWatched Bool Nat, Relation.ReflTransGen WeakWatched.Step (.start ring) w →
        w.ring.RaceFree .producer .consumer w.clocks ∧
        w.ring.channel.popped <+: w.ring.channel.pushed := by
  obtain ⟨ring, hring, hrun⟩ := spscRing_releaseAcquire (ι := Bool) (α := Nat) 3 (by decide)
  refine ⟨ring, hring, fun w hreach => ?_⟩
  obtain ⟨hsafe, hprefix, -⟩ := hrun w hreach
  exact ⟨hsafe, hprefix⟩

end HftOrderbook
