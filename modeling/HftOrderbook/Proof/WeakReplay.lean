import HftOrderbook.Feed.WeakFanout
import HftOrderbook.Proof.FairReplay
import HftOrderbook.Proof.WeakRing

/-!
# Late loads lose nothing

A worker may read the flag late and the push counter of its ring late, but a worker that has read the
raised flag has acquired every push before it: its next load of the counter finds the newest store,
and a ring that looks empty then is empty.
-/

namespace HftOrderbook

open ReleaseAcquire

/-! ### One step of a call -/

theorem Channel.callPush_of_pushStep {α : Type} {c next : Channel α} (item : α)
    (hstep : c.pushStep = some next) : c.callPush item = (next, none) := by
  unfold Channel.callPush
  cases hpc : c.producer <;> simp_all [Channel.pushStep, SpscRing.pushStep]

theorem Channel.callPop_of_popStep {α : Type} [Inhabited α] {c next : Channel α}
    (hstep : c.popStep = some next) : c.callPop = (next, none) := by
  unfold Channel.callPop
  cases hpc : c.consumer <;> simp_all [Channel.popStep, SpscRing.popStep]

namespace WeakRing

variable {T α : Type} [DecidableEq T] {p c : T} {w w' : WeakRing T α} {clock clock' : Clock T}

/-- A call that returns is over in the same way as before. -/
theorem PushCall.returned {item : α} {ok : Bool}
    (hcall : w.PushCall p c item clock w' clock' (some ok)) :
    w.channel.callPush item = (w'.channel, some ok) := by
  cases hcall with
  | ret hreturned => simp only [Channel.callPush, hreturned]

theorem PushCall.frame {item : α} {result : Option Bool}
    (hcall : w.PushCall p c item clock w' clock' result) :
    w'.channel.popped = w.channel.popped ∧ w'.channel.consumer = w.channel.consumer := by
  have hstep {next : Channel α} (hstep : w.channel.pushStep = some next) :
      next.popped = w.channel.popped ∧ next.consumer = w.channel.consumer := by
    have hframe := w.channel.callPush_frame item
    rwa [Channel.callPush_of_pushStep item hstep] at hframe
  cases hcall with
  | call hidle => exact ⟨rfl, rfl⟩
  | ret hreturned => exact ⟨rfl, rfl⟩
  | step hpush =>
      cases hpush with
      | loadHead hpc hread => exact ⟨rfl, rfl⟩
      | loadTail hpc hread => exact ⟨rfl, rfl⟩
      | own hpc hpush => exact hstep hpush
      | storeSlot hpc hpush => exact hstep hpush
      | storeHead hpc hpush => exact hstep hpush

theorem PushCall.owed {item : α} {rest : List α} {result : Option Bool}
    (hcall : w.PushCall p c item clock w' clock' result) (hresult : result ≠ some true)
    (hcarries : w.channel.producer.Carries item) :
    w'.channel.pushed ++ w'.channel.producer.owed (item :: rest) =
        w.channel.pushed ++ w.channel.producer.owed (item :: rest) ∧
      w'.channel.producer.Carries item := by
  have hstep {next : Channel α} (hstep : w.channel.pushStep = some next) :
      next.pushed ++ next.producer.owed (item :: rest) =
          w.channel.pushed ++ w.channel.producer.owed (item :: rest) ∧
        next.producer.Carries item :=
    Channel.callPush_owed (Channel.callPush_of_pushStep item hstep) (by simp) hcarries
  cases hcall with
  | call hidle => exact ⟨by rw [hidle]; rfl, rfl⟩
  | ret hreturned =>
      exact Channel.callPush_owed (by simp only [Channel.callPush, hreturned]) hresult hcarries
  | step hpush =>
      cases hpush with
      | loadHead hpc hread =>
          rw [hpc] at hcarries ⊢
          exact ⟨rfl, hcarries⟩
      | loadTail hpc hread =>
          rw [hpc] at hcarries ⊢
          exact ⟨rfl, hcarries⟩
      | own hpc hpush => exact hstep hpush
      | storeSlot hpc hpush => exact hstep hpush
      | storeHead hpc hpush => exact hstep hpush

/-- Every step of a push can be taken as if the memory had no delay. -/
theorem Inv.exists_pushCall {kp kc : Clock T} {bits tailSeen headSeen : Nat}
    (h : w.Inv p c kp kc bits tailSeen headSeen) (item : α) :
    ∃ w' kp', w.PushCall p c item kp w' kp' (w.channel.callPush item).2 ∧
      w'.channel = (w.channel.callPush item).1 := by
  have hstep {w' : WeakRing T α} {kp' : Clock T} {next : Channel α}
      (hpush : w.PushStep p c kp w' kp') (hnext : w.channel.pushStep = some next)
      (hchannel : w'.channel = next) :
      ∃ w' kp', w.PushCall p c item kp w' kp' (w.channel.callPush item).2 ∧
        w'.channel = (w.channel.callPush item).1 := by
    rw [Channel.callPush_of_pushStep item hnext]
    exact ⟨w', kp', .step hpush, hchannel⟩
  cases hpc : w.channel.producer with
  | idle =>
      simp only [Channel.callPush, hpc]
      exact ⟨_, _, .call hpc, rfl⟩
  | returned ok =>
      simp only [Channel.callPush, hpc]
      exact ⟨_, _, .ret hpc, rfl⟩
  | loadHead carried =>
      have hlt : w.channel.pushed.length < w.heads.length := by
        rw [h.heads_length]
        exact Nat.lt_succ_self _
      have hfound := List.getElem?_eq_getElem hlt
      have hnext : w.channel.pushStep =
          some { w.channel with producer := .testCache carried w.channel.ring.head } := by
        simp only [Channel.pushStep, hpc, SpscRing.pushStep, Option.map_some]
      refine hstep (.loadHead hpc (reads_newest kp hfound h.heads_length)) hnext ?_
      rw [h.heads_value _ _ hfound, h.channel.head]
  | loadTail carried head =>
      have hlt : w.channel.popped.length < w.tails.length := by
        rw [h.tails_length]
        exact Nat.lt_succ_self _
      have hfound := List.getElem?_eq_getElem hlt
      have hnext : w.channel.pushStep = some { w.channel with
          producer := .storeCache carried head w.channel.ring.tail
          tailLoad := w.channel.unpopped } := by
        simp only [Channel.pushStep, hpc, SpscRing.pushStep, Option.map_some]
      refine hstep (.loadTail hpc (reads_newest kp hfound h.tails_length)) hnext ?_
      rw [h.tails_value _ _ hfound, h.channel.tail]
      rfl
  | storeSlot carried head =>
      obtain ⟨next, hnext⟩ : ∃ next, w.channel.pushStep = some next := by
        simp [Channel.pushStep, hpc, SpscRing.pushStep]
      exact hstep (.storeSlot hpc hnext) hnext rfl
  | storeHead carried head =>
      obtain ⟨next, hnext⟩ : ∃ next, w.channel.pushStep = some next := by
        simp [Channel.pushStep, hpc, SpscRing.pushStep]
      exact hstep (.storeHead hpc hnext) hnext rfl
  | testCache _ _ | storeCache _ _ _ | retestCache _ _ =>
      obtain ⟨next, hnext⟩ : ∃ next, w.channel.pushStep = some next := by
        simp [Channel.pushStep, hpc, SpscRing.pushStep]
      exact hstep (.own (by rw [hpc]; rfl) hnext) hnext rfl

variable [Inhabited α]

theorem PopCall.returned {out : Option α} (hcall : w.PopCall p c clock w' clock' (some out)) :
    w.channel.callPop = (w'.channel, some out) := by
  cases hcall with
  | ret hreturned => simp only [Channel.callPop, hreturned]

theorem PopCall.producer {result : Option (Option α)}
    (hcall : w.PopCall p c clock w' clock' result) :
    w'.channel.producer = w.channel.producer := by
  have hstep {next : Channel α} (hstep : w.channel.popStep = some next) :
      next.producer = w.channel.producer := by
    have hframe := w.channel.callPop_frame
    rw [Channel.callPop_of_popStep hstep] at hframe
    exact hframe.2
  cases hcall with
  | call hidle => rfl
  | ret hreturned => rfl
  | step hpop =>
      cases hpop with
      | loadTail hpc hread => rfl
      | loadHead hpc hread => rfl
      | own hpc hpop => exact hstep hpop
      | loadSlot hpc hpop => exact hstep hpop
      | storeTail hpc hpop => exact hstep hpop

/-- A pop of a thread that knows the newest store counts everything in the ring. -/
theorem PopCall.running {handed : List α} (hcall : w.PopCall p c clock w' clock' none)
    (hlength : w.heads.length = w.channel.pushed.length + 1)
    (hpopped : w.channel.popped = handed ++ w.channel.consumer.inHand) :
    w'.channel.popped = handed ++ w'.channel.consumer.inHand ∧
      (Knows w.heads p clock w.channel.pushed.length → w.channel.CountsAll →
        w'.channel.CountsAll) := by
  have hstep {next : Channel α} (hstep : w.channel.popStep = some next) :
      next.popped = handed ++ next.consumer.inHand ∧
        (Knows w.heads p clock w.channel.pushed.length → w.channel.CountsAll → next.CountsAll) := by
    have hrunning := Channel.callPop_running (Channel.callPop_of_popStep hstep) hpopped
    exact ⟨hrunning.1, fun _ => hrunning.2⟩
  cases hcall with
  | call hidle =>
      rw [hidle] at hpopped
      exact ⟨hpopped, fun _ _ => trivial⟩
  | step hpop =>
      cases hpop with
      | loadTail hpc hread =>
          rw [hpc] at hpopped
          exact ⟨hpopped, fun _ _ => trivial⟩
      | @loadHead tail i m hpc hread =>
          rw [hpc] at hpopped
          refine ⟨hpopped, fun hknown _ => ?_⟩
          have hle := hread.le hknown
          have hlt := hread.lt_length
          rw [hlength] at hlt
          obtain rfl : i = w.channel.pushed.length := by omega
          exact rfl
      | own hpc hpop => exact hstep hpop
      | loadSlot hpc hpop => exact hstep hpop
      | storeTail hpc hpop => exact hstep hpop

theorem Inv.exists_popCall {kp kc : Clock T} {bits tailSeen headSeen : Nat}
    (h : w.Inv p c kp kc bits tailSeen headSeen) :
    ∃ w' kc', w.PopCall p c kc w' kc' w.channel.callPop.2 ∧
      w'.channel = w.channel.callPop.1 := by
  have hstep {w' : WeakRing T α} {kc' : Clock T} {next : Channel α}
      (hpop : w.PopStep p c kc w' kc') (hnext : w.channel.popStep = some next)
      (hchannel : w'.channel = next) :
      ∃ w' kc', w.PopCall p c kc w' kc' w.channel.callPop.2 ∧
        w'.channel = w.channel.callPop.1 := by
    rw [Channel.callPop_of_popStep hnext]
    exact ⟨w', kc', .step hpop, hchannel⟩
  cases hpc : w.channel.consumer with
  | idle =>
      simp only [Channel.callPop, hpc]
      exact ⟨_, _, .call hpc, rfl⟩
  | returned out =>
      simp only [Channel.callPop, hpc]
      exact ⟨_, _, .ret hpc, rfl⟩
  | loadTail =>
      have hlt : w.channel.popped.length < w.tails.length := by
        rw [h.tails_length]
        exact Nat.lt_succ_self _
      have hfound := List.getElem?_eq_getElem hlt
      have hnext : w.channel.popStep =
          some { w.channel with consumer := .testCache w.channel.ring.tail } := by
        simp only [Channel.popStep, hpc, SpscRing.popStep, Option.map_some]
      refine hstep (.loadTail hpc (reads_newest kc hfound h.tails_length)) hnext ?_
      rw [h.tails_value _ _ hfound, h.channel.tail]
  | loadHead tail =>
      have hlt : w.channel.pushed.length < w.heads.length := by
        rw [h.heads_length]
        exact Nat.lt_succ_self _
      have hfound := List.getElem?_eq_getElem hlt
      have hnext : w.channel.popStep = some { w.channel with
          consumer := .storeCache tail w.channel.ring.head
          headLoad := w.channel.unpopped } := by
        simp only [Channel.popStep, hpc, SpscRing.popStep, Option.map_some]
      refine hstep (.loadHead hpc (reads_newest kc hfound h.heads_length)) hnext ?_
      rw [h.heads_value _ _ hfound, h.channel.head]
      rfl
  | loadSlot tail =>
      obtain ⟨next, hnext⟩ : ∃ next, w.channel.popStep = some next := by
        simp [Channel.popStep, hpc, SpscRing.popStep]
      exact hstep (.loadSlot hpc hnext) hnext rfl
  | storeTail tail out =>
      obtain ⟨next, hnext⟩ : ∃ next, w.channel.popStep = some next := by
        simp [Channel.popStep, hpc, SpscRing.popStep]
      exact hstep (.storeTail hpc hnext) hnext rfl
  | testCache _ | storeCache _ _ | retestCache _ =>
      obtain ⟨next, hnext⟩ : ∃ next, w.channel.popStep = some next := by
        simp [Channel.popStep, hpc, SpscRing.popStep]
      exact hstep (.own (by rw [hpc]; rfl) hnext) hnext rfl

end WeakRing

/-! ### The threads without the clocks -/

/-- The lane as it is without the clocks. -/
def WeakLane.toLane {ι α σ : Type} (lane : WeakLane ι α σ) : Lane α σ :=
  { channel := lane.ring.channel
    pc := lane.pc
    state := lane.state
    applied := lane.applied }

namespace WeakFanout

variable {ι α σ : Type}

def toFanout (s : WeakFanout ι α σ) : Fanout ι α σ :=
  { lanes := fun i => (s.lanes i).toLane
    remaining := s.remaining
    sent := s.sent
    finished := s.finished }

variable [DecidableEq ι]

theorem lanes_update (s : WeakFanout ι α σ) (i : ι) (lane : WeakLane ι α σ) :
    (fun j => (Function.update s.lanes i lane j).toLane) =
      Function.update s.toFanout.lanes i lane.toLane := by
  funext j
  by_cases hj : j = i
  · subst hj
    rw [Function.update_self, Function.update_self]
  · rw [Function.update_of_ne hj, Function.update_of_ne hj]
    rfl

theorem toLane_afterPop [Inhabited α] {apply : σ → α → σ} {lane : WeakLane ι α σ} {i : ι}
    {ring : WeakRing (Thread ι) α} {clock clock' : Clock (Thread ι)} {out : Option α}
    (onEmpty : WorkerPc)
    (hcall : lane.ring.PopCall .producer (.worker i) clock ring clock' (some out)) :
    (lane.afterPop apply onEmpty ring (some out)).toLane = lane.toLane.popping apply onEmpty := by
  have hreturned : lane.toLane.channel.callPop = (ring.channel, some out) := hcall.returned
  unfold Lane.popping
  rw [hreturned]
  cases out with
  | none => rfl
  | some item => rfl

/-- What the clocks add: who has read the raised flag knows every push. -/
structure Inv (route : α → ι) (apply : σ → α → σ) (init : σ) (items : List α)
    (s : WeakFanout ι α σ) : Prop where
  fanout : s.toFanout.Inv route apply init items
  rings : ∀ i, ∃ bits tailSeen headSeen, (s.lanes i).ring.Inv .producer (.worker i)
    (s.clocks .producer) (s.clocks (.worker i)) bits tailSeen headSeen
  flagged : ∀ m ∈ s.flag, m.value = true → s.finished = true ∧
    ∀ i, Knows (s.lanes i).ring.heads .producer m.clock (s.lanes i).ring.channel.pushed.length
  raised : ∃ n m, s.flag.length = n + 1 ∧ s.flag[n]? = some m ∧ m.value = s.finished
  draining : ∀ i, (s.lanes i).pc = .drain → Knows (s.lanes i).ring.heads .producer
    (s.clocks (.worker i)) (s.lanes i).ring.channel.pushed.length

theorem inv_start [Inhabited α] (route : α → ι) (apply : σ → α → σ) (init : σ) (items : List α)
    {capacity : UInt64} {ring : SpscRing α} (hring : SpscRing.new capacity = some ring) :
    (start ring init items : WeakFanout ι α σ).Inv route apply init items := by
  obtain ⟨bits, hinit, -⟩ := Channel.inv_new hring
  refine ⟨Fanout.inv_start route apply init items hring,
    fun i => ⟨bits, 0, 0, WeakRing.inv_start hinit _ _⟩, fun m hm htrue => ?_,
    ⟨0, _, rfl, rfl, rfl⟩, fun i hpc => ?_⟩
  · obtain rfl := List.mem_singleton.mp hm
    cases htrue
  · cases hpc

namespace Inv

variable {route : α → ι} {apply : σ → α → σ} {init : σ} {items : List α}
  {s s' : WeakFanout ι α σ}

/-- The rings after a step of the thread at one end of ring `i`. -/
theorem rings_update (h : s.Inv route apply init items) {i : ι} {lane : WeakLane ι α σ}
    {t : Thread ι} {clock : Clock (Thread ι)} (ht : t = .producer ∨ t = .worker i)
    (hclock : s.clocks t ≤ clock)
    (hlane : ∃ bits tailSeen headSeen, lane.ring.Inv .producer (.worker i)
      (Function.update s.clocks t clock .producer) (Function.update s.clocks t clock (.worker i))
      bits tailSeen headSeen) (j : ι) :
    ∃ bits tailSeen headSeen, (Function.update s.lanes i lane j).ring.Inv .producer (.worker j)
      (Function.update s.clocks t clock .producer) (Function.update s.clocks t clock (.worker j))
      bits tailSeen headSeen := by
  by_cases hj : j = i
  · subst hj
    rw [Function.update_self]
    exact hlane
  · rw [Function.update_of_ne hj]
    obtain ⟨bits, tailSeen, headSeen, hring⟩ := h.rings j
    have hle (u : Thread ι) : s.clocks u ≤ Function.update s.clocks t clock u := by
      by_cases hu : u = t
      · subst hu
        rwa [Function.update_self]
      · rw [Function.update_of_ne hu]
    exact ⟨bits, tailSeen, headSeen, hring.mono (hle _) (hle _)⟩

theorem raise [Inhabited α] (h : s.Inv route apply init items) (hremaining : s.remaining = [])
    (hunfinished : s.finished = false) :
    ({ s with
      clocks := Function.update s.clocks .producer (tick .producer (s.clocks .producer))
      flag := s.flag ++ [⟨true, s.clocks .producer⟩]
      finished := true } : WeakFanout ι α σ).Inv route apply init items := by
  refine ⟨?_, fun i => ?_, fun m hm htrue => ⟨rfl, fun i => ?_⟩,
    ⟨s.flag.length, _, List.length_append, List.getElem?_concat_length, rfl⟩, fun i hpc => ?_⟩
  · have hfanout := h.fanout.produce
    rwa [Fanout.produce_nil hremaining] at hfanout
  · obtain ⟨bits, tailSeen, headSeen, hring⟩ := h.rings i
    dsimp only
    rw [Function.update_self, Function.update_of_ne (by simp)]
    exact ⟨bits, tailSeen, headSeen, hring.mono (le_tick _ _) le_rfl⟩
  · rcases List.mem_append.mp hm with hm | hm
    · exact absurd ((h.flagged m hm htrue).1.symm.trans hunfinished) (by simp)
    · obtain rfl := List.mem_singleton.mp hm
      obtain ⟨bits, tailSeen, headSeen, hring⟩ := h.rings i
      have hlt : (s.lanes i).ring.channel.pushed.length < (s.lanes i).ring.heads.length := by
        rw [hring.heads_length]
        exact Nat.lt_succ_self _
      exact ⟨_, List.getElem?_eq_getElem hlt,
        (hring.heads_stamped.past _ (List.getElem_mem hlt)).le⟩
  · dsimp only
    rw [Function.update_of_ne (by simp)]
    exact h.draining i hpc

theorem push [Inhabited α] (h : s.Inv route apply init items) {item : α} {rest : List α}
    {ring : WeakRing (Thread ι) α} {clock : Clock (Thread ι)} {result : Option Bool}
    (hremaining : s.remaining = item :: rest)
    (hcall : (s.lanes (route item)).ring.PushCall .producer (.worker (route item)) item
      (s.clocks .producer) ring clock result) :
    ({ s with
      lanes := Function.update s.lanes (route item) { s.lanes (route item) with ring := ring }
      clocks := Function.update s.clocks .producer clock
      remaining := if result = some true then rest else s.remaining
      sent := if result = some true then s.sent + 1 else s.sent } :
        WeakFanout ι α σ).Inv route apply init items := by
  obtain ⟨bits, tailSeen, headSeen, hring⟩ := h.rings (route item)
  obtain ⟨hclock, tailSeen', hring'⟩ := hring.pushCall hcall
  have hunfinished : s.finished = false := h.fanout.unfinished hremaining
  have hflag (m : Write (Thread ι) Bool) (hm : m ∈ s.flag) : m.value ≠ true := by
    intro htrue
    exact absurd ((h.flagged m hm htrue).1.symm.trans hunfinished) (by simp)
  -- nobody drains before the flag
  have hnotDraining (i : ι) : (s.lanes i).pc ≠ .drain := by
    intro hpc
    have hworker := (h.fanout.lane i).worker
    have hpc' : (s.toFanout.lanes i).pc = .drain := hpc
    rw [Lane.WorkerInv, hpc'] at hworker
    exact absurd (hworker.1.symm.trans hunfinished) (by simp)
  refine ⟨?_, h.rings_update (Or.inl rfl) hclock ?_, fun m hm htrue => absurd htrue (hflag m hm),
    h.raised, fun i hpc => ?_⟩
  · by_cases hresult : result = some true
    · subst hresult
      have hfanout := h.fanout.pushed hremaining hcall.returned
      rw [Fanout.produce_pushed hremaining hcall.returned] at hfanout
      unfold toFanout
      simp only [lanes_update, if_true]
      exact hfanout
    · unfold toFanout
      simp only [lanes_update, if_neg hresult]
      have hlane := h.fanout.lane (route item)
      obtain ⟨hpopped, hconsumer⟩ := hcall.frame
      have hremaining' : s.toFanout.remaining = item :: rest := hremaining
      rw [hremaining', Fanout.filter_route_head] at hlane
      obtain ⟨howed, hcarries⟩ := hcall.owed hresult (h.fanout.carries hremaining)
      refine h.fanout.setLane ?_ (Or.inr ⟨item, rest, hremaining, rfl, hcarries⟩)
      rw [hremaining', Fanout.filter_route_head]
      have hworker := hlane.worker
      have hunfinished' : s.toFanout.finished = false := hunfinished
      rw [hunfinished'] at hworker
      exact
        { ring := ⟨bits, tailSeen', headSeen, hring'.channel⟩
          state := hlane.state
          popped := by
            change ring.channel.popped =
              (s.lanes (route item)).applied ++ ring.channel.consumer.inHand
            rw [hpopped, hconsumer]
            exact hlane.popped
          pushed := howed.trans hlane.pushed
          worker := hworker.of_unfinished rfl hconsumer }
  · rw [Function.update_self, Function.update_of_ne (by simp)]
    exact ⟨bits, tailSeen', headSeen, hring'⟩
  · dsimp only at hpc
    by_cases hi : i = route item
    · subst hi
      rw [Function.update_self] at hpc
      exact absurd hpc (hnotDraining _)
    · rw [Function.update_of_ne hi] at hpc
      exact absurd hpc (hnotDraining i)

/-- A step of worker `i` that leaves what has been pushed to it alone. -/
theorem work (h : s.Inv route apply init items) {i : ι} {lane : WeakLane ι α σ}
    {clock : Clock (Thread ι)} (hclock : s.clocks (.worker i) ≤ clock)
    (hlane : lane.toLane.Inv apply init s.finished (s.remaining.filter (route · = i))
      (items.filter (route · = i)))
    (hproducer : lane.ring.channel.producer = (s.lanes i).ring.channel.producer)
    (hring : ∃ bits tailSeen headSeen, lane.ring.Inv .producer (.worker i) (s.clocks .producer)
      clock bits tailSeen headSeen)
    (hheads : lane.ring.heads = (s.lanes i).ring.heads)
    (hpushed : lane.ring.channel.pushed = (s.lanes i).ring.channel.pushed)
    (hdraining : lane.pc = .drain → Knows (s.lanes i).ring.heads .producer clock
      (s.lanes i).ring.channel.pushed.length) :
    ({ s with
      lanes := Function.update s.lanes i lane
      clocks := Function.update s.clocks (.worker i) clock } :
        WeakFanout ι α σ).Inv route apply init items := by
  refine ⟨?_, h.rings_update (Or.inr rfl) hclock ?_, fun m hm htrue => ?_, h.raised,
    fun j hpc => ?_⟩
  · unfold toFanout
    simp only [lanes_update]
    refine h.fanout.setLane hlane ?_
    have hpushing := h.fanout.pushing i
    unfold toFanout WeakLane.toLane at hpushing
    unfold WeakLane.toLane
    rwa [hproducer]
  · rwa [Function.update_self, Function.update_of_ne (by simp)]
  · obtain ⟨hfinished, hknown⟩ := h.flagged m hm htrue
    refine ⟨hfinished, fun j => ?_⟩
    dsimp only
    by_cases hj : j = i
    · subst hj
      rw [Function.update_self, hheads, hpushed]
      exact hknown j
    · rw [Function.update_of_ne hj]
      exact hknown j
  · dsimp only at hpc ⊢
    by_cases hj : j = i
    · subst hj
      rw [Function.update_self] at hpc
      rw [Function.update_self, Function.update_self, hheads, hpushed]
      exact hdraining hpc
    · rw [Function.update_of_ne hj] at hpc
      rw [Function.update_of_ne hj, Function.update_of_ne (by simpa using hj)]
      exact h.draining j hpc

variable [Inhabited α]

/-- A step inside a pop, at either of the two places of the loop. -/
theorem popping (h : s.Inv route apply init items) {i : ι} {onEmpty : WorkerPc}
    {ring : WeakRing (Thread ι) α} {clock : Clock (Thread ι)} {result : Option (Option α)}
    (hcall : (s.lanes i).ring.PopCall .producer (.worker i) (s.clocks (.worker i)) ring clock
      result)
    (hwork : (s.toFanout.lanes i).work apply s.finished =
      (s.toFanout.lanes i).popping apply onEmpty)
    (honEmpty : onEmpty ≠ .drain)
    (hpc : (s.lanes i).pc = .pop ∨ (s.lanes i).pc = .drain) :
    ({ s with
      lanes := Function.update s.lanes i ((s.lanes i).afterPop apply onEmpty ring result)
      clocks := Function.update s.clocks (.worker i) clock } :
        WeakFanout ι α σ).Inv route apply init items := by
  obtain ⟨bits, tailSeen, headSeen, hring⟩ := h.rings i
  obtain ⟨hclock, headSeen', hring'⟩ := hring.popCall hcall
  obtain ⟨hheads, -, hpushed, -⟩ := hcall.grows
  have hproducer := hcall.producer
  have hlane := h.fanout.lane i
  cases result with
  | some out =>
      have hafter : ((s.lanes i).afterPop apply onEmpty ring (some out)).ring = ring := by
        cases out <;> rfl
      refine h.work hclock ?_ (by rwa [hafter])
        ⟨bits, tailSeen, headSeen', by rwa [hafter]⟩ (by rwa [hafter]) (by rwa [hafter])
        fun hdrain => ?_
      · rw [toLane_afterPop onEmpty hcall]
        exact hwork ▸ hlane.work
      · cases out with
        | none => exact absurd hdrain honEmpty
        | some item => cases hdrain
  | none =>
      obtain ⟨hpopped, hcounts⟩ := hcall.running hring.heads_length hlane.popped
      have hknown (hdrain : (s.lanes i).pc = .drain) := h.draining i hdrain
      refine h.work hclock ?_ hproducer ⟨bits, tailSeen, headSeen', hring'⟩ hheads hpushed
        fun hdrain => (hknown hdrain).mono hclock
      refine
        { ring := ⟨bits, tailSeen, headSeen', hring'.channel⟩
          state := hlane.state
          popped := hpopped
          pushed := ?_
          worker := ?_ }
      · change ring.channel.pushed ++ ring.channel.producer.owed _ = _
        rw [hpushed, hproducer]
        exact hlane.pushed
      · have hworker := hlane.worker
        unfold Lane.WorkerInv toFanout WeakLane.toLane at hworker
        unfold Lane.WorkerInv WeakLane.afterPop WeakLane.toLane
        rcases hpc with hpc | hpc
        · simp only [hpc]
        · simp only [hpc] at hworker ⊢
          exact ⟨hworker.1, hcounts (hknown hpc) hworker.2⟩

theorem step (h : s.Inv route apply init items) (hstep : s.Step route apply s') :
    s'.Inv route apply init items := by
  cases hstep with
  | push hremaining hcall => exact h.push hremaining hcall
  | raise hremaining hunfinished => exact h.raise hremaining hunfinished
  | pop i hpc hcall =>
      refine h.popping hcall ?_ (by simp) (Or.inl hpc)
      simp only [Lane.work, toFanout, WeakLane.toLane, hpc]
  | drain i hpc hcall =>
      refine h.popping hcall ?_ (by simp) (Or.inr hpc)
      simp only [Lane.work, toFanout, WeakLane.toLane, hpc]
  | @loadFlag i k m hpc hread =>
      obtain ⟨bits, tailSeen, headSeen, hring⟩ := h.rings i
      have hlane := h.fanout.lane i
      have hwork := hlane.work
      refine h.work le_sup_left ?_ rfl
        ⟨bits, tailSeen, headSeen, hring.mono le_rfl le_sup_left⟩ rfl rfl fun hdrain => ?_
      · cases hvalue : m.value with
        | false =>
            -- a late load of the flag: the worker goes round once more
            exact { hlane with worker := trivial }
        | true =>
            obtain ⟨hfinished, -⟩ := h.flagged m (List.mem_of_getElem? hread.found) hvalue
            have hfinished' : s.toFanout.finished = true := hfinished
            have hpc' : (s.toFanout.lanes i).pc = .loadFlag := hpc
            simp only [Lane.work, hpc', hfinished', if_true] at hwork
            rw [hfinished]
            exact hwork
      · cases hvalue : m.value with
        | false => simp [hvalue] at hdrain
        | true =>
            obtain ⟨-, hknown⟩ := h.flagged m (List.mem_of_getElem? hread.found) hvalue
            exact (hknown i).mono le_sup_right

end Inv

theorem inv_of_reachable [Inhabited α] {route : α → ι} {apply : σ → α → σ} {init : σ}
    {items : List α} {s s' : WeakFanout ι α σ} (h : s.Inv route apply init items)
    (hreach : Relation.ReflTransGen (Step route apply) s s') : s'.Inv route apply init items := by
  induction hreach with
  | refl => exact h
  | tail _ hstep ih => exact ih.step hstep

namespace Inv

variable {route : α → ι} {apply : σ → α → σ} {init : σ} {items : List α} {s : WeakFanout ι α σ}

theorem raceFree (h : s.Inv route apply init items) (i : ι) :
    (s.lanes i).ring.RaceFree .producer (.worker i) s.clocks := by
  obtain ⟨_, _, _, hring⟩ := h.rings i
  exact hring.raceFree rfl rfl

/-- What a worker has applied so far is the beginning of what is routed to it. -/
theorem applied_prefix (h : s.Inv route apply init items) (i : ι) :
    (s.lanes i).applied <+: items.filter (route · = i) := by
  have hlane := h.fanout.lane i
  obtain ⟨_, _, _, hring⟩ := hlane.ring
  calc
    (s.lanes i).applied <+: (s.lanes i).ring.channel.popped :=
      ⟨_, hlane.popped.symm⟩
    _ <+: (s.lanes i).ring.channel.pushed := hring.popped_prefix
    _ <+: items.filter (route · = i) := ⟨_, hlane.pushed⟩

variable [Inhabited α]

/-- Every move of the threads can be made as if the memory had no delay. -/
theorem exists_produce (h : s.Inv route apply init items) :
    ∃ s', Relation.ReflTransGen (Step route apply) s s' ∧
      s'.toFanout = s.toFanout.produce route := by
  cases hremaining : s.remaining with
  | nil =>
      rw [Fanout.produce_nil hremaining]
      cases hfinished : s.finished with
      | true =>
          refine ⟨s, .refl, ?_⟩
          unfold toFanout
          rw [hfinished]
      | false => exact ⟨_, .single (.raise hremaining hfinished), rfl⟩
  | cons item rest =>
      obtain ⟨_, _, _, hring⟩ := h.rings (route item)
      obtain ⟨ring, clock, hcall, hchannel⟩ := hring.exists_pushCall item
      rcases hresult : (s.lanes (route item)).ring.channel.callPush item with ⟨c, result⟩
      rw [hresult] at hcall hchannel
      refine ⟨_, .single (.push hremaining hcall), ?_⟩
      obtain rfl : ring.channel = c := hchannel
      unfold toFanout
      simp only [lanes_update]
      by_cases htrue : result = some true
      · subst htrue
        rw [Fanout.produce_pushed hremaining hresult]
        rfl
      · rw [Fanout.produce_running hremaining hresult htrue]
        simp only [if_neg htrue]
        rfl

theorem exists_work (h : s.Inv route apply init items) (i : ι) :
    ∃ s', Relation.ReflTransGen (Step route apply) s s' ∧
      s'.toFanout = s.toFanout.step route apply (.worker i) := by
  obtain ⟨_, _, _, hring⟩ := h.rings i
  obtain ⟨ring, clock, hcall, hchannel⟩ := hring.exists_popCall
  have hpopping (onEmpty : WorkerPc) :
      ((s.lanes i).afterPop apply onEmpty ring (s.lanes i).ring.channel.callPop.2).toLane =
        (s.lanes i).toLane.popping apply onEmpty := by
    rcases hresult : (s.lanes i).ring.channel.callPop with ⟨c, result⟩
    have hresult' : (s.lanes i).toLane.channel.callPop = (c, result) := hresult
    rw [hresult] at hchannel
    obtain rfl : ring.channel = c := hchannel
    unfold Lane.popping
    rw [hresult']
    rcases result with _ | _ | item <;> rfl
  have hstep {lane : WeakLane ι α σ} {clock : Clock (Thread ι)}
      (hstep : s.Step route apply { s with
        lanes := Function.update s.lanes i lane
        clocks := Function.update s.clocks (.worker i) clock })
      (hlane : lane.toLane = (s.toFanout.lanes i).work apply s.finished) :
      ∃ s', Relation.ReflTransGen (Step route apply) s s' ∧
        s'.toFanout = s.toFanout.step route apply (.worker i) := by
    refine ⟨_, .single hstep, ?_⟩
    unfold toFanout
    simp only [lanes_update, hlane]
    rfl
  cases hpc : (s.lanes i).pc with
  | pop =>
      refine hstep (.pop i hpc hcall) ?_
      rw [hpopping]
      simp only [Lane.work, toFanout, WeakLane.toLane, hpc]
  | drain =>
      refine hstep (.drain i hpc hcall) ?_
      rw [hpopping]
      simp only [Lane.work, toFanout, WeakLane.toLane, hpc]
  | loadFlag =>
      obtain ⟨n, m, hlength, hfound, hvalue⟩ := h.raised
      refine hstep (.loadFlag i hpc (reads_newest _ hfound hlength)) ?_
      rw [hvalue]
      simp only [Lane.work, toFanout, WeakLane.toLane, hpc]
  | exited =>
      refine ⟨s, .refl, ?_⟩
      have hwork : (s.toFanout.lanes i).work apply s.finished = s.toFanout.lanes i := by
        simp only [Lane.work, toFanout, WeakLane.toLane, hpc]
      rw [Fanout.step]
      change _ = s.toFanout.setLane i ((s.toFanout.lanes i).work apply s.finished)
      rw [hwork, Fanout.setLane, Function.update_eq_self]

theorem exists_run (h : s.Inv route apply init items) (schedule : List (Thread ι)) :
    ∃ s', Relation.ReflTransGen (Step route apply) s s' ∧
      s'.toFanout = s.toFanout.run route apply schedule := by
  induction schedule generalizing s with
  | nil => exact ⟨s, .refl, rfl⟩
  | cons thread schedule ih =>
      obtain ⟨s₁, hreach, hs₁⟩ : ∃ s', Relation.ReflTransGen (Step route apply) s s' ∧
          s'.toFanout = s.toFanout.step route apply thread := by
        cases thread with
        | producer => exact h.exists_produce
        | worker i => exact h.exists_work i
      obtain ⟨s₂, hreach', hs₂⟩ := ih (inv_of_reachable h hreach)
      refine ⟨s₂, hreach.trans hreach', ?_⟩
      rw [hs₂, hs₁]
      rfl

/-- However far the threads have got, and whatever they have read late, they can still end. -/
theorem exists_terminated [Fintype ι] (h : s.Inv route apply init items)
    {schedule : Stream' (Thread ι)} (hfair : FairRuns.Fair schedule) :
    ∃ s', Relation.ReflTransGen (Step route apply) s s' ∧ s'.Terminated := by
  obtain ⟨n, hn⟩ := h.fanout.exists_terminated hfair
  obtain ⟨s', hreach, hs'⟩ := h.exists_run (schedule.take n)
  have hend := hn n le_rfl
  rw [← hs'] at hend
  exact ⟨s', hreach, hend⟩

end Inv

end WeakFanout

/-! ### The pipelines -/

/-- `replay_pipelined` with the memory orders of the source, in every execution they allow: no slot
is raced for, the book has at every point a beginning of the messages applied, once the consumer has
left the loop it has all of them, as on the reference path, and until then it can get there. -/
theorem replayPipelined_releaseAcquire (buf : List UInt8) (book : OrderBook)
    (ringCapacity : UInt64) (hcapacity : ringCapacity.toNat ≤ 2 ^ 63) :
    ∃ ring : SpscRing Message, SpscRing.new ringCapacity = some ring ∧
      ∀ s : WeakFanout Unit Message (OrderBook × Nat),
        Relation.ReflTransGen (WeakFanout.Step (fun _ => ()) applyCounting)
          (.start ring (book, 0) (framedMessages buf)) s →
        (s.lanes ()).ring.RaceFree .producer (.worker ()) s.clocks ∧
        (s.lanes ()).applied <+: framedMessages buf ∧
        (s.lanes ()).state = (s.lanes ()).applied.foldl applyCounting (book, 0) ∧
        (s.Terminated → (s.lanes ()).state = replaySingleThreaded buf book) ∧
        ∃ s', Relation.ReflTransGen (WeakFanout.Step (fun _ => ()) applyCounting) s s' ∧
          s'.Terminated := by
  obtain ⟨_, -, -, hcap, -⟩ := roundUpPow2_spec hcapacity
  obtain ⟨ring, hring⟩ : ∃ ring : SpscRing Message, SpscRing.new ringCapacity = some ring :=
    ⟨_, congrArg (Option.map _) hcap⟩
  refine ⟨ring, hring, fun s hreach => ?_⟩
  have h := WeakFanout.inv_of_reachable
    (WeakFanout.inv_start (ι := Unit) _ applyCounting (book, 0) _ hring) hreach
  have hall : (framedMessages buf).filter (fun _ => decide (() = ())) = framedMessages buf :=
    List.filter_eq_self.mpr fun _ _ => rfl
  refine ⟨h.raceFree (), ?_, (h.fanout.lane ()).state, fun hend => ?_,
    h.exists_terminated takingTurns_fair⟩
  · have hprefix := h.applied_prefix ()
    rwa [hall] at hprefix
  · have hstate := h.fanout.state_of_terminated hend ()
    rw [hall] at hstate
    exact hstate

theorem replayPipelined_releaseAcquire_twoAdds :
    ∃ ring : SpscRing Message, SpscRing.new 2 = some ring ∧
      ∀ s : WeakFanout Unit Message (OrderBook × Nat),
        Relation.ReflTransGen (WeakFanout.Step (fun _ => ()) applyCounting)
          (.start ring (.empty, 0) (framedMessages twoAdds)) s →
        s.Terminated → (s.lanes ()).state = replaySingleThreaded twoAdds .empty := by
  obtain ⟨ring, hring, hrun⟩ := replayPipelined_releaseAcquire twoAdds .empty 2 (by decide)
  refine ⟨ring, hring, fun s hreach => ?_⟩
  obtain ⟨-, -, -, hend, -⟩ := hrun s hreach
  exact hend

/-- `replay_sharded` with the memory orders of the source, for every number of workers and in every
execution they allow. -/
theorem replaySharded_releaseAcquire (buf : List UInt8) (nWorkers : UInt32) :
    ∃ ring : SpscRing Message, SpscRing.new 4096 = some ring ∧
      ∀ s : WeakFanout (Fin (workerCount nWorkers).toNat) Message BookSet,
        Relation.ReflTransGen
          (WeakFanout.Step (fun m : Message => shard nWorkers m.stockLocate) BookSet.apply)
          (.start ring {} (framedMessages buf)) s →
        (∀ w, (s.lanes w).ring.RaceFree .producer (.worker w) s.clocks) ∧
        (∀ w, (s.lanes w).applied <+:
          (framedMessages buf).filter (shard nWorkers ·.stockLocate = w)) ∧
        (s.Terminated → s.sent = (framedMessages buf).length ∧
          ∀ locate, BookSet.AgreeAt locate
            (BookSet.mergeAll {} (fun w => (s.lanes w).state) (List.finRange _))
            ((framedMessages buf).foldl BookSet.apply {})) ∧
        ∃ s', Relation.ReflTransGen
          (WeakFanout.Step (fun m : Message => shard nWorkers m.stockLocate) BookSet.apply) s s' ∧
          s'.Terminated := by
  obtain ⟨ring, hring⟩ : ∃ ring : SpscRing Message, SpscRing.new 4096 = some ring := ⟨_, rfl⟩
  refine ⟨ring, hring, fun s hreach => ?_⟩
  have h := WeakFanout.inv_of_reachable
    (WeakFanout.inv_start (fun m : Message => shard nWorkers m.stockLocate) BookSet.apply {} _
      hring) hreach
  refine ⟨h.raceFree, h.applied_prefix, fun hend => ⟨h.fanout.sent_of_terminated hend, ?_⟩,
    h.exists_terminated (roundRobin_fair _)⟩
  exact BookSet.agreeAt_shards _ nWorkers (h.fanout.state_of_terminated hend)

end HftOrderbook
