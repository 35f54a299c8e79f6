import HftOrderbook.Feed.Fanout
import HftOrderbook.Proof.SpscRing

/-!
# A terminated run has applied everything, in order

Each lane is followed on its own: what its ring has been given and what the producer still owes it
add up to the items routed there, and what its worker holds and has applied adds up to what was
popped. A worker leaves only on an empty ring that it has loaded after the flag, and after the flag
nothing more is pushed.
-/

namespace HftOrderbook

/-! ### One step of a call -/

/-- What the producer still owes a ring, if it owed `todo` before the push it is in. -/
def PushPc.owed {α : Type} (todo : List α) : PushPc α → List α
  | .returned true => todo.tail
  | _ => todo

def PushPc.Carries {α : Type} (item : α) : PushPc α → Prop
  | .loadHead carried | .testCache carried _ | .loadTail carried _ | .storeCache carried _ _
  | .retestCache carried _ | .storeSlot carried _ | .storeHead carried _ => carried = item
  | .idle | .returned _ => True

/-- What has been popped and not yet handed to the caller. -/
def PopPc.inHand {α : Type} : PopPc α → List α
  | .returned (some out) => [out]
  | _ => []

namespace Channel

variable {α : Type}

theorem step_callPush [Inhabited α] (c : Channel α) (item : α) : c.Step (c.callPush item).1 := by
  unfold callPush
  cases hpc : c.producer with
  | idle => exact .callPush item hpc
  | returned ok => exact .returnPush ok hpc
  | _ => exact .push (by simp [pushStep, SpscRing.pushStep, hpc])

theorem step_callPop [Inhabited α] (c : Channel α) : c.Step c.callPop.1 := by
  unfold callPop
  cases hpc : c.consumer with
  | idle => exact .callPop hpc
  | returned out => exact .returnPop out hpc
  | _ => exact .pop (by simp [popStep, SpscRing.popStep, hpc])

theorem callPush_frame (c : Channel α) (item : α) :
    (c.callPush item).1.popped = c.popped ∧ (c.callPush item).1.consumer = c.consumer := by
  unfold callPush
  cases hpc : c.producer <;> simp [pushStep, SpscRing.pushStep, hpc]

theorem callPop_frame [Inhabited α] (c : Channel α) :
    c.callPop.1.pushed = c.pushed ∧ c.callPop.1.producer = c.producer := by
  unfold callPop
  cases hpc : c.consumer <;> simp [popStep, SpscRing.popStep, hpc]

theorem callPush_returned {c c' : Channel α} {item : α} {ok : Bool}
    (hcall : c.callPush item = (c', some ok)) :
    c.producer = .returned ok ∧ c' = { c with producer := .idle } := by
  unfold callPush at hcall
  cases hpc : c.producer <;> simp_all

theorem callPush_owed {c c' : Channel α} {item : α} {rest : List α} {result : Option Bool}
    (hcall : c.callPush item = (c', result)) (hresult : result ≠ some true)
    (hcarries : c.producer.Carries item) :
    c'.pushed ++ c'.producer.owed (item :: rest) = c.pushed ++ c.producer.owed (item :: rest) ∧
      c'.producer.Carries item := by
  obtain ⟨ring, pc, consumer, pushed, popped, tailLoad, headLoad⟩ := c
  cases pc with
  | idle =>
      cases hcall
      exact ⟨rfl, rfl⟩
  | returned ok =>
      cases hcall
      cases ok with
      | false => exact ⟨rfl, trivial⟩
      | true => exact absurd rfl hresult
  | testCache carried head =>
      cases hcall
      dsimp [pushStep, SpscRing.pushStep]
      split_ifs
      · exact ⟨rfl, hcarries⟩
      · exact ⟨rfl, hcarries⟩
  | retestCache carried head =>
      cases hcall
      dsimp [pushStep, SpscRing.pushStep]
      split_ifs
      · exact ⟨rfl, trivial⟩
      · exact ⟨rfl, hcarries⟩
  | storeHead carried head =>
      cases hcall
      obtain rfl : carried = item := hcarries
      exact ⟨List.append_assoc _ _ _, trivial⟩
  | _ =>
      cases hcall
      exact ⟨rfl, hcarries⟩

/-- A pop that is about to find the ring empty has counted everything that is in it. -/
def CountsAll (c : Channel α) : Prop :=
  match c.consumer with
  | .storeCache _ _ | .retestCache _ | .returned none => c.headLoad = c.unpopped
  | _ => True

theorem callPop_returned [Inhabited α] {c c' : Channel α} {out : Option α}
    (hcall : c.callPop = (c', some out)) :
    c.consumer = .returned out ∧ c' = { c with consumer := .idle } := by
  unfold callPop at hcall
  cases hpc : c.consumer <;> simp_all

theorem callPop_running [Inhabited α] {c c' : Channel α} {handed : List α}
    (hcall : c.callPop = (c', none)) (hpopped : c.popped = handed ++ c.consumer.inHand) :
    c'.popped = handed ++ c'.consumer.inHand ∧ (c.CountsAll → c'.CountsAll) := by
  obtain ⟨ring, producer, pc, pushed, popped, tailLoad, headLoad⟩ := c
  cases pc with
  | returned out => cases hcall
  | loadHead tail =>
      cases hcall
      exact ⟨hpopped, fun _ => rfl⟩
  | storeCache tail head =>
      cases hcall
      exact ⟨hpopped, fun hcounts => hcounts⟩
  | testCache tail =>
      cases hcall
      dsimp [popStep, SpscRing.popStep, CountsAll]
      split_ifs
      · exact ⟨hpopped, fun _ => trivial⟩
      · exact ⟨hpopped, fun _ => trivial⟩
  | retestCache tail =>
      cases hcall
      dsimp [popStep, SpscRing.popStep, CountsAll]
      split_ifs
      · exact ⟨hpopped, fun hcounts => hcounts⟩
      · exact ⟨hpopped, fun _ => trivial⟩
  | storeTail tail out =>
      cases hcall
      obtain rfl : popped = handed := hpopped.trans (List.append_nil handed)
      exact ⟨rfl, fun _ => trivial⟩
  | _ =>
      cases hcall
      exact ⟨hpopped, fun _ => trivial⟩

end Channel

/-! ### One lane -/

namespace Lane

variable {α σ : Type}

/-- What the place in the loop tells: a draining worker has read the flag, and one that has left saw
the ring empty after that. -/
def WorkerInv (finished : Bool) (lane : Lane α σ) : Prop :=
  match lane.pc with
  | .pop => True
  | .loadFlag => lane.channel.consumer = .idle
  | .drain => finished = true ∧ lane.channel.CountsAll
  | .exited => finished = true ∧ lane.channel.consumer = .idle ∧
      lane.channel.popped = lane.channel.pushed

/-- Before the flag a worker knows nothing that the producer could invalidate. -/
theorem WorkerInv.of_unfinished {lane lane' : Lane α σ} {finished : Bool}
    (h : lane.WorkerInv false) (hpc : lane'.pc = lane.pc)
    (hconsumer : lane'.channel.consumer = lane.channel.consumer) : lane'.WorkerInv finished := by
  unfold WorkerInv at h ⊢
  rw [hpc]
  cases hlane : lane.pc with
  | pop => trivial
  | loadFlag =>
      rw [hlane] at h
      exact hconsumer.trans h
  | drain =>
      rw [hlane] at h
      exact absurd h.1 Bool.false_ne_true
  | exited =>
      rw [hlane] at h
      exact absurd h.1 Bool.false_ne_true

/-- A lane that is given `total` in all, of which the producer has yet to finish pushing `todo`. -/
structure Inv (apply : σ → α → σ) (init : σ) (finished : Bool) (todo total : List α)
    (lane : Lane α σ) : Prop where
  ring : ∃ bits tailSeen headSeen, lane.channel.Inv bits tailSeen headSeen
  state : lane.state = lane.applied.foldl apply init
  popped : lane.channel.popped = lane.applied ++ lane.channel.consumer.inHand
  pushed : lane.channel.pushed ++ lane.channel.producer.owed todo = total
  worker : lane.WorkerInv finished

theorem work_producer [Inhabited α] (apply : σ → α → σ) (finished : Bool) (lane : Lane α σ) :
    (lane.work apply finished).channel.producer = lane.channel.producer := by
  have hpopping : ∀ onEmpty,
      (lane.popping apply onEmpty).channel.producer = lane.channel.producer := by
    intro onEmpty
    obtain ⟨-, hproducer⟩ := lane.channel.callPop_frame
    unfold popping
    rcases hcall : lane.channel.callPop with ⟨c, _ | _ | item⟩ <;> rw [hcall] at hproducer <;>
      exact hproducer
  unfold work
  cases lane.pc with
  | pop => exact hpopping _
  | loadFlag => rfl
  | drain => exact hpopping _
  | exited => rfl

namespace Inv

variable {apply : σ → α → σ} {init : σ} {finished : Bool} {todo total : List α} {lane : Lane α σ}

theorem ring_step [Inhabited α] {c : Channel α} (h : lane.Inv apply init finished todo total)
    (hstep : lane.channel.Step c) : ∃ bits tailSeen headSeen, c.Inv bits tailSeen headSeen := by
  obtain ⟨bits, _, _, hring⟩ := h.ring
  exact ⟨bits, hring.step hstep⟩

theorem push [Inhabited α] {item : α} {rest todo' : List α} {c : Channel α} {result : Option Bool}
    (h : lane.Inv apply init false (item :: rest) total)
    (hcall : lane.channel.callPush item = (c, result))
    (hpushed : c.pushed ++ c.producer.owed todo' = total) :
    ({ lane with channel := c } : Lane α σ).Inv apply init false todo' total := by
  have hring := h.ring_step (lane.channel.step_callPush item)
  obtain ⟨hpopped, hconsumer⟩ := lane.channel.callPush_frame item
  rw [hcall] at hring hpopped hconsumer
  exact
    { ring := hring
      state := h.state
      popped := by rw [hpopped, hconsumer, h.popped]
      pushed := hpushed
      worker := h.worker.of_unfinished rfl hconsumer }

theorem finish (h : lane.Inv apply init false [] total) : lane.Inv apply init true [] total :=
  { h with worker := h.worker.of_unfinished rfl rfl }

/-- A pop that returns empty-handed after the flag has emptied the ring. -/
theorem popped_eq_pushed (h : lane.Inv apply init finished todo total)
    (hreturned : lane.channel.consumer = .returned none) (hcounts : lane.channel.CountsAll) :
    lane.channel.popped = lane.channel.pushed := by
  obtain ⟨_, _, _, hring⟩ := h.ring
  have hload : lane.channel.headLoad = 0 := by
    have hconsumer := hring.consumer
    rw [hreturned] at hconsumer
    exact hconsumer
  rw [Channel.CountsAll, hreturned] at hcounts
  have hunpopped : lane.channel.unpopped = 0 := hcounts.symm.trans hload
  exact hring.popped_prefix.eq_of_length_le (Nat.sub_eq_zero_iff_le.mp hunpopped)

theorem popping [Inhabited α] {onEmpty : WorkerPc} (h : lane.Inv apply init finished todo total)
    (hrunning : ∀ c, lane.channel.callPop = (c, none) →
      ({ lane with channel := c } : Lane α σ).WorkerInv finished)
    (hempty : lane.channel.consumer = .returned none →
      ({ lane with channel := { lane.channel with consumer := .idle }, pc := onEmpty } :
        Lane α σ).WorkerInv finished) :
    (lane.popping apply onEmpty).Inv apply init finished todo total := by
  have hring := h.ring_step lane.channel.step_callPop
  obtain ⟨hpushed, hproducer⟩ := lane.channel.callPop_frame
  have htotal : lane.channel.callPop.1.pushed ++ lane.channel.callPop.1.producer.owed todo =
      total := by rw [hpushed, hproducer, h.pushed]
  unfold Lane.popping
  rcases hcall : lane.channel.callPop with ⟨c, _ | _ | item⟩
  · rw [hcall] at hring htotal
    exact
      { ring := hring
        state := h.state
        popped := (Channel.callPop_running hcall h.popped).1
        pushed := htotal
        worker := hrunning c hcall }
  · rw [hcall] at hring htotal
    obtain ⟨hreturned, rfl⟩ := Channel.callPop_returned hcall
    have hpopped := h.popped
    rw [hreturned] at hpopped
    exact
      { ring := hring
        state := h.state
        popped := hpopped
        pushed := htotal
        worker := hempty hreturned }
  · rw [hcall] at hring htotal
    obtain ⟨hreturned, rfl⟩ := Channel.callPop_returned hcall
    have hpopped := h.popped
    rw [hreturned] at hpopped
    exact
      { ring := hring
        state := by rw [List.foldl_concat, h.state]
        popped := hpopped.trans (List.append_nil _).symm
        pushed := htotal
        worker := trivial }

theorem work [Inhabited α] (h : lane.Inv apply init finished todo total) :
    (lane.work apply finished).Inv apply init finished todo total := by
  have hworker := h.worker
  unfold WorkerInv at hworker
  unfold Lane.work
  cases hpc : lane.pc with
  | pop =>
      refine h.popping (fun c _ => ?_) (fun _ => rfl)
      simp only [WorkerInv, hpc]
  | loadFlag =>
      rw [hpc] at hworker
      cases finished with
      | false => exact { h with worker := trivial }
      | true =>
          refine { h with worker := ⟨rfl, ?_⟩ }
          simp only [Channel.CountsAll, hworker]
  | drain =>
      rw [hpc] at hworker
      obtain ⟨hfinished, hcounts⟩ := hworker
      refine h.popping (fun c hcall => ?_) (fun hreturned => ?_)
      · simp only [WorkerInv, hpc]
        exact ⟨hfinished, (Channel.callPop_running hcall h.popped).2 hcounts⟩
      · exact ⟨hfinished, rfl, h.popped_eq_pushed hreturned hcounts⟩
  | exited => exact h

end Inv

end Lane

/-! ### All lanes -/

namespace Fanout

variable {ι α σ : Type} [DecidableEq ι]

/-- Only the ring that the next item goes to can be in the middle of a push, and of that item. -/
structure Inv (route : α → ι) (apply : σ → α → σ) (init : σ) (items : List α)
    (s : Fanout ι α σ) : Prop where
  lane : ∀ i, (s.lanes i).Inv apply init s.finished (s.remaining.filter (route · = i))
    (items.filter (route · = i))
  pushing : ∀ i, (s.lanes i).channel.producer = .idle ∨ ∃ item rest, s.remaining = item :: rest ∧
    route item = i ∧ (s.lanes i).channel.producer.Carries item
  finished : s.finished = true → s.remaining = []
  sent : s.sent + s.remaining.length = items.length

theorem inv_start [Inhabited α] (route : α → ι) (apply : σ → α → σ) (init : σ) (items : List α)
    {capacity : UInt64} {ring : SpscRing α} (hring : SpscRing.new capacity = some ring) :
    (start ring init items : Fanout ι α σ).Inv route apply init items := by
  obtain ⟨bits, hinv, -⟩ := Channel.inv_new hring
  exact
    { lane := fun i =>
        { ring := ⟨bits, 0, 0, hinv⟩
          state := rfl
          popped := rfl
          pushed := rfl
          worker := trivial }
      pushing := fun i => .inl rfl
      finished := fun hfinished => absurd hfinished Bool.false_ne_true
      sent := Nat.zero_add _ }

theorem filter_route_head (route : α → ι) (item : α) (rest : List α) :
    (item :: rest).filter (route · = route item) = item :: rest.filter (route · = route item) :=
  List.filter_cons_of_pos (by simp)

section Produce

variable {route : α → ι} {s : Fanout ι α σ} {item : α} {rest : List α} {c : Channel α}

theorem produce_nil (hremaining : s.remaining = []) :
    s.produce route = { s with finished := true } := by
  unfold produce
  rw [hremaining]

theorem produce_running {result : Option Bool} (hremaining : s.remaining = item :: rest)
    (hcall : (s.lanes (route item)).channel.callPush item = (c, result))
    (hresult : result ≠ some true) :
    s.produce route = s.setLane (route item) { s.lanes (route item) with channel := c } := by
  unfold produce
  simp only [hremaining, hcall, if_neg hresult]

theorem produce_pushed (hremaining : s.remaining = item :: rest)
    (hcall : (s.lanes (route item)).channel.callPush item = (c, some true)) :
    s.produce route =
      { s.setLane (route item) { s.lanes (route item) with channel := c } with
        remaining := rest, sent := s.sent + 1 } := by
  unfold produce
  simp only [hremaining, hcall, if_true]

end Produce

namespace Inv

variable {route : α → ι} {apply : σ → α → σ} {init : σ} {items : List α} {s : Fanout ι α σ}

theorem carries (h : s.Inv route apply init items) {item : α} {rest : List α}
    (hremaining : s.remaining = item :: rest) :
    (s.lanes (route item)).channel.producer.Carries item := by
  rcases h.pushing (route item) with hidle | ⟨item', rest', hremaining', -, hcarries⟩
  · rw [hidle]
    trivial
  · obtain ⟨rfl, -⟩ := List.cons.inj (hremaining.symm.trans hremaining')
    exact hcarries

theorem idle_of_ne (h : s.Inv route apply init items) {item : α} {rest : List α}
    (hremaining : s.remaining = item :: rest) {i : ι} (hne : i ≠ route item) :
    (s.lanes i).channel.producer = .idle := by
  rcases h.pushing i with hidle | ⟨item', rest', hremaining', rfl, -⟩
  · exact hidle
  · obtain ⟨rfl, -⟩ := List.cons.inj (hremaining.symm.trans hremaining')
    exact absurd rfl hne

theorem unfinished (h : s.Inv route apply init items) {item : α} {rest : List α}
    (hremaining : s.remaining = item :: rest) : s.finished = false := by
  rw [← Bool.not_eq_true]
  intro hfinished
  rw [h.finished hfinished] at hremaining
  cases hremaining

theorem setLane (h : s.Inv route apply init items) {i : ι} {lane : Lane α σ}
    (hlane : lane.Inv apply init s.finished (s.remaining.filter (route · = i))
      (items.filter (route · = i)))
    (hpushing : lane.channel.producer = .idle ∨ ∃ item rest, s.remaining = item :: rest ∧
      route item = i ∧ lane.channel.producer.Carries item) :
    (s.setLane i lane).Inv route apply init items := by
  refine { h with lane := fun j => ?_, pushing := fun j => ?_ }
  · dsimp only [Fanout.setLane]
    by_cases hj : j = i
    · subst hj
      rw [Function.update_self]
      exact hlane
    · rw [Function.update_of_ne hj]
      exact h.lane j
  · dsimp only [Fanout.setLane]
    by_cases hj : j = i
    · subst hj
      rw [Function.update_self]
      exact hpushing
    · rw [Function.update_of_ne hj]
      exact h.pushing j

theorem pushed [Inhabited α] (h : s.Inv route apply init items) {item : α} {rest : List α}
    {c : Channel α} (hremaining : s.remaining = item :: rest)
    (hcall : (s.lanes (route item)).channel.callPush item = (c, some true)) :
    (s.produce route).Inv route apply init items := by
  have hlane := h.lane
  simp only [hremaining, h.unfinished hremaining] at hlane
  have hroute := hlane (route item)
  rw [filter_route_head] at hroute
  obtain ⟨hreturned, rfl⟩ := Channel.callPush_returned hcall
  have howed := hroute.pushed
  rw [hreturned] at howed
  have hsent := h.sent
  rw [hremaining, List.length_cons] at hsent
  rw [produce_pushed hremaining hcall]
  refine
    { lane := fun i => ?_
      pushing := fun i => .inl ?_
      finished := fun hfinished => ?_
      sent := by dsimp only; omega }
  · dsimp only [Fanout.setLane]
    rw [h.unfinished hremaining]
    by_cases hi : i = route item
    · subst hi
      rw [Function.update_self]
      exact hroute.push hcall howed
    · rw [Function.update_of_ne hi]
      have hother := hlane i
      rwa [List.filter_cons_of_neg (by simpa using Ne.symm hi)] at hother
  · dsimp only [Fanout.setLane]
    by_cases hi : i = route item
    · subst hi
      rw [Function.update_self]
    · rw [Function.update_of_ne hi]
      exact h.idle_of_ne hremaining hi
  · exact absurd ((h.unfinished hremaining).symm.trans hfinished) Bool.false_ne_true

theorem produce [Inhabited α] (h : s.Inv route apply init items) :
    (s.produce route).Inv route apply init items := by
  cases hremaining : s.remaining with
  | nil =>
      rw [produce_nil hremaining]
      refine { h with lane := fun i => ?_, finished := fun _ => hremaining }
      have hlane := h.lane i
      rw [hremaining] at hlane ⊢
      cases hfinished : s.finished with
      | false =>
          rw [hfinished] at hlane
          exact hlane.finish
      | true =>
          rw [hfinished] at hlane
          exact hlane
  | cons item rest =>
      have hlane := h.lane (route item)
      rw [hremaining, h.unfinished hremaining, filter_route_head] at hlane
      rcases hcall : (s.lanes (route item)).channel.callPush item with ⟨c, result⟩
      by_cases hresult : result = some true
      · subst hresult
        exact h.pushed hremaining hcall
      · obtain ⟨howed, hcarries⟩ := Channel.callPush_owed hcall hresult (h.carries hremaining)
        rw [produce_running hremaining hcall hresult]
        refine h.setLane ?_ (.inr ⟨item, rest, hremaining, rfl, hcarries⟩)
        rw [hremaining, h.unfinished hremaining, filter_route_head]
        exact hlane.push hcall (howed.trans hlane.pushed)

theorem step [Inhabited α] (h : s.Inv route apply init items) (thread : Thread ι) :
    (s.step route apply thread).Inv route apply init items := by
  cases thread with
  | producer => exact h.produce
  | worker i =>
      refine h.setLane (h.lane i).work ?_
      rw [Lane.work_producer]
      exact h.pushing i

theorem run [Inhabited α] (h : s.Inv route apply init items) (schedule : List (Thread ι)) :
    (s.run route apply schedule).Inv route apply init items := by
  induction schedule generalizing s with
  | nil => exact h
  | cons thread schedule ih => exact ih (h.step thread)

theorem applied_of_terminated (h : s.Inv route apply init items) (hend : s.Terminated) (i : ι) :
    (s.lanes i).applied = items.filter (route · = i) := by
  have hremaining := h.finished hend.1
  have hlane := h.lane i
  have hworker := hlane.worker
  rw [Lane.WorkerInv, hend.2 i] at hworker
  obtain ⟨-, hconsumer, hempty⟩ := hworker
  have hidle : (s.lanes i).channel.producer = .idle := by
    rcases h.pushing i with hidle | ⟨item, rest, hcons, -⟩
    · exact hidle
    · rw [hremaining] at hcons
      cases hcons
  have hpopped := hlane.popped
  have hpushed := hlane.pushed
  rw [hconsumer] at hpopped
  rw [hidle, hremaining] at hpushed
  calc
    (s.lanes i).applied = (s.lanes i).channel.popped := (hpopped.trans (List.append_nil _)).symm
    _ = (s.lanes i).channel.pushed := hempty
    _ = items.filter (route · = i) := (List.append_nil _).symm.trans hpushed

theorem state_of_terminated (h : s.Inv route apply init items) (hend : s.Terminated) (i : ι) :
    (s.lanes i).state = (items.filter (route · = i)).foldl apply init := by
  rw [(h.lane i).state, h.applied_of_terminated hend]

theorem sent_of_terminated (h : s.Inv route apply init items) (hend : s.Terminated) :
    s.sent = items.length := by
  have hsent := h.sent
  rw [h.finished hend.1] at hsent
  exact hsent

end Inv

end Fanout

end HftOrderbook
