import HftOrderbook.Core.WeakRing
import HftOrderbook.Feed.Fanout

/-!
# The pipelines with the memory orders of the source

The threads of `Fanout`, with the rings and the flag in a memory where a load need not see the newest
store. The flag is stored with release and loaded with acquire; a worker that loads it late goes
round once more. One producer serves all rings, so they share its clock.
-/

namespace HftOrderbook

open ReleaseAcquire

deriving instance DecidableEq for Thread

structure WeakLane (ι α σ : Type) where
  ring : WeakRing (Thread ι) α
  pc : WorkerPc := .pop
  state : σ
  applied : List α := []

/-- What a worker does after a step of its pop: an item is applied and the loop starts over;
`onEmpty` is where an empty ring leads. -/
def WeakLane.afterPop {ι α σ : Type} (apply : σ → α → σ) (onEmpty : WorkerPc)
    (lane : WeakLane ι α σ) (ring : WeakRing (Thread ι) α) : Option (Option α) → WeakLane ι α σ
  | none => { lane with ring := ring }
  | some none => { lane with ring := ring, pc := onEmpty }
  | some (some item) =>
      { ring := ring
        pc := .pop
        state := apply lane.state item
        applied := lane.applied ++ [item] }

structure WeakFanout (ι α σ : Type) where
  lanes : ι → WeakLane ι α σ
  clocks : Thread ι → Clock (Thread ι)
  flag : History (Thread ι) Bool
  remaining : List α
  sent : Nat := 0
  finished : Bool := false

namespace WeakFanout

variable {ι α σ : Type} [DecidableEq ι] [Inhabited α]

/-- The rings and the flag are made before the threads start. -/
def start (ring : SpscRing α) (init : σ) (items : List α) : WeakFanout ι α σ :=
  { lanes := fun _ => { ring := .start ring, state := init }
    clocks := fun t => tick t fun _ => 0
    flag := [⟨false, fun _ => 0⟩]
    remaining := items }

inductive Step (route : α → ι) (apply : σ → α → σ) (s : WeakFanout ι α σ) :
    WeakFanout ι α σ → Prop
  | push {item : α} {rest : List α} {ring : WeakRing (Thread ι) α} {clock : Clock (Thread ι)}
      {result : Option Bool} (hremaining : s.remaining = item :: rest)
      (hcall : (s.lanes (route item)).ring.PushCall .producer (.worker (route item)) item
        (s.clocks .producer) ring clock result) :
      Step route apply s { s with
        lanes := Function.update s.lanes (route item) { s.lanes (route item) with ring := ring }
        clocks := Function.update s.clocks .producer clock
        remaining := if result = some true then rest else s.remaining
        sent := if result = some true then s.sent + 1 else s.sent }
  | raise (hremaining : s.remaining = []) (hunfinished : s.finished = false) :
      Step route apply s { s with
        clocks := Function.update s.clocks .producer (tick .producer (s.clocks .producer))
        flag := s.flag ++ [⟨true, s.clocks .producer⟩]
        finished := true }
  | pop (i : ι) {ring : WeakRing (Thread ι) α} {clock : Clock (Thread ι)}
      {result : Option (Option α)} (hpc : (s.lanes i).pc = .pop)
      (hcall : (s.lanes i).ring.PopCall .producer (.worker i) (s.clocks (.worker i)) ring clock
        result) :
      Step route apply s { s with
        lanes := Function.update s.lanes i ((s.lanes i).afterPop apply .loadFlag ring result)
        clocks := Function.update s.clocks (.worker i) clock }
  | loadFlag (i : ι) {k : Nat} {m : Write (Thread ι) Bool}
      (hpc : (s.lanes i).pc = .loadFlag)
      (hread : Reads s.flag .producer (s.clocks (.worker i)) k m) :
      Step route apply s { s with
        lanes := Function.update s.lanes i
          { s.lanes i with pc := if m.value then .drain else .pop }
        clocks := Function.update s.clocks (.worker i) (s.clocks (.worker i) ⊔ m.clock) }
  | drain (i : ι) {ring : WeakRing (Thread ι) α} {clock : Clock (Thread ι)}
      {result : Option (Option α)} (hpc : (s.lanes i).pc = .drain)
      (hcall : (s.lanes i).ring.PopCall .producer (.worker i) (s.clocks (.worker i)) ring clock
        result) :
      Step route apply s { s with
        lanes := Function.update s.lanes i ((s.lanes i).afterPop apply .exited ring result)
        clocks := Function.update s.clocks (.worker i) clock }

def Terminated (s : WeakFanout ι α σ) : Prop :=
  s.finished = true ∧ ∀ i, (s.lanes i).pc = .exited

end WeakFanout

end HftOrderbook
