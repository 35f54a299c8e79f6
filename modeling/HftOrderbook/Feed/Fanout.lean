import HftOrderbook.Core.SpscRing

/-!
# One producer, a worker behind each ring

The thread structure that both replay pipelines have. The producer routes each item to one ring and
retries while that ring is full, then raises a flag; each worker pops its ring, and leaves after it
has seen the flag and then once more an empty ring. A run is a list of the threads that move, in the
order in which they do, so that every interleaving of their accesses is one.
-/

namespace HftOrderbook

/-! ### Calls -/

namespace Channel

variable {α : Type}

/-- The next step of a thread that is calling `push(item)`, with what the call returns if it is
over. -/
def callPush (c : Channel α) (item : α) : Channel α × Option Bool :=
  match c.producer with
  | .idle => ({ c with producer := .loadHead item }, none)
  | .returned ok => ({ c with producer := .idle }, some ok)
  | _ => (c.pushStep.getD c, none)

def callPop [Inhabited α] (c : Channel α) : Channel α × Option (Option α) :=
  match c.consumer with
  | .idle => ({ c with consumer := .loadTail }, none)
  | .returned out => ({ c with consumer := .idle }, some out)
  | _ => (c.popStep.getD c, none)

end Channel

/-! ### Workers -/

/-- Where the loop of a worker stands: at the pop on top, at the load of the flag that follows a
failed pop, or at the pop that follows the flag. -/
inductive WorkerPc where
  | pop
  | loadFlag
  | drain
  | exited
  deriving DecidableEq

/-- A ring and its worker. `applied` records the items the worker has applied; no step reads it. -/
structure Lane (α σ : Type) where
  channel : Channel α
  pc : WorkerPc := .pop
  state : σ
  applied : List α := []

namespace Lane

variable {α σ : Type} [Inhabited α]

/-- One step inside a pop. An item is applied and the loop starts over; `onEmpty` is where an empty
ring leads. -/
def popping (apply : σ → α → σ) (onEmpty : WorkerPc) (lane : Lane α σ) : Lane α σ :=
  match lane.channel.callPop with
  | (channel, none) => { lane with channel := channel }
  | (channel, some none) => { lane with channel := channel, pc := onEmpty }
  | (channel, some (some item)) =>
      { channel := channel
        pc := .pop
        state := apply lane.state item
        applied := lane.applied ++ [item] }

def work (apply : σ → α → σ) (finished : Bool) (lane : Lane α σ) : Lane α σ :=
  match lane.pc with
  | .pop => lane.popping apply .loadFlag
  | .loadFlag => { lane with pc := if finished then .drain else .pop }
  | .drain => lane.popping apply .exited
  | .exited => lane

end Lane

/-! ### All threads -/

/-- `remaining` is what the producer has still to push, `sent` how many pushes have succeeded. -/
structure Fanout (ι α σ : Type) where
  lanes : ι → Lane α σ
  remaining : List α
  sent : Nat := 0
  finished : Bool := false

inductive Thread (ι : Type) where
  | producer
  | worker (i : ι)

namespace Fanout

variable {ι α σ : Type} [DecidableEq ι] [Inhabited α]

def start (ring : SpscRing α) (init : σ) (items : List α) : Fanout ι α σ :=
  { lanes := fun _ => { channel := { ring := ring }, state := init }
    remaining := items }

def setLane (s : Fanout ι α σ) (i : ι) (lane : Lane α σ) : Fanout ι α σ :=
  { s with lanes := Function.update s.lanes i lane }

/-- The producer. A push that returns `false` is called again. -/
def produce (route : α → ι) (s : Fanout ι α σ) : Fanout ι α σ :=
  match s.remaining with
  | [] => { s with finished := true }
  | item :: rest =>
      let lane := s.lanes (route item)
      let (channel, result) := lane.channel.callPush item
      let s' := s.setLane (route item) { lane with channel := channel }
      if result = some true then { s' with remaining := rest, sent := s.sent + 1 } else s'

def step (route : α → ι) (apply : σ → α → σ) (s : Fanout ι α σ) : Thread ι → Fanout ι α σ
  | .producer => s.produce route
  | .worker i => s.setLane i ((s.lanes i).work apply s.finished)

def run (route : α → ι) (apply : σ → α → σ) (s : Fanout ι α σ) (schedule : List (Thread ι)) :
    Fanout ι α σ :=
  schedule.foldl (step route apply) s

def Terminated (s : Fanout ι α σ) : Prop :=
  s.finished = true ∧ ∀ i, (s.lanes i).pc = .exited

instance [Fintype ι] (s : Fanout ι α σ) : Decidable s.Terminated :=
  inferInstanceAs (Decidable (s.finished = true ∧ ∀ i, (s.lanes i).pc = .exited))

end Fanout

end HftOrderbook
