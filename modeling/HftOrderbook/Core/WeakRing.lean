import HftOrderbook.Core.SpscRing
import HftOrderbook.Library.ReleaseAcquire

/-!
# The ring with the memory orders of the source

The same calls as before, access by access, in a memory where a load need not see the newest store.
`head_` and `tail_` are atomic: a side loads its own counter relaxed and the counter of the other
side with acquire, and stores its own with release. The slots are plain memory, which both sides
touch. The caches are plain memory too, but each belongs to one side.
-/

namespace HftOrderbook

open ReleaseAcquire

/-- Accesses to what belongs to the calling side alone. -/
def PushPc.isPrivate {α : Type} : PushPc α → Bool
  | .testCache _ _ | .storeCache _ _ _ | .retestCache _ _ => true
  | _ => false

def PopPc.isPrivate {α : Type} : PopPc α → Bool
  | .testCache _ | .storeCache _ _ | .retestCache _ => true
  | _ => false

/-- The stores to the two counters, and who has touched which slot. In `channel` the counters of the
ring hold the newest stores; a load goes by the stores themselves. -/
structure WeakRing (T α : Type) where
  channel : Channel α
  heads : History T UInt64
  tails : History T UInt64
  accesses : List (Accesses T)

namespace WeakRing

variable {T α : Type}

/-- A new ring. The constructor happens before both threads. -/
def start (ring : SpscRing α) : WeakRing T α :=
  { channel := { ring := ring }
    heads := [⟨0, fun _ => 0⟩]
    tails := [⟨0, fun _ => 0⟩]
    accesses := List.replicate ring.slots.length {} }

variable [DecidableEq T]

/-- The next access of a push by `p`, with the clock of `p` before and after. -/
inductive PushStep (p c : T) (w : WeakRing T α) (clock : Clock T) :
    WeakRing T α → Clock T → Prop
  | loadHead {item : α} {i : Nat} {m : Write T UInt64}
      (hpc : w.channel.producer = .loadHead item) (hread : Reads w.heads p clock i m) :
      PushStep p c w clock
        { w with channel := { w.channel with producer := .testCache item m.value } } clock
  | own {next : Channel α} (hpc : w.channel.producer.isPrivate = true)
      (hstep : w.channel.pushStep = some next) :
      PushStep p c w clock { w with channel := next } clock
  | loadTail {item : α} {head : UInt64} {i : Nat} {m : Write T UInt64}
      (hpc : w.channel.producer = .loadTail item head) (hread : Reads w.tails c clock i m) :
      PushStep p c w clock
        { w with channel := { w.channel with
            producer := .storeCache item head m.value
            tailLoad := w.channel.pushed.length - i } }
        (clock ⊔ m.clock)
  | storeSlot {item : α} {head : UInt64} {next : Channel α}
      (hpc : w.channel.producer = .storeSlot item head)
      (hstep : w.channel.pushStep = some next) :
      PushStep p c w clock
        { w with
          channel := next
          accesses := w.accesses.modify (w.channel.ring.slot head) (·.write p clock) }
        clock
  | storeHead {item : α} {head : UInt64} {next : Channel α}
      (hpc : w.channel.producer = .storeHead item head)
      (hstep : w.channel.pushStep = some next) :
      PushStep p c w clock { w with channel := next, heads := w.heads ++ [⟨head + 1, clock⟩] }
        (tick p clock)

/-- The next access of a pop by `c`, with the clock of `c` before and after. -/
inductive PopStep [Inhabited α] (p c : T) (w : WeakRing T α) (clock : Clock T) :
    WeakRing T α → Clock T → Prop
  | loadTail {i : Nat} {m : Write T UInt64}
      (hpc : w.channel.consumer = .loadTail) (hread : Reads w.tails c clock i m) :
      PopStep p c w clock
        { w with channel := { w.channel with consumer := .testCache m.value } } clock
  | own {next : Channel α} (hpc : w.channel.consumer.isPrivate = true)
      (hstep : w.channel.popStep = some next) :
      PopStep p c w clock { w with channel := next } clock
  | loadHead {tail : UInt64} {i : Nat} {m : Write T UInt64}
      (hpc : w.channel.consumer = .loadHead tail) (hread : Reads w.heads p clock i m) :
      PopStep p c w clock
        { w with channel := { w.channel with
            consumer := .storeCache tail m.value
            headLoad := i - w.channel.popped.length } }
        (clock ⊔ m.clock)
  | loadSlot {tail : UInt64} {next : Channel α}
      (hpc : w.channel.consumer = .loadSlot tail)
      (hstep : w.channel.popStep = some next) :
      PopStep p c w clock
        { w with
          channel := next
          accesses := w.accesses.modify (w.channel.ring.slot tail) (·.read c clock) }
        clock
  | storeTail {tail : UInt64} {out : α} {next : Channel α}
      (hpc : w.channel.consumer = .storeTail tail out)
      (hstep : w.channel.popStep = some next) :
      PopStep p c w clock { w with channel := next, tails := w.tails ++ [⟨tail + 1, clock⟩] }
        (tick c clock)

/-- The next step of a thread that is calling `push(item)`, with what the call returns if it is
over. -/
inductive PushCall (p c : T) (item : α) (w : WeakRing T α) (clock : Clock T) :
    WeakRing T α → Clock T → Option Bool → Prop
  | call (hidle : w.channel.producer = .idle) :
      PushCall p c item w clock
        { w with channel := { w.channel with producer := .loadHead item } } clock none
  | step {w' : WeakRing T α} {clock' : Clock T} (hstep : PushStep p c w clock w' clock') :
      PushCall p c item w clock w' clock' none
  | ret {ok : Bool} (hreturned : w.channel.producer = .returned ok) :
      PushCall p c item w clock
        { w with channel := { w.channel with producer := .idle } } clock (some ok)

inductive PopCall [Inhabited α] (p c : T) (w : WeakRing T α) (clock : Clock T) :
    WeakRing T α → Clock T → Option (Option α) → Prop
  | call (hidle : w.channel.consumer = .idle) :
      PopCall p c w clock
        { w with channel := { w.channel with consumer := .loadTail } } clock none
  | step {w' : WeakRing T α} {clock' : Clock T} (hstep : PopStep p c w clock w' clock') :
      PopCall p c w clock w' clock' none
  | ret {out : Option α} (hreturned : w.channel.consumer = .returned out) :
      PopCall p c w clock
        { w with channel := { w.channel with consumer := .idle } } clock (some out)

omit [DecidableEq T] in
/-- The next access to a slot is ordered behind the earlier ones to it. -/
def RaceFree (p c : T) (clocks : T → Clock T) (w : WeakRing T α) : Prop :=
  (∀ item head, w.channel.producer = .storeSlot item head →
    ∃ a, w.accesses[w.channel.ring.slot head]? = some a ∧ a.WriteSafe p (clocks p)) ∧
  ∀ tail, w.channel.consumer = .loadSlot tail →
    ∃ a, w.accesses[w.channel.ring.slot tail]? = some a ∧ a.ReadSafe c (clocks c)

end WeakRing

/-! ### A ring between two threads, with observers -/

inductive RingThread (ι : Type) where
  | producer
  | consumer
  | observer (i : ι)
  deriving DecidableEq

/-- A running `size_approx`, with the index of the store its first load has read. No step reads the
index. -/
structure WeakObserver where
  pc : SizePc := .idle
  tailIndex : Nat := 0
  headIndex : Nat := 0

structure WeakWatched (ι α : Type) where
  ring : WeakRing (RingThread ι) α
  clocks : RingThread ι → Clock (RingThread ι)
  observers : ι → WeakObserver := fun _ => {}

namespace WeakWatched

variable {ι α : Type} [DecidableEq ι] [Inhabited α]

/-- Every thread starts with its first event behind the constructor. -/
def start (ring : SpscRing α) : WeakWatched ι α :=
  { ring := .start ring
    clocks := fun t => tick t fun _ => 0 }

inductive Step (w : WeakWatched ι α) : WeakWatched ι α → Prop
  | push {item : α} {ring : WeakRing (RingThread ι) α} {clock : Clock (RingThread ι)}
      {result : Option Bool}
      (hcall : w.ring.PushCall .producer .consumer item (w.clocks .producer) ring clock result) :
      Step w { w with ring := ring, clocks := Function.update w.clocks .producer clock }
  | pop {ring : WeakRing (RingThread ι) α} {clock : Clock (RingThread ι)}
      {result : Option (Option α)}
      (hcall : w.ring.PopCall .producer .consumer (w.clocks .consumer) ring clock result) :
      Step w { w with ring := ring, clocks := Function.update w.clocks .consumer clock }
  | callSize (i : ι) (hidle : (w.observers i).pc = .idle) :
      Step w { w with observers := Function.update w.observers i { pc := .loadTail } }
  | loadTail (i : ι) {k : Nat} {m : Write (RingThread ι) UInt64}
      (hpc : (w.observers i).pc = .loadTail)
      (hread : Reads w.ring.tails .consumer (w.clocks (.observer i)) k m) :
      Step w { w with
        clocks := Function.update w.clocks (.observer i) (w.clocks (.observer i) ⊔ m.clock)
        observers := Function.update w.observers i { pc := .loadHead m.value, tailIndex := k } }
  | loadHead (i : ι) {tail : UInt64} {k : Nat} {m : Write (RingThread ι) UInt64}
      (hpc : (w.observers i).pc = .loadHead tail)
      (hread : Reads w.ring.heads .producer (w.clocks (.observer i)) k m) :
      Step w { w with
        clocks := Function.update w.clocks (.observer i) (w.clocks (.observer i) ⊔ m.clock)
        observers := Function.update w.observers i
          { w.observers i with pc := .returned (m.value - tail), headIndex := k } }
  | returnSize (i : ι) {size : UInt64} (hreturned : (w.observers i).pc = .returned size) :
      Step w { w with
        observers := Function.update w.observers i { w.observers i with pc := .idle } }

end WeakWatched

end HftOrderbook
