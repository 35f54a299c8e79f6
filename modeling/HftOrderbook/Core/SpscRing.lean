import Mathlib.Tactic

/-!
# The single-producer / single-consumer ring

`push`, `pop` and `size_approx` as their sequences of loads and stores. A `PushPc`, `PopPc` or
`SizePc` says which access is next and holds the locals the call has read so far; `pushStep`,
`popStep` and `sizeStep` perform that access. Counters are 64-bit words and wrap.
-/

namespace HftOrderbook

/-! ### The capacity -/

/-- `while (p < n) p <<= 1`, for at most `fuel` rounds. -/
def roundUpLoop (n : UInt64) : Nat → UInt64 → Option UInt64
  | 0, p => if p < n then none else some p
  | fuel + 1, p => if p < n then roundUpLoop n fuel (p <<< 1) else some p

/-- `none` where the loop of the source never ends: after 64 shifts `p` is zero and stays zero. -/
def roundUpPow2 (n : UInt64) : Option UInt64 :=
  (roundUpLoop n 64 1).map fun p => if p < 2 then 2 else p

/-! ### The ring -/

structure SpscRing (α : Type) where
  cap : UInt64
  mask : UInt64
  slots : List α
  head : UInt64 := 0
  tailCache : UInt64 := 0
  tail : UInt64 := 0
  headCache : UInt64 := 0

/-- The next access of a running `push`; `returned` once it is over. -/
inductive PushPc (α : Type) where
  | idle
  | loadHead (item : α)
  | testCache (item : α) (head : UInt64)
  | loadTail (item : α) (head : UInt64)
  | storeCache (item : α) (head tail : UInt64)
  | retestCache (item : α) (head : UInt64)
  | storeSlot (item : α) (head : UInt64)
  | storeHead (item : α) (head : UInt64)
  | returned (ok : Bool)

/-- The next access of a running `pop`; `returned none` is `false`. -/
inductive PopPc (α : Type) where
  | idle
  | loadTail
  | testCache (tail : UInt64)
  | loadHead (tail : UInt64)
  | storeCache (tail head : UInt64)
  | retestCache (tail : UInt64)
  | loadSlot (tail : UInt64)
  | storeTail (tail : UInt64) (out : α)
  | returned (out : Option α)

/-- The next access of a running `size_approx`. -/
inductive SizePc where
  | idle
  | loadTail
  | loadHead (tail : UInt64)
  | returned (size : UInt64)

namespace SpscRing

variable {α : Type}

def new [Inhabited α] (capacity : UInt64) : Option (SpscRing α) :=
  (roundUpPow2 capacity).map fun cap =>
    { cap := cap, mask := cap - 1, slots := List.replicate cap.toNat default }

def capacity (ring : SpscRing α) : UInt64 := ring.cap

def slot (ring : SpscRing α) (counter : UInt64) : Nat := (counter &&& ring.mask).toNat

/-- `next - tail_cache_ > cap_` with `next = head + 1`. -/
def looksFull (ring : SpscRing α) (head : UInt64) : Bool :=
  decide (ring.cap < head + 1 - ring.tailCache)

def pushStep (ring : SpscRing α) : PushPc α → Option (SpscRing α × PushPc α)
  | .idle => none
  | .loadHead item => some (ring, .testCache item ring.head)
  | .testCache item head =>
      some (ring, if ring.looksFull head then .loadTail item head else .storeSlot item head)
  | .loadTail item head => some (ring, .storeCache item head ring.tail)
  | .storeCache item head tail => some ({ ring with tailCache := tail }, .retestCache item head)
  | .retestCache item head =>
      some (ring, if ring.looksFull head then .returned false else .storeSlot item head)
  | .storeSlot item head =>
      some ({ ring with slots := ring.slots.set (ring.slot head) item }, .storeHead item head)
  | .storeHead _ head => some ({ ring with head := head + 1 }, .returned true)
  | .returned _ => none

def popStep [Inhabited α] (ring : SpscRing α) : PopPc α → Option (SpscRing α × PopPc α)
  | .idle => none
  | .loadTail => some (ring, .testCache ring.tail)
  | .testCache tail =>
      some (ring, if tail = ring.headCache then .loadHead tail else .loadSlot tail)
  | .loadHead tail => some (ring, .storeCache tail ring.head)
  | .storeCache tail head => some ({ ring with headCache := head }, .retestCache tail)
  | .retestCache tail =>
      some (ring, if tail = ring.headCache then .returned none else .loadSlot tail)
  | .loadSlot tail => some (ring, .storeTail tail (ring.slots.getD (ring.slot tail) default))
  | .storeTail tail out => some ({ ring with tail := tail + 1 }, .returned (some out))
  | .returned _ => none

def sizeStep (ring : SpscRing α) : SizePc → Option SizePc
  | .idle => none
  | .loadTail => some (.loadHead ring.tail)
  | .loadHead tail => some (.returned (ring.head - tail))
  | .returned _ => none

/-- `empty_approx`, of what its `size_approx` has returned. -/
def emptyApprox (size : UInt64) : Bool := size == 0

end SpscRing

/-! ### A ring between two threads -/

/-- A ring with the call each side is in, and what an observer of the run has seen: the values whose
push has stored `head_` and whose pop has stored `tail_`, and how many unpopped values there were
when each side last loaded the other's counter. No step reads the observations. -/
structure Channel (α : Type) where
  ring : SpscRing α
  producer : PushPc α := .idle
  consumer : PopPc α := .idle
  pushed : List α := []
  popped : List α := []
  tailLoad : Nat := 0
  headLoad : Nat := 0

namespace Channel

variable {α : Type}

def unpopped (c : Channel α) : Nat := c.pushed.length - c.popped.length

def pushStep (c : Channel α) : Option (Channel α) :=
  (c.ring.pushStep c.producer).map fun next =>
    { c with
      ring := next.1
      producer := next.2
      pushed := match c.producer with
        | .storeHead item _ => c.pushed ++ [item]
        | _ => c.pushed
      tailLoad := match c.producer with
        | .loadTail _ _ => c.unpopped
        | _ => c.tailLoad }

def popStep [Inhabited α] (c : Channel α) : Option (Channel α) :=
  (c.ring.popStep c.consumer).map fun next =>
    { c with
      ring := next.1
      consumer := next.2
      popped := match c.consumer with
        | .storeTail _ out => c.popped ++ [out]
        | _ => c.popped
      headLoad := match c.consumer with
        | .loadHead _ => c.unpopped
        | _ => c.headLoad }

inductive Step [Inhabited α] : Channel α → Channel α → Prop
  | callPush {c : Channel α} (item : α) (hidle : c.producer = .idle) :
      Step c { c with producer := .loadHead item }
  | push {c c' : Channel α} (hstep : c.pushStep = some c') : Step c c'
  | returnPush {c : Channel α} (ok : Bool) (hreturned : c.producer = .returned ok) :
      Step c { c with producer := .idle }
  | callPop {c : Channel α} (hidle : c.consumer = .idle) :
      Step c { c with consumer := .loadTail }
  | pop {c c' : Channel α} (hstep : c.popStep = some c') : Step c c'
  | returnPop {c : Channel α} (out : Option α) (hreturned : c.consumer = .returned out) :
      Step c { c with consumer := .idle }

end Channel

/-! ### A ring that is being watched -/

/-- A `size_approx` call, and what was there to be seen at its two loads: how many pops had
completed at the first, how many more completed before the second, and how many unpopped values
there were then. No step reads the observations. -/
structure Observer where
  pc : SizePc := .idle
  poppedBefore : Nat := 0
  popsBetween : Nat := 0
  occupancy : Nat := 0

def Observer.step {α : Type} (o : Observer) (c : Channel α) : Option Observer :=
  (c.ring.sizeStep o.pc).map fun next =>
    { pc := next
      poppedBefore := match o.pc with
        | .loadTail => c.popped.length
        | _ => o.poppedBefore
      popsBetween := match o.pc with
        | .loadHead _ => c.popped.length - o.poppedBefore
        | _ => o.popsBetween
      occupancy := match o.pc with
        | .loadHead _ => c.unpopped
        | _ => o.occupancy }

/-- The two threads of a channel, and for every `i : ι` a thread that calls `size_approx`. -/
structure Watched (ι α : Type) where
  channel : Channel α
  observers : ι → Observer := fun _ => {}

namespace Watched

variable {ι α : Type} [DecidableEq ι]

def setObserver (w : Watched ι α) (i : ι) (o : Observer) : Watched ι α :=
  { w with observers := Function.update w.observers i o }

inductive Step [Inhabited α] : Watched ι α → Watched ι α → Prop
  | channel {w : Watched ι α} {c : Channel α} (hstep : w.channel.Step c) :
      Step w { w with channel := c }
  | callSize {w : Watched ι α} (i : ι) (hidle : (w.observers i).pc = .idle) :
      Step w (w.setObserver i { pc := .loadTail })
  | size {w : Watched ι α} (i : ι) {o : Observer}
      (hstep : (w.observers i).step w.channel = some o) :
      Step w (w.setObserver i o)
  | returnSize {w : Watched ι α} (i : ι) (size : UInt64)
      (hreturned : (w.observers i).pc = .returned size) :
      Step w (w.setObserver i { w.observers i with pc := .idle })

end Watched

end HftOrderbook
