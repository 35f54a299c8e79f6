import HftOrderbook.Book.BookSet
import HftOrderbook.Feed.Fanout
import HftOrderbook.Feed.Framing

/-!
# The replays of a framed buffer

The reference path, the pipeline with one consumer, and the sharded pipeline. A replay with threads
is a function of the schedule it runs under; it is `none` if the schedule ends before the threads
do, or if the constructor of a ring does not return.
-/

namespace HftOrderbook

/-- `book.apply(m); ++n;` -/
def applyCounting (counted : OrderBook × Nat) (m : Message) : OrderBook × Nat :=
  (counted.1.apply m, counted.2 + 1)

def replaySingleThreaded (buf : List UInt8) (book : OrderBook) : OrderBook × Nat :=
  (framedMessages buf).foldl applyCounting (book, 0)

/-! ### One consumer -/

def pipelinedThreads (buf : List UInt8) (book : OrderBook) (ringCapacity : UInt64)
    (schedule : List (Thread Unit)) : Option (Fanout Unit Message (OrderBook × Nat)) := do
  let ring ← SpscRing.new ringCapacity
  some ((Fanout.start ring (book, 0) (framedMessages buf)).run (fun _ => ()) applyCounting schedule)

def replayPipelined (buf : List UInt8) (book : OrderBook) (ringCapacity : UInt64)
    (schedule : List (Thread Unit)) : Option (OrderBook × Nat) := do
  let s ← pipelinedThreads buf book ringCapacity schedule
  if s.Terminated then some (s.lanes ()).state else none

/-! ### A consumer for each shard -/

/-- `if (n_workers < 1) n_workers = 1;` -/
def workerCount (nWorkers : UInt32) : UInt32 := if nWorkers < 1 then 1 else nWorkers

theorem workerCount_pos (nWorkers : UInt32) : 0 < (workerCount nWorkers).toNat := by
  unfold workerCount
  split_ifs with h
  · decide
  · rw [UInt32.lt_iff_toNat_lt] at h
    exact Nat.not_lt.mp h

/-- The shard of a locate, a 32-bit product that wraps. -/
def shard (nWorkers : UInt32) (locate : UInt16) : Fin (workerCount nWorkers).toNat :=
  ⟨(locate.toUInt32 * 2654435761 % workerCount nWorkers).toNat, by
    rw [UInt32.toNat_mod]
    exact Nat.mod_lt _ (workerCount_pos nWorkers)⟩

def shardedThreads (buf : List UInt8) (nWorkers : UInt32)
    (schedule : List (Thread (Fin (workerCount nWorkers).toNat))) :
    Option (Fanout (Fin (workerCount nWorkers).toNat) Message BookSet) := do
  let ring ← SpscRing.new 4096
  some ((Fanout.start ring {} (framedMessages buf)).run (fun m => shard nWorkers m.stockLocate)
    BookSet.apply schedule)

def replaySharded (buf : List UInt8) (out : BookSet) (nWorkers : UInt32)
    (schedule : List (Thread (Fin (workerCount nWorkers).toNat))) : Option (BookSet × Nat) := do
  let s ← shardedThreads buf nWorkers schedule
  if s.Terminated then
    some (out.mergeAll (fun w => (s.lanes w).state) (List.finRange _), s.sent)
  else none

end HftOrderbook
