import HftOrderbook.Book.Tape
import HftOrderbook.Feed.Pipeline

/-!
# The offline replay

What `obreplay` works out of a capture before it prints it: the books, with worker threads or
without, and a tape for each instrument that traded.
-/

namespace HftOrderbook

variable {F : Type} [TapeFloat F]

structure Replayed (F : Type) where
  n : Nat
  book : BookSet
  tapes : TradeTapes F

/-- `--threads`, once it has been raised to at least one, as the number of workers. -/
def obreplayWorkers (threads : Int) : UInt32 := UInt32.ofInt (max 1 threads)

section Obreplay

variable (buf : List UInt8) (threads : Int)
  (schedule : List (Thread (Fin (workerCount (obreplayWorkers threads)).toNat)))

/-- The timed pass. As a replay with threads it is a function of their schedule. -/
def obreplayBooks : Option (BookSet × Nat) :=
  if 1 < threads then replaySharded buf {} (obreplayWorkers threads) schedule
  else some ((framedMessages buf).foldl BookSet.apply {}, (framedMessages buf).length)

def obreplay : Option (Replayed F) :=
  (obreplayBooks buf threads schedule).map fun counted =>
    { n := counted.2
      book := counted.1
      tapes := replayTapes F buf }

end Obreplay

end HftOrderbook
