import HftOrderbook.Library.ByteText
import HftOrderbook.Library.Decimal

/-!
# The latency histogram

A sample goes to the bucket that a doubling bound stops at. The rows are printed from the numbers of
the buckets alone, with bounds computed a second time.
-/

namespace HftOrderbook

open ByteText Decimal

structure LatencyHist where
  samples : List UInt64 := []

/-- One line of the histogram. -/
structure HistogramRow where
  lo : UInt64
  hi : UInt64
  bars : Nat
  count : Nat
  deriving DecidableEq

namespace HistogramRow

def text (row : HistogramRow) : List UInt8 :=
  ascii "    [" ++ numeral row.lo.toNat ++ ascii "," ++ numeral row.hi.toNat ++ ascii ")  " ++
    List.replicate row.bars 0x23 ++ ascii "  " ++ numeral row.count ++ ascii "\n"

end HistogramRow

namespace LatencyHist

def kBuckets : Nat := 21

/-- The inner loop, `left` rounds before `b` is the last bucket. -/
def bucketLoop (v : UInt64) : Nat → Nat → UInt64 → Nat
  | 0, b, _ => b
  | left + 1, b, hi => if hi ≤ v then bucketLoop v left (b + 1) (hi <<< 1) else b

def bucketOf (v : UInt64) : Nat := bucketLoop v (kBuckets - 1) 0 1

def loOf (b : Nat) : UInt64 := if b = 0 then 0 else 1 <<< UInt64.ofNat (b - 1)

def hiOf (b : Nat) : UInt64 := 1 <<< UInt64.ofNat b

/-- `hist` and `peak`. A vector holds fewer than `2 ^ 64` samples, so neither wraps. -/
structure Tally where
  hist : List Nat := List.replicate kBuckets 0
  peak : Nat := 0

namespace Tally

def countSample (t : Tally) (v : UInt64) : Tally :=
  let b := bucketOf v
  let hist := t.hist.modify b (· + 1)
  { hist := hist
    peak := if t.peak < hist.getD b 0 then hist.getD b 0 else t.peak }

/-- What the second loop prints for bucket `b`, if anything. The product is a `size_t`. -/
def row? (t : Tally) (b : Nat) : Option HistogramRow :=
  if t.hist.getD b 0 = 0 then none
  else some
    { lo := loOf b
      hi := hiOf b
      bars := if t.peak ≠ 0 then t.hist.getD b 0 * 40 % 2 ^ 64 / t.peak else 0
      count := t.hist.getD b 0 }

end Tally

variable (h : LatencyHist)

def count : Nat := h.samples.length

def tally : Tally := h.samples.foldl Tally.countSample {}

def rows : List HistogramRow := (List.range kBuckets).filterMap h.tally.row?

def printHistogram : List UInt8 :=
  if h.samples = [] then []
  else ascii "  distribution (ns, log2 buckets):\n" ++ h.rows.flatMap HistogramRow.text

end LatencyHist

end HftOrderbook
