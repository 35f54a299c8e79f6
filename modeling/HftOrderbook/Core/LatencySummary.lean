import HftOrderbook.Core.LatencyHist
import HftOrderbook.Library.OrderStatistic

/-!
# The summary of the latencies

The figures that `print` puts above the histogram. A `double` is the rational number it stands for,
and every operation on `double`s is followed by `rnd`, the rounding to a number that a `double`
holds; `rndLong` is the same for `long double`.
-/

namespace HftOrderbook.LatencyHist

variable (rnd rndLong : ℚ → ℚ)

/-- `static_cast<std::size_t>(p / 100.0 * (s.size() - 1) + 0.5)`, for a `p` that is not negative. -/
def rankOf (p : ℚ) (size : Nat) : Nat :=
  ⌊rnd (rnd (rnd (p / 100) * rnd ((size - 1 : Nat) : ℚ)) + 1 / 2)⌋₊

variable (h : LatencyHist)

def percentile (p : ℚ) : UInt64 :=
  if h.samples = [] then 0
  else
    let s := OrderStatistic.sorted h.samples
    let idx := rankOf rnd p s.length
    s.getD (if s.length ≤ idx then s.length - 1 else idx) 0

/-- `std::max_element` keeps the first of the greatest. -/
def max : UInt64 :=
  match h.samples with
  | [] => 0
  | v :: rest => rest.foldl (fun largest v => if largest < v then v else largest) v

def mean : ℚ :=
  if h.samples = [] then 0
  else
    let sum := h.samples.foldl (fun (sum : ℚ) v => rndLong (sum + rndLong v.toNat)) 0
    rnd (rndLong (sum / rndLong h.samples.length))

end HftOrderbook.LatencyHist
