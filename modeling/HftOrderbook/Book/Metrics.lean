import HftOrderbook.Book.OrderBook

/-!
# Microstructure metrics

`compute_metrics` with rational numbers in place of its `double`s and `long double`s. A division is
checked: it is `none` where the source would divide by zero. The depth sums are the 64-bit words
they are there.
-/

namespace HftOrderbook

structure BookMetrics where
  hasBid : Bool := false
  hasAsk : Bool := false
  twoSided : Bool := false
  bidPx : Price := 0
  askPx : Price := 0
  bidQty : Qty := 0
  askQty : Qty := 0
  mid : ℚ := 0
  microprice : ℚ := 0
  weightedMid : ℚ := 0
  spreadTicks : Price := 0
  spreadBps : ℚ := 0
  imbalanceTop : ℚ := 0
  imbalanceN : ℚ := 0
  bidDepthN : UInt64 := 0
  askDepthN : UInt64 := 0

def checkedDiv (a b : ℚ) : Option ℚ := if b = 0 then none else some (a / b)

def toDollars (ticks : Price) : Option ℚ := checkedDiv ticks kPriceScale

/-- `(den > 0.0) ? num / den : fallback`. -/
def guardedDiv (num den fallback : ℚ) : Option ℚ :=
  if 0 < den then checkedDiv num den else some fallback

/-- The accumulators of the two depth loops: `num`, `den`, and `bsum` or `asum`. -/
structure DepthSums where
  num : ℚ := 0
  den : ℚ := 0
  sum : UInt64 := 0

def DepthSums.addLevel (acc : DepthSums) (lv : Price × Qty) : Option DepthSums := do
  let px ← toDollars lv.1
  some { num := acc.num + px * lv.2.toNat
         den := acc.den + lv.2.toNat
         sum := acc.sum + lv.2.toUInt64 }

variable {S : Compare → Type} [LevelStore S]

/-- The part of `compute_metrics` behind the test for a book with one side empty. -/
def twoSidedMetrics (book : BasicOrderBook S) (nLevels : Nat) (bid ask : Price × Qty) :
    Option BookMetrics := do
  let bidd ← toDollars bid.1
  let askd ← toDollars ask.1
  let bq : ℚ := bid.2.toNat
  let aq : ℚ := ask.2.toNat
  let mid := 1 / 2 * (bidd + askd)
  let spread ← toDollars (ask.1 - bid.1)
  let relative ← guardedDiv spread mid 0
  let microprice ← guardedDiv (bidd * aq + askd * bq) (bq + aq) mid
  let imbalanceTop ← guardedDiv (bq - aq) (bq + aq) 0
  let bids ← (LevelStore.top book.bids nLevels).foldlM DepthSums.addLevel {}
  let asks ← (LevelStore.top book.asks nLevels).foldlM DepthSums.addLevel { bids with sum := 0 }
  let weightedMid ← guardedDiv asks.num asks.den mid
  let bsum : ℚ := bids.sum.toNat
  let asum : ℚ := asks.sum.toNat
  let imbalanceN ← guardedDiv (bsum - asum) (bsum + asum) 0
  some
    { hasBid := true
      hasAsk := true
      twoSided := true
      bidPx := bid.1
      askPx := ask.1
      bidQty := bid.2
      askQty := ask.2
      mid := mid
      microprice := microprice
      weightedMid := weightedMid
      spreadTicks := ask.1 - bid.1
      spreadBps := relative * 10000
      imbalanceTop := imbalanceTop
      imbalanceN := imbalanceN
      bidDepthN := bids.sum
      askDepthN := asks.sum }

def computeMetrics (book : BasicOrderBook S) (nLevels : Nat) : Option BookMetrics :=
  match book.bestBid, book.bestAsk with
  | some bid, some ask => twoSidedMetrics book nLevels bid ask
  | some bid, none => some { hasBid := true, bidPx := bid.1, bidQty := bid.2 }
  | none, some ask => some { hasAsk := true, askPx := ask.1, askQty := ask.2 }
  | none, none => some {}

end HftOrderbook
