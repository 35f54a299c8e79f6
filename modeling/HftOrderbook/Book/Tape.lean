import HftOrderbook.Feed.Framing
import Mathlib.Data.List.AList

/-!
# The trade tape

The class `Tape` takes executed trades one at a time and keeps cumulative figures, the bars it has
closed and the bar it is filling. The notionals are `long double`s and the averages `double`s; what
the tape asks of them is in `TapeFloat`, and everything else is integers.
-/

namespace HftOrderbook

class TapeFloat (F : Type) where
  zero : F
  /-- `notional + static_cast<long double>(px) * qty`. -/
  accrue (notional : F) (px : Price) (qty : Qty) : F
  /-- `static_cast<double>(notional / volume) / kPriceScale`, for a volume that is not zero. -/
  average (notional : F) (volume : UInt64) : F

/-- Without rounding. -/
instance : TapeFloat ℚ where
  zero := 0
  accrue notional px qty := notional + px * qty.toNat
  average notional volume := notional / volume.toNat / kPriceScale

structure Bar (F : Type) where
  startNs : UInt64
  openPx : Price
  high : Price
  low : Price
  close : Price
  volume : UInt64
  vwap : F
  deriving DecidableEq

/-- `interval_(bar_interval_ns ? bar_interval_ns : 1)`. -/
def barInterval (barIntervalNs : UInt64) : UInt64 := if barIntervalNs = 0 then 1 else barIntervalNs

/-- `Tape` of the source. -/
structure TradeTape (F : Type) where
  interval : UInt64
  hasLast : Bool
  lastPx : Price
  lastTs : UInt64
  cumVol : UInt64
  cumNotional : F
  /-- `bars_`: without the bar in progress. -/
  closed : List (Bar F)
  cur : Bar F
  curOpen : Bool
  curBucket : UInt64
  curNotional : F

namespace TradeTape

variable {F : Type} [TapeFloat F]

/-- `volume ? average : 0.0`. -/
def vwapOf (notional : F) (volume : UInt64) : F :=
  if volume = 0 then TapeFloat.zero else TapeFloat.average notional volume

def new (barIntervalNs : UInt64) : TradeTape F where
  interval := barInterval barIntervalNs
  hasLast := false
  lastPx := 0
  lastTs := 0
  cumVol := 0
  cumNotional := TapeFloat.zero
  closed := []
  cur := ⟨0, 0, 0, 0, 0, 0, TapeFloat.zero⟩
  curOpen := false
  curBucket := 0
  curNotional := TapeFloat.zero

def finalize (b : Bar F) (notional : F) : Bar F := { b with vwap := vwapOf notional b.volume }

def startBar (t : TradeTape F) (px : Price) (bucket : UInt64) : TradeTape F :=
  { t with
    cur := ⟨bucket * t.interval, px, px, px, px, 0, TapeFloat.zero⟩
    curBucket := bucket
    curNotional := TapeFloat.zero
    curOpen := true }

def closeBar (t : TradeTape F) : TradeTape F :=
  { t with
    closed := t.closed ++ [finalize t.cur t.curNotional]
    curOpen := false }

/-- The first five lines of `on_trade`. -/
def record (t : TradeTape F) (px : Price) (qty : Qty) (ts : UInt64) : TradeTape F :=
  { t with
    hasLast := true
    lastPx := px
    lastTs := ts
    cumVol := t.cumVol + qty.toUInt64
    cumNotional := TapeFloat.accrue t.cumNotional px qty }

/-- The bar that a trade in `bucket` belongs to. -/
def openBar (t : TradeTape F) (px : Price) (bucket : UInt64) : TradeTape F :=
  if !t.curOpen then t.startBar px bucket
  else if bucket != t.curBucket then t.closeBar.startBar px bucket
  else t

/-- The last five lines of `on_trade`. -/
def extendBar (t : TradeTape F) (px : Price) (qty : Qty) : TradeTape F :=
  { t with
    cur := { t.cur with
      high := if t.cur.high < px then px else t.cur.high
      low := if px < t.cur.low then px else t.cur.low
      close := px
      volume := t.cur.volume + qty.toUInt64 }
    curNotional := TapeFloat.accrue t.curNotional px qty }

def onTrade (t : TradeTape F) (px : Price) (qty : Qty) (ts : UInt64) : TradeTape F :=
  ((t.record px qty ts).openBar px (ts / t.interval)).extendBar px qty

def last (t : TradeTape F) : Price := t.lastPx

def volume (t : TradeTape F) : UInt64 := t.cumVol

def vwap (t : TradeTape F) : F := vwapOf t.cumNotional t.cumVol

def bars (t : TradeTape F) (includeCurrent : Bool) : List (Bar F) :=
  if includeCurrent && t.curOpen then t.closed ++ [finalize t.cur t.curNotional] else t.closed

def barCount (t : TradeTape F) : Nat := t.closed.length + if t.curOpen then 1 else 0

end TradeTape

/-! ### Feeding tapes -/

/-- The arguments of `on_trade`. -/
structure Print where
  px : Price
  qty : Qty
  ts : UInt64
  deriving DecidableEq

section Feeding

variable {F : Type} [TapeFloat F]

def TradeTape.onTrades (t : TradeTape F) (prints : List Print) : TradeTape F :=
  prints.foldl (fun t p => t.onTrade p.px p.qty p.ts) t

/-- What the replay asks of a message before it hands it to a tape. -/
def Message.isPrint (m : Message) : Bool := m.type == .trade || m.type == .crossTrade

def Message.print (m : Message) : Print := ⟨m.price, m.shares, m.timestamp⟩

/-- `std::unordered_map<std::uint16_t, Tape>`. -/
abbrev TradeTapes (F : Type) := AList fun _ : UInt16 => TradeTape F

/-- `tapes.try_emplace(locate, 1000000).first->second`. -/
def TradeTapes.tapeAt (tapes : TradeTapes F) (locate : UInt16) : TradeTape F :=
  (tapes.lookup locate).getD (TradeTape.new 1000000)

def TradeTapes.onMessage (tapes : TradeTapes F) (m : Message) : TradeTapes F :=
  if m.isPrint then
    tapes.insert m.stockLocate
      ((tapes.tapeAt m.stockLocate).onTrade m.price m.shares m.timestamp)
  else tapes

end Feeding

/-- The tapes of one pass over a framed stream. -/
def replayTapes (F : Type) [TapeFloat F] (buf : List UInt8) : TradeTapes F :=
  (framedMessages buf).foldl TradeTapes.onMessage ∅

end HftOrderbook
