import HftOrderbook.Mt5.Bridge

/-!
# The example strategy

The strategy that `mt5d` runs: an order whenever the mid price has moved by a step since the last
tick. Its arithmetic on doubles is in `StrategyFloat`.
-/

namespace HftOrderbook.Mt5

open ByteText

class StrategyFloat (Double : Type) where
  /-- `0.5 * (bid + ask)`. -/
  mid (bid ask : Double) : Double
  /-- `a - b >= step`. -/
  risesBy (step a b : Double) : Bool

structure ExampleStrategy (Double : Type) where
  prevMid : Double
  primed : Bool := false
  step : Double
  lots : Double

namespace ExampleStrategy

variable {Double : Type} [FloatText Double]

def new (step lots : Double) : ExampleStrategy Double :=
  { prevMid := FloatText.zero, step := step, lots := lots }

def make (s : ExampleStrategy Double) (symbol : List UInt8) (side : Side) : Order Double :=
  { symbol := symbol
    side := side
    volume := s.lots
    price := FloatText.zero
    kind := ascii "market" }

variable [StrategyFloat Double]

def onTick (s : ExampleStrategy Double) (t : Tick Double) :
    ExampleStrategy Double × Option (Order Double) :=
  let mid := StrategyFloat.mid t.bid t.ask
  let out :=
    if s.primed then
      if StrategyFloat.risesBy s.step mid s.prevMid then some (s.make t.symbol Side.buy)
      else if StrategyFloat.risesBy s.step s.prevMid mid then some (s.make t.symbol Side.sell)
      else none
    else none
  ({ s with prevMid := mid, primed := true }, out)

def strategy : Strategy Double (ExampleStrategy Double) where
  onTick := onTick
  side := by
    intro s t ord hdecision
    unfold onTick at hdecision
    dsimp only at hdecision
    split_ifs at hdecision
    · exact Or.inl (Option.some.inj hdecision ▸ rfl)
    · exact Or.inr (Option.some.inj hdecision ▸ rfl)

end ExampleStrategy

end HftOrderbook.Mt5
