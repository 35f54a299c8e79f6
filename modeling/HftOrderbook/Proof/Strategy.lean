import HftOrderbook.Mt5.Strategy
import HftOrderbook.Proof.BridgeSession

/-!
# Orders follow the moves

The example strategy keeps the last mid price and nothing else, so what it does on a tick is fixed by
that tick and the one before it. A whole session therefore reads its answers off the pairs of
neighbouring ticks.
-/

namespace HftOrderbook.Mt5

open ByteText LineProcesses

variable {Double : Type} [FloatText Double] [StrategyFloat Double]

namespace ExampleStrategy

/-- What is ordered when the second tick comes after the first. -/
def move (step : Double) (before t : Tick Double) : Option (Side × List UInt8) :=
  if StrategyFloat.risesBy step (StrategyFloat.mid t.bid t.ask)
      (StrategyFloat.mid before.bid before.ask) then some (Side.buy, t.symbol)
  else if StrategyFloat.risesBy step (StrategyFloat.mid before.bid before.ask)
      (StrategyFloat.mid t.bid t.ask) then some (Side.sell, t.symbol)
  else none

/-- Nothing on the first tick, and on each other tick the move from the one before. -/
def moves (step : Double) : List (Tick Double) → List (Option (Side × List UInt8))
  | [] => []
  | t :: ticks => none :: List.zipWith (move step) (t :: ticks) ticks

/-- The state after a tick. -/
def after (s : ExampleStrategy Double) (t : Tick Double) : ExampleStrategy Double :=
  { s with prevMid := StrategyFloat.mid t.bid t.ask, primed := true }

theorem onTick_after (s : ExampleStrategy Double) (before t : Tick Double) :
    ((s.after before).onTick t).1 = s.after t ∧
      (((s.after before).onTick t).2.map fun o => (o.side, o.symbol)) = move s.step before t := by
  refine ⟨rfl, ?_⟩
  unfold onTick move after
  dsimp only
  rw [if_pos rfl]
  split_ifs <;> rfl

/-- The answers to ticks that come after another. -/
theorem decisions_after (ticks : List (Tick Double)) :
    ∀ (s : ExampleStrategy Double) (before : Tick Double) (id : UInt64),
      (decisions strategy (s.after before) id ticks).map
          (Option.map fun o => (o.side, o.symbol)) =
        List.zipWith (move s.step) (before :: ticks.map Tick.seen) (ticks.map Tick.seen) := by
  induction ticks with
  | nil => exact fun _ _ _ => rfl
  | cons t ticks ih =>
      intro s before id
      obtain ⟨hstate, hmove⟩ := s.onTick_after before t.seen
      have hstep : strategy.onTick (s.after before) t.seen = (s.after before).onTick t.seen := rfl
      rw [List.map_cons, List.zipWith_cons_cons, ← hmove, decisions, hstep]
      cases hdecision : (s.after before).onTick t.seen with
      | mk s' decision =>
          rw [hdecision] at hstate
          obtain rfl : s' = s.after t.seen := hstate
          cases decision with
          | none => exact congrArg (none :: ·) (ih s t.seen id)
          | some ord => exact congrArg (some (ord.side, ord.symbol) :: ·) (ih s t.seen (id + 1))

theorem decisions_new (step lots : Double) (id : UInt64) (ticks : List (Tick Double)) :
    (decisions strategy (new step lots) id ticks).map (Option.map fun o => (o.side, o.symbol)) =
      moves step (ticks.map Tick.seen) := by
  cases ticks with
  | nil => rfl
  | cons t ticks => exact congrArg (none :: ·) (decisions_after ticks (new step lots) t.seen id)

end ExampleStrategy

/-- However the two parties are interleaved, the Expert Advisor reads nothing for the first tick and
for each later one an order exactly if the mid price has moved by a step since the tick before, a buy
if it rose and a sell if it fell, for the symbol of the tick; and it can always get to the end. -/
theorem example_orders_follow_moves (Double : Type) [FloatText Double] [StrategyFloat Double]
    (hfloat : FloatText.Lawful Double) (config : EaConfig Double) (step lots : Double)
    (ticks : List (Tick Double)) :
    ∀ w, Leads ExampleStrategy.strategy config (session ticks (ExampleStrategy.new step lots)) w →
      w.left.replies.map (Option.map fun o => (o.side, o.symbol)) <+:
          ExampleStrategy.moves step (ticks.map Tick.seen) ∧
        ∃ z, Leads ExampleStrategy.strategy config w z ∧ z.right.returned = true ∧
          z.left.replies.map (Option.map fun o => (o.side, o.symbol)) =
            ExampleStrategy.moves step (ticks.map Tick.seen) := by
  intro w hw
  obtain ⟨z, hz, hend⟩ := leads_end hfloat ExampleStrategy.strategy config ticks
    { phase := .next, todo := ticks } { strat := ExampleStrategy.new step lots } rfl rfl rfl rfl
  obtain ⟨n, hrun⟩ := exists_run ((leads_greeting hfloat ticks _).trans hz)
  obtain ⟨m, hother⟩ := exists_run hw
  obtain ⟨k, -, hrest⟩ := hrun.of_run (hend.finished config) hother
  have hleads : Leads ExampleStrategy.strategy config w z := hrest.reachable
  have hreplies : z.left.replies.map (Option.map fun o => (o.side, o.symbol)) =
      ExampleStrategy.moves step (ticks.map Tick.seen) := by
    have hread : z.left.replies = (decisions ExampleStrategy.strategy
        (ExampleStrategy.new step lots) 1 ticks).map (Option.map Order.seen) := hend.replies
    rw [hread, List.map_map, ← ExampleStrategy.decisions_new step lots 1]
    refine List.map_congr_left fun answer _ => ?_
    cases answer <;> rfl
  exact ⟨hreplies ▸ (grows_of_leads hleads).1.map _, z, hleads, hend.returned, hreplies⟩

/-- On whole numbers, the prices of the sample being even. -/
instance wholeStrategy : StrategyFloat Int where
  mid bid ask := (bid + ask) / 2
  risesBy step a b := decide (step ≤ a - b)

/-- Up, down and sideways. -/
theorem example_orders_follow_moves_sample :
    let config : EaConfig Int := ⟨ascii "EA", 12345, ascii "EURUSD", fun _ => { ok := true }⟩
    let ticks : List (Tick Int) := [{ bid := 4, ask := 6 }, { bid := 8, ask := 10 },
      { bid := 2, ask := 4 }, { bid := 2, ask := 4 }]
    ∃ z, Leads ExampleStrategy.strategy config (session ticks (ExampleStrategy.new 3 1)) z ∧
      z.left.replies.map (Option.map fun o => (o.side, o.symbol)) =
        [none, some (Side.buy, []), some (Side.sell, []), none] := by
  intro config ticks
  obtain ⟨-, z, hz, -, hreplies⟩ :=
    example_orders_follow_moves Int wholeNumbers_lawful config 3 1 ticks _ .refl
  exact ⟨z, hz, hreplies.trans (by decide)⟩

end HftOrderbook.Mt5
