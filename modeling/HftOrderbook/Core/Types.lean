import Mathlib.Tactic

/-!
# Prices, quantities, references and sides

`Price` is the signed tick count the feed carries; the store that subtracts prices says where the
difference has to fit a machine word. `Qty` and `OrderRef` are the fixed-width words of the source,
so that level totals wrap here exactly where they wrap there.
-/

namespace HftOrderbook

abbrev Price := Int

/-- Ticks to the dollar. -/
def kPriceScale : Price := 10000

/-- The prices the wire can carry. -/
def WirePrice (p : Price) : Prop := 0 ≤ p ∧ p < 2 ^ 32

abbrev Qty := UInt32

abbrev OrderRef := UInt64

/-- A side is a raw character code: the decoder casts whatever byte the wire carries, and the
enumerators below are only the codes the book knows. -/
structure Side where
  code : UInt8
  deriving DecidableEq

def Side.buy : Side := ⟨0x42⟩

def Side.sell : Side := ⟨0x53⟩

def Side.none : Side := ⟨0x00⟩

end HftOrderbook
