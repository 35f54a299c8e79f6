import HftOrderbook.Core.FlatLevels
import HftOrderbook.Core.WindowedLevels
import HftOrderbook.Core.ObjectPool
import HftOrderbook.Itch.Messages
import Mathlib.Data.List.AList

/-!
# The order-book reconstructor

Three structures are kept in step: a store of price levels for each side, a pool of orders, and an
index from order references to pool handles. The book is generic in the level store.
-/

namespace HftOrderbook

structure Order where
  side : Side := Side.none
  price : Price := 0
  shares : Qty := 0
  deriving DecidableEq

instance : Inhabited Order := ⟨{}⟩

/-- `std::unordered_map<OrderRef, std::uint32_t>`. -/
abbrev Index := AList fun _ : OrderRef => Handle

structure BasicOrderBook (S : Compare → Type) where
  bids : S .greater
  asks : S .less
  orders : ObjectPool Order
  index : Index

namespace BasicOrderBook

variable {S : Compare → Type} [LevelStore S]

def empty : BasicOrderBook S :=
  { bids := LevelStore.empty .greater
    asks := LevelStore.empty .less
    orders := {}
    index := ∅ }

def incLevel (b : BasicOrderBook S) (side : Side) (price : Price) (q : Qty) : BasicOrderBook S :=
  if side = Side.buy then { b with bids := LevelStore.inc b.bids price q }
  else { b with asks := LevelStore.inc b.asks price q }

def decLevel (b : BasicOrderBook S) (side : Side) (price : Price) (d : Qty) : BasicOrderBook S :=
  if side = Side.buy then { b with bids := LevelStore.dec b.bids price d }
  else { b with asks := LevelStore.dec b.asks price d }

def add (b : BasicOrderBook S) (ref : OrderRef) (side : Side) (price : Price) (shares : Qty) :
    BasicOrderBook S :=
  if shares = 0 then b
  else
    let (h, orders) := b.orders.alloc
    ({ b with
        orders := orders.set h ⟨side, price, shares⟩
        index := b.index.insert ref h }).incLevel side price shares

def reduce (b : BasicOrderBook S) (ref : OrderRef) (qty : Qty) : BasicOrderBook S × Bool :=
  match b.index.lookup ref with
  | none => (b, false)
  | some h =>
      let o := b.orders.get h
      let d := if qty < o.shares then qty else o.shares
      let b' := ({ b with
        orders := b.orders.set h { o with shares := o.shares - d } }).decLevel o.side o.price d
      if o.shares - d = 0 then
        ({ b' with orders := b'.orders.free h, index := b'.index.erase ref }, true)
      else (b', true)

def remove (b : BasicOrderBook S) (ref : OrderRef) : BasicOrderBook S × Bool :=
  match b.index.lookup ref with
  | none => (b, false)
  | some h =>
      let o := b.orders.get h
      let b' := b.decLevel o.side o.price o.shares
      ({ b' with orders := b'.orders.free h, index := b'.index.erase ref }, true)

def replace (b : BasicOrderBook S) (origRef newRef : OrderRef) (newShares : Qty)
    (newPrice : Price) : BasicOrderBook S × Bool :=
  match b.index.lookup origRef with
  | none => (b, false)
  | some h =>
      let side := (b.orders.get h).side
      ((b.remove origRef).1.add newRef side newPrice newShares, true)

def apply (b : BasicOrderBook S) (m : Message) : BasicOrderBook S :=
  match m.type with
  | .addOrder | .addOrderMpid => b.add m.orderRef m.side m.price m.shares
  | .orderExecuted | .orderExecutedWithPrice | .orderCancel => (b.reduce m.orderRef m.shares).1
  | .orderDelete => (b.remove m.orderRef).1
  | .orderReplace => (b.replace m.orderRef m.newOrderRef m.shares m.price).1
  | _ => b

/-! ### Queries -/

def bestBid (b : BasicOrderBook S) : Option (Price × Qty) := LevelStore.best b.bids

def bestAsk (b : BasicOrderBook S) : Option (Price × Qty) := LevelStore.best b.asks

def qtyAt (b : BasicOrderBook S) (side : Side) (price : Price) : Qty :=
  if side = Side.buy then LevelStore.atPrice b.bids price else LevelStore.atPrice b.asks price

def orderCount (b : BasicOrderBook S) : Nat := b.index.entries.length

def bidLevels (b : BasicOrderBook S) : Nat := LevelStore.size b.bids

def askLevels (b : BasicOrderBook S) : Nat := LevelStore.size b.asks

def depth (b : BasicOrderBook S) (side : Side) (n : Nat) : List (Price × Qty) :=
  if side = Side.buy then LevelStore.top b.bids n else LevelStore.top b.asks n

/-- One round of the rebuilding loop of `invariant_ok`, `none` where it returns `false`. -/
def rebuildStep (b : BasicOrderBook S) (rebuilt : LevelMap .greater × LevelMap .less)
    (kv : (_ : OrderRef) × Handle) : Option (LevelMap .greater × LevelMap .less) :=
  let o := b.orders.get kv.2
  if o.shares = 0 then none
  else if o.side = Side.buy then some (rebuilt.1.addAt o.price o.shares, rebuilt.2)
  else if o.side = Side.sell then some (rebuilt.1, rebuilt.2.addAt o.price o.shares)
  else none

def invariantOk (b : BasicOrderBook S) : Bool :=
  match b.index.entries.foldlM b.rebuildStep (.empty, .empty) with
  | none => false
  | some (rebuiltBids, rebuiltAsks) =>
      decide (rebuiltBids.size = LevelStore.size b.bids) &&
      decide (rebuiltAsks.size = LevelStore.size b.asks) &&
      rebuiltBids.entries.all (fun kv => decide (LevelStore.atPrice b.bids kv.1 = kv.2)) &&
      rebuiltAsks.entries.all (fun kv => decide (LevelStore.atPrice b.asks kv.1 = kv.2))

end BasicOrderBook

abbrev OrderBook := BasicOrderBook MapLevels

abbrev FlatOrderBook := BasicOrderBook FlatLevels

abbrev WindowedOrderBook := BasicOrderBook CheckedWindow

end HftOrderbook
