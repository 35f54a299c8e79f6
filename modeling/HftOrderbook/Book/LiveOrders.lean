import HftOrderbook.Book.OrderBook
import HftOrderbook.Library.FinmapSum

/-!
# What a book is for

The purpose of the reconstructor, without levels, pool or handles: a finite map from references to
live orders, and what each call does to it. Level totals are sums over that map. `BookOp` is one
call, with the same meaning on both sides.
-/

namespace HftOrderbook

abbrev LiveOrders := Finmap fun _ : OrderRef => Order

inductive BookOp where
  | add (ref : OrderRef) (side : Side) (price : Price) (shares : Qty)
  | reduce (ref : OrderRef) (qty : Qty)
  | remove (ref : OrderRef)
  | replace (origRef newRef : OrderRef) (newShares : Qty) (newPrice : Price)

def Side.Real (side : Side) : Prop := side = Side.buy ∨ side = Side.sell

instance : DecidablePred Side.Real := fun side =>
  inferInstanceAs (Decidable (side = Side.buy ∨ side = Side.sell))

namespace LiveOrders

def add (m : LiveOrders) (ref : OrderRef) (side : Side) (price : Price) (shares : Qty) :
    LiveOrders :=
  if shares = 0 then m else m.insert ref ⟨side, price, shares⟩

def reduce (m : LiveOrders) (ref : OrderRef) (qty : Qty) : LiveOrders × Bool :=
  match m.lookup ref with
  | none => (m, false)
  | some o =>
      let left := o.shares - min qty o.shares
      if left = 0 then (m.erase ref, true) else (m.insert ref { o with shares := left }, true)

def remove (m : LiveOrders) (ref : OrderRef) : LiveOrders × Bool :=
  match m.lookup ref with
  | none => (m, false)
  | some _ => (m.erase ref, true)

def replace (m : LiveOrders) (origRef newRef : OrderRef) (newShares : Qty) (newPrice : Price) :
    LiveOrders × Bool :=
  match m.lookup origRef with
  | none => (m, false)
  | some o => (add (m.erase origRef) newRef o.side newPrice newShares, true)

/-- The call, and what it returns if it returns anything. -/
def exec (m : LiveOrders) : BookOp → LiveOrders × Option Bool
  | .add ref side price shares => (m.add ref side price shares, none)
  | .reduce ref qty => ((m.reduce ref qty).1, some (m.reduce ref qty).2)
  | .remove ref => ((m.remove ref).1, some (m.remove ref).2)
  | .replace origRef newRef newShares newPrice =>
      ((m.replace origRef newRef newShares newPrice).1,
        some (m.replace origRef newRef newShares newPrice).2)

def run (ops : List BookOp) : LiveOrders := ops.foldl (fun m op => (m.exec op).1) ∅

/-! ### What a call leaves -/

section Cases

variable (m : LiveOrders) (ref : OrderRef)

theorem add_cases (side : Side) (price : Price) (shares : Qty) :
    m.add ref side price shares = m ∨
      shares ≠ 0 ∧ m.add ref side price shares = m.insert ref ⟨side, price, shares⟩ := by
  unfold add
  split_ifs with hshares
  · exact Or.inl rfl
  · exact Or.inr ⟨hshares, rfl⟩

theorem reduce_cases (qty : Qty) :
    (m.reduce ref qty).1 = m ∨ (m.reduce ref qty).1 = m.erase ref ∨
      ∃ o, m.lookup ref = some o ∧
        (m.reduce ref qty).1 = m.insert ref { o with shares := o.shares - min qty o.shares } := by
  unfold reduce
  cases hlookup : m.lookup ref with
  | none => exact Or.inl rfl
  | some o =>
      dsimp only
      split_ifs
      · exact Or.inr (Or.inl rfl)
      · exact Or.inr (Or.inr ⟨o, rfl, rfl⟩)

theorem remove_eq_erase : (m.remove ref).1 = m.erase ref := by
  unfold remove
  cases hlookup : m.lookup ref with
  | none => exact (Finmap.erase_eq_self hlookup).symm
  | some o => rfl

theorem replace_cases (newRef : OrderRef) (newShares : Qty) (newPrice : Price) :
    (m.replace ref newRef newShares newPrice).1 = m ∨
      ∃ o, m.lookup ref = some o ∧ (m.replace ref newRef newShares newPrice).1 =
        add (m.erase ref) newRef o.side newPrice newShares := by
  unfold replace
  cases hlookup : m.lookup ref with
  | none => exact Or.inl rfl
  | some o => exact Or.inr ⟨o, rfl, rfl⟩

end Cases

/-! ### Totals -/

/-- The shares `o` contributes to the level `price` of the bid store (`buy`) or the ask store. The
book files every order that is not a buy with the asks. -/
def sharesAt (buy : Bool) (price : Price) (o : Order) : Nat :=
  if decide (o.side = Side.buy) = buy ∧ o.price = price then o.shares.toNat else 0

def total (m : LiveOrders) (buy : Bool) : Totals := fun price => m.sumOver (sharesAt buy price)

def qtyAt (m : LiveOrders) (side : Side) (price : Price) : Nat :=
  m.sumOver fun o => if o.side = side ∧ o.price = price then o.shares.toNat else 0

def Rests (m : LiveOrders) (side : Side) (price : Price) : Prop :=
  ∃ ref o, m.lookup ref = some o ∧ o.side = side ∧ o.price = price

def prices (m : LiveOrders) (side : Side) : Finset Price :=
  m.keys.biUnion fun ref =>
    (m.lookup ref).elim ∅ fun o => if o.side = side then {o.price} else ∅

theorem mem_prices {m : LiveOrders} {side : Side} {price : Price} :
    price ∈ m.prices side ↔ m.Rests side price := by
  rw [prices, Finset.mem_biUnion]
  constructor
  · rintro ⟨ref, -, hmem⟩
    cases hlookup : m.lookup ref with
    | none => simp [hlookup] at hmem
    | some o =>
        rw [hlookup, Option.elim_some] at hmem
        split_ifs at hmem with hside
        · exact ⟨ref, o, hlookup, hside, (Finset.mem_singleton.mp hmem).symm⟩
        · cases hmem
  · rintro ⟨ref, o, hlookup, hside, rfl⟩
    refine ⟨ref, Finmap.mem_keys.mpr (Finmap.mem_of_lookup_eq_some hlookup), ?_⟩
    simp [hlookup, hside]

def AllReal (m : LiveOrders) : Prop := ∀ ref o, m.lookup ref = some o → o.side.Real

/-! ### Conditions on a call -/

/-- A call that introduces an order does so under a reference that is not live at that point; a
replace has deleted its original by then. -/
def Fresh (m : LiveOrders) : BookOp → Prop
  | .add ref _ _ shares => shares ≠ 0 → ref ∉ m
  | .replace origRef newRef newShares _ => origRef ∈ m → newShares ≠ 0 → newRef ∉ m.erase origRef
  | _ => True

instance (m : LiveOrders) : DecidablePred m.Fresh
  | .add ref _ _ shares => inferInstanceAs (Decidable (shares ≠ 0 → ref ∉ m))
  | .reduce _ _ => inferInstanceAs (Decidable True)
  | .remove _ => inferInstanceAs (Decidable True)
  | .replace origRef newRef newShares _ =>
      inferInstanceAs (Decidable (origRef ∈ m → newShares ≠ 0 → newRef ∉ m.erase origRef))

end LiveOrders

def BookOp.Sided : BookOp → Prop
  | .add _ side _ shares => shares ≠ 0 → side.Real
  | _ => True

instance : DecidablePred BookOp.Sided
  | .add _ side _ shares => inferInstanceAs (Decidable (shares ≠ 0 → side.Real))
  | .reduce _ _ => inferInstanceAs (Decidable True)
  | .remove _ => inferInstanceAs (Decidable True)
  | .replace _ _ _ _ => inferInstanceAs (Decidable True)

def BookOp.Priced (admissible : Price → Prop) : BookOp → Prop
  | .add _ _ price _ => admissible price
  | .replace _ _ _ newPrice => admissible newPrice
  | _ => True

variable {S : Compare → Type} [LevelStore S]

namespace BasicOrderBook

def exec (b : BasicOrderBook S) : BookOp → BasicOrderBook S × Option Bool
  | .add ref side price shares => (b.add ref side price shares, none)
  | .reduce ref qty => ((b.reduce ref qty).1, some (b.reduce ref qty).2)
  | .remove ref => ((b.remove ref).1, some (b.remove ref).2)
  | .replace origRef newRef newShares newPrice =>
      ((b.replace origRef newRef newShares newPrice).1,
        some (b.replace origRef newRef newShares newPrice).2)

def run (S : Compare → Type) [LevelStore S] (ops : List BookOp) : BasicOrderBook S :=
  ops.foldl (fun b op => (b.exec op).1) empty

end BasicOrderBook

/-- The book answers every query as the live orders say: `Buy` levels from the highest price down,
`Sell` levels from the lowest up, a level at a price exactly when an order rests there. -/
structure BasicOrderBook.AnswersAs (b : BasicOrderBook S) (m : LiveOrders) : Prop where
  orderCount : b.orderCount = m.keys.card
  qtyAt : ∀ side, side.Real → ∀ price, (b.qtyAt side price).toNat = m.qtyAt side price
  bidLevels : b.bidLevels = (m.prices Side.buy).card
  askLevels : b.askLevels = (m.prices Side.sell).card
  bestBid_eq_none : b.bestBid = none ↔ ∀ price, ¬ m.Rests Side.buy price
  bestBid_eq_some : ∀ price qty, b.bestBid = some (price, qty) ↔
    IsGreatest {p | m.Rests Side.buy p} price ∧ qty.toNat = m.qtyAt Side.buy price
  bestAsk_eq_none : b.bestAsk = none ↔ ∀ price, ¬ m.Rests Side.sell price
  bestAsk_eq_some : ∀ price qty, b.bestAsk = some (price, qty) ↔
    IsLeast {p | m.Rests Side.sell p} price ∧ qty.toNat = m.qtyAt Side.sell price
  bidDepth : ∃ ladder, IsLadder .greater (m.qtyAt Side.buy) ladder ∧
    ∀ n, b.depth Side.buy n = ladder.take n
  askDepth : ∃ ladder, IsLadder .less (m.qtyAt Side.sell) ladder ∧
    ∀ n, b.depth Side.sell n = ladder.take n
  invariantOk : b.invariantOk = true

/-! ### Conditions on a history -/

section History

variable (ops : List BookOp)

def FreshRefs : Prop := ∀ pre op, pre ++ [op] <+: ops → (LiveOrders.run pre).Fresh op

def RealSides : Prop := ∀ op ∈ ops, op.Sided

def LevelsFit : Prop :=
  ∀ pre, pre <+: ops → ∀ side price, (LiveOrders.run pre).qtyAt side price < 2 ^ 32

/-- Fewer than `2 ^ 32` pool slots are used. Which store the book has makes no difference to its
pool. -/
def SlotsFit : Prop :=
  ∀ pre, pre <+: ops → (BasicOrderBook.run MapLevels pre).orders.capacity < 2 ^ 32

end History

def Message.bookOp? (msg : Message) : Option BookOp :=
  match msg.type with
  | .addOrder | .addOrderMpid => some (.add msg.orderRef msg.side msg.price msg.shares)
  | .orderExecuted | .orderExecutedWithPrice | .orderCancel =>
      some (.reduce msg.orderRef msg.shares)
  | .orderDelete => some (.remove msg.orderRef)
  | .orderReplace => some (.replace msg.orderRef msg.newOrderRef msg.shares msg.price)
  | _ => none

theorem foldl_apply_eq_run (msgs : List Message) :
    msgs.foldl BasicOrderBook.apply BasicOrderBook.empty =
      BasicOrderBook.run S (msgs.filterMap Message.bookOp?) := by
  have hstep : ∀ (b : BasicOrderBook S) (msg : Message),
      b.apply msg = (msg.bookOp?.toList.foldl (fun b op => (b.exec op).1) b) := by
    intro b msg
    unfold BasicOrderBook.apply Message.bookOp?
    cases msg.type <;> rfl
  unfold BasicOrderBook.run
  generalize (BasicOrderBook.empty : BasicOrderBook S) = b
  induction msgs generalizing b with
  | nil => rfl
  | cons msg msgs ih =>
      rw [List.foldl_cons, ih, hstep]
      cases hop : msg.bookOp? with
      | none => rw [List.filterMap_cons_none hop]; rfl
      | some op => rw [List.filterMap_cons_some hop]; rfl

end HftOrderbook
