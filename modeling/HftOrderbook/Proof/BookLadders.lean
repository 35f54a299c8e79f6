import HftOrderbook.Proof.BookAnswers
import HftOrderbook.Proof.BookRuns

/-!
# No empty level in a ladder

A level is erased when its total reaches zero, so an empty one could only come from a total that
wraps. As long as none does, whatever the references and sides of the calls are, every level of a
book has something resting in it and a price that some call brought.
-/

namespace HftOrderbook

/-! ### One map -/

/-- Every level holds something, at an admissible price. -/
def LevelMap.Filled {c : Compare} (admissible : Price → Prop) (m : LevelMap c) : Prop :=
  ∀ e ∈ m.entries, e.2 ≠ 0 ∧ admissible e.1

namespace LevelMap.Filled

variable {c : Compare} {admissible : Price → Prop} {m : LevelMap c}

theorem insert (h : m.Filled admissible) {p : Price} {q : Qty} (hp : admissible p) (hq : q ≠ 0) :
    LevelMap.Filled admissible (m.insert p q) := by
  rintro ⟨p', q'⟩ hmem
  rcases (OrderedMap.mem_insertEntry m.sorted).mp hmem with ⟨rfl, rfl⟩ | ⟨-, hmem⟩
  · exact ⟨hq, hp⟩
  · exact h _ hmem

theorem addAt (h : m.Filled admissible) {p : Price} {q : Qty} (hp : admissible p) (hq : q ≠ 0)
    (hfit : ((m.find? p).getD 0).toNat + q.toNat < 2 ^ 32) :
    LevelMap.Filled admissible (m.addAt p q) := by
  refine h.insert hp fun hzero => hq ?_
  have hsum := congrArg UInt32.toNat hzero
  rw [UInt32.toNat_add, Nat.mod_eq_of_lt hfit] at hsum
  change _ = 0 at hsum
  exact UInt32.toNat_inj.mp (show q.toNat = 0 by omega)

theorem subAt (h : m.Filled admissible) (p : Price) (q : Qty) :
    LevelMap.Filled admissible (m.subAt p q) := by
  unfold LevelMap.subAt
  cases hfind : m.find? p with
  | none => exact h
  | some old =>
      have hold := h _ (OrderedMap.find?_eq_some_iff_mem.mp hfind)
      dsimp only
      split_ifs with hzero
      · exact fun e he => h e (List.mem_of_mem_filter he)
      · exact h.insert hold.2 hzero

end LevelMap.Filled

/-! ### The book -/

/-- What the call adds to a level, on top of what is there when it does, stays below `2 ^ 32`. -/
def BasicOrderBook.SumFits (b : OrderBook) : BookOp → Prop
  | .add _ side price shares => (b.qtyAt side price).toNat + shares.toNat < 2 ^ 32
  | .replace origRef _ newShares newPrice => ∀ h, b.index.lookup origRef = some h →
      ((b.remove origRef).1.qtyAt (b.orders.get h).side newPrice).toNat + newShares.toNat < 2 ^ 32
  | _ => True

def LevelSumsFit (ops : List BookOp) : Prop :=
  ∀ pre op, pre ++ [op] <+: ops → (BasicOrderBook.run MapLevels pre).SumFits op

/-- Neither side of the book has an empty level. -/
def BasicOrderBook.Filled (admissible : Price → Prop) (b : OrderBook) : Prop :=
  b.bids.m.Filled admissible ∧ b.asks.m.Filled admissible

namespace BasicOrderBook.Filled

variable {admissible : Price → Prop} {b : OrderBook}

theorem incLevel (h : b.Filled admissible) {side : Side} {price : Price} {q : Qty}
    (hprice : admissible price) (hq : q ≠ 0)
    (hfit : (b.qtyAt side price).toNat + q.toNat < 2 ^ 32) :
    (b.incLevel side price q).Filled admissible := by
  unfold BasicOrderBook.incLevel
  unfold BasicOrderBook.qtyAt at hfit
  by_cases hside : side = Side.buy
  · rw [if_pos hside] at hfit ⊢
    exact ⟨h.1.addAt hprice hq hfit, h.2⟩
  · rw [if_neg hside] at hfit ⊢
    exact ⟨h.1, h.2.addAt hprice hq hfit⟩

theorem decLevel (h : b.Filled admissible) (side : Side) (price : Price) (d : Qty) :
    (b.decLevel side price d).Filled admissible := by
  unfold BasicOrderBook.decLevel
  split_ifs
  · exact ⟨h.1.subAt price d, h.2⟩
  · exact ⟨h.1, h.2.subAt price d⟩

theorem add (h : b.Filled admissible) {ref : OrderRef} {side : Side} {price : Price} {shares : Qty}
    (hprice : admissible price) (hfit : (b.qtyAt side price).toNat + shares.toNat < 2 ^ 32) :
    (b.add ref side price shares).Filled admissible := by
  unfold BasicOrderBook.add
  by_cases hshares : shares = 0
  · rwa [if_pos hshares]
  · rw [if_neg hshares]
    obtain ⟨handle, orders⟩ := b.orders.alloc
    have hstored : BasicOrderBook.Filled admissible
        { b with
          orders := orders.set handle ⟨side, price, shares⟩
          index := b.index.insert ref handle } := h
    exact hstored.incLevel hprice hshares hfit

theorem remove (h : b.Filled admissible) (ref : OrderRef) :
    (b.remove ref).1.Filled admissible := by
  unfold BasicOrderBook.remove
  cases b.index.lookup ref with
  | none => exact h
  | some handle => exact h.decLevel _ _ _

theorem reduce (h : b.Filled admissible) (ref : OrderRef) (qty : Qty) :
    (b.reduce ref qty).1.Filled admissible := by
  unfold BasicOrderBook.reduce
  cases b.index.lookup ref with
  | none => exact h
  | some handle =>
      have hdec : ∀ orders side price d,
          (({ b with orders := orders } : OrderBook).decLevel side price d).Filled admissible :=
        fun orders side price d =>
          decLevel (show BasicOrderBook.Filled admissible { b with orders := orders } from h)
            side price d
      simp only [BasicOrderBook.clamp_eq_min]
      split_ifs
      · exact hdec _ _ _ _
      · exact hdec _ _ _ _

theorem exec (h : b.Filled admissible) {op : BookOp} (hpriced : op.Priced admissible)
    (hfit : b.SumFits op) : (b.exec op).1.Filled admissible := by
  cases op with
  | add ref side price shares => exact h.add hpriced hfit
  | reduce ref qty => exact h.reduce ref qty
  | remove ref => exact h.remove ref
  | replace origRef newRef newShares newPrice =>
      change (b.replace origRef newRef newShares newPrice).1.Filled admissible
      unfold BasicOrderBook.replace
      cases hlookup : b.index.lookup origRef with
      | none => exact h
      | some handle => exact (h.remove origRef).add hpriced (hfit handle hlookup)

end BasicOrderBook.Filled

theorem filled_run {admissible : Price → Prop} {ops : List BookOp} (hsums : LevelSumsFit ops)
    (hpriced : ∀ op ∈ ops, op.Priced admissible) :
    (BasicOrderBook.run MapLevels ops).Filled admissible := by
  have hrun : ∀ pre, pre <+: ops → (BasicOrderBook.run MapLevels pre).Filled admissible := by
    refine Histories.forall_prefix ?_ fun pre op hpre ih => ?_
    · exact ⟨fun e he => absurd he List.not_mem_nil, fun e he => absurd he List.not_mem_nil⟩
    · rw [BasicOrderBook.run_concat]
      exact ih.exec (hpriced op (hpre.subset (by simp))) (hsums pre op hpre)
  exact hrun ops List.prefix_rfl

/-! ### Level sums and live orders -/

namespace BookInv

variable {b : OrderBook} {m : LiveOrders}

theorem toNat_qtyAt (h : BookInv b m) (side : Side) (price : Price) :
    (b.qtyAt side price).toNat = m.total (decide (side = Side.buy)) price := by
  unfold BasicOrderBook.qtyAt
  by_cases hside : side = Side.buy
  · rw [if_pos hside, decide_eq_true hside]
    exact (MapLevels.answers h.levels.1).atPrice price
  · rw [if_neg hside, decide_eq_false hside]
    exact (MapLevels.answers h.levels.2).atPrice price

theorem add_fits (h : BookInv b m) {ref : OrderRef} {side : Side} {price : Price} {shares : Qty}
    (hfresh : shares ≠ 0 → ref ∉ m)
    (hfits : ∀ buy, (LiveOrders.total (m.add ref side price shares) buy).Fits) :
    (b.qtyAt side price).toNat + shares.toNat < 2 ^ 32 := by
  by_cases hshares : shares = 0
  · rw [hshares]
    exact (b.qtyAt side price).toNat_lt
  · have hfit := hfits (decide (side = Side.buy)) price
    rw [LiveOrders.add, if_neg hshares, LiveOrders.total_insert (hfresh hshares)] at hfit
    simp only [SideTotals.inc, if_true, Totals.inc_apply] at hfit
    rwa [h.toNat_qtyAt]

theorem sumFits (h : BookInv b m) {op : BookOp} (hfresh : m.Fresh op)
    (hfits : ∀ buy, (LiveOrders.total (m.exec op).1 buy).Fits) : b.SumFits op := by
  cases op with
  | add ref side price shares => exact h.add_fits hfresh hfits
  | reduce ref qty => trivial
  | remove ref => trivial
  | replace origRef newRef newShares newPrice =>
      intro handle hindex
      have hremove := h.remove origRef
      rw [LiveOrders.remove_eq_erase] at hremove
      rcases h.tracks.lookup_cases origRef with ⟨hnone, -⟩ | ⟨handle', hindex', hlive⟩
      · rw [hindex] at hnone
        cases hnone
      · obtain rfl : handle = handle' := Option.some.inj (hindex.symm.trans hindex')
        simp only [LiveOrders.exec, LiveOrders.replace, hlive] at hfits
        exact hremove.add_fits (hfresh (Finmap.mem_of_lookup_eq_some hlive)) hfits

end BookInv

/-- With fresh references, real sides and a pool that can address its slots, a level holds the
shares resting there: none wraps if these sum to less than `2 ^ 32`. -/
theorem levelSumsFit_of_levelsFit {ops : List BookOp} (hfresh : FreshRefs ops)
    (hsided : RealSides ops) (hfits : LevelsFit ops) (hslots : SlotsFit ops) :
    LevelSumsFit ops := by
  intro pre op hpre
  have hinv := (orderBookInv_run hfresh hsided hfits hslots ((List.prefix_append _ _).trans hpre)).1
  have hfit := hfits.total_fits hsided _ hpre
  rw [LiveOrders.run_concat] at hfit
  exact hinv.sumFits (hfresh pre op hpre) hfit

end HftOrderbook
