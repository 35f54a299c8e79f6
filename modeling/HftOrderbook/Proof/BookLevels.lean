import HftOrderbook.Proof.BookOrders

/-!
# The level stores hold the totals of the live orders

With fresh references each call moves the totals of the live orders by exactly what it tells the
level store, so that the stores keep representing them for as long as the totals fit a `Qty`.
-/

namespace HftOrderbook

/-- The totals of both stores, `true` for the bids. -/
abbrev SideTotals := Bool → Totals

namespace SideTotals

def inc (t : SideTotals) (side : Side) (p : Price) (q : Nat) : SideTotals := fun buy =>
  if decide (side = Side.buy) = buy then (t buy).inc p q else t buy

def dec (t : SideTotals) (side : Side) (p : Price) (q : Nat) : SideTotals := fun buy =>
  if decide (side = Side.buy) = buy then (t buy).dec p q else t buy

theorem inc_order (t : SideTotals) (o : Order) (buy : Bool) (p : Price) :
    t.inc o.side o.price o.shares.toNat buy p = t buy p + LiveOrders.sharesAt buy p o := by
  unfold inc LiveOrders.sharesAt
  by_cases hside : decide (o.side = Side.buy) = buy
  · rw [if_pos hside, Totals.inc_apply]
    by_cases hprice : p = o.price
    · rw [if_pos hprice, if_pos ⟨hside, hprice.symm⟩, hprice]
    · rw [if_neg hprice, if_neg fun h => hprice h.2.symm, Nat.add_zero]
  · rw [if_neg hside, if_neg fun h => hside h.1, Nat.add_zero]

theorem dec_order (t : SideTotals) (o : Order) (buy : Bool) (p : Price) :
    t.dec o.side o.price o.shares.toNat buy p = t buy p - LiveOrders.sharesAt buy p o := by
  unfold dec LiveOrders.sharesAt
  by_cases hside : decide (o.side = Side.buy) = buy
  · rw [if_pos hside, Totals.dec_apply]
    by_cases hprice : p = o.price
    · rw [if_pos hprice, if_pos ⟨hside, hprice.symm⟩, hprice]
    · rw [if_neg hprice, if_neg fun h => hprice h.2.symm, Nat.sub_zero]
  · rw [if_neg hside, if_neg fun h => hside h.1, Nat.sub_zero]

end SideTotals

namespace LiveOrders

variable {m : LiveOrders} {ref : OrderRef} {o : Order}

theorem total_insert (hfresh : ref ∉ m) (o : Order) :
    total (m.insert ref o) = SideTotals.inc m.total o.side o.price o.shares.toNat := by
  funext buy p
  rw [SideTotals.inc_order]
  exact Finmap.sumOver_insert hfresh _

theorem total_erase (hlookup : m.lookup ref = some o) :
    total (m.erase ref) = SideTotals.dec m.total o.side o.price o.shares.toNat := by
  funext buy p
  rw [SideTotals.dec_order]
  exact Nat.eq_sub_of_add_eq (Finmap.sumOver_erase hlookup _)

theorem sharesAt_sub_add {d : Qty} (hd : d ≤ o.shares) (buy : Bool) (p : Price) :
    sharesAt buy p { o with shares := o.shares - d } + sharesAt buy p { o with shares := d } =
      sharesAt buy p o := by
  unfold sharesAt
  split_ifs
  · rw [UInt32.toNat_sub_of_le _ _ hd]
    exact Nat.sub_add_cancel hd
  · rfl

theorem total_insert_sub (hlookup : m.lookup ref = some o) {d : Qty} (hd : d ≤ o.shares) :
    total (m.insert ref { o with shares := o.shares - d }) =
      SideTotals.dec m.total o.side o.price d.toNat := by
  funext buy p
  have hsum : (m.insert ref { o with shares := o.shares - d }).sumOver (sharesAt buy p) +
      sharesAt buy p o =
      m.sumOver (sharesAt buy p) + sharesAt buy p { o with shares := o.shares - d } :=
    Finmap.sumOver_insert_of_lookup hlookup _
  have hparts := sharesAt_sub_add hd buy p
  rw [SideTotals.dec_order m.total { o with shares := d }]
  change Finmap.sumOver _ _ = Finmap.sumOver _ _ - _
  omega

theorem shares_le_total (hlookup : m.lookup ref = some o) :
    o.shares.toNat ≤ m.total (decide (o.side = Side.buy)) o.price := by
  have hle := Finmap.le_sumOver hlookup (sharesAt (decide (o.side = Side.buy)) o.price)
  rwa [sharesAt, if_pos ⟨rfl, rfl⟩] at hle

end LiveOrders

/-! ### Both stores at once -/

variable {S : Compare → Type} [LevelStore S] {admissible : Price → Prop}
  [LawfulLevelStore S admissible]

def Levels (b : BasicOrderBook S) (t : SideTotals) : Prop :=
  LawfulLevelStore.Represents b.bids (t true) ∧ LawfulLevelStore.Represents b.asks (t false)

namespace Levels

variable {b : BasicOrderBook S} {t : SideTotals} {side : Side} {p : Price} {q : Qty}

theorem incLevel (h : Levels b t) (hp : admissible p) (hq : q ≠ 0)
    (hfit : t (decide (side = Side.buy)) p + q.toNat < 2 ^ 32) :
    Levels (b.incLevel side p q) (t.inc side p q.toNat) := by
  unfold BasicOrderBook.incLevel SideTotals.inc Levels
  by_cases hside : side = Side.buy
  · simp only [hside, decide_true, if_true, Bool.true_eq_false, if_false] at hfit ⊢
    exact ⟨LawfulLevelStore.inc h.1 hp hq hfit, h.2⟩
  · simp only [hside, decide_false, if_true, Bool.false_eq_true, if_false] at hfit ⊢
    exact ⟨h.1, LawfulLevelStore.inc h.2 hp hq hfit⟩

theorem decLevel (h : Levels b t) (hq : q.toNat ≤ t (decide (side = Side.buy)) p) :
    Levels (b.decLevel side p q) (t.dec side p q.toNat) := by
  unfold BasicOrderBook.decLevel SideTotals.dec Levels
  by_cases hside : side = Side.buy
  · simp only [hside, decide_true, if_true, Bool.true_eq_false, if_false] at hq ⊢
    exact ⟨LawfulLevelStore.dec h.1 hq, h.2⟩
  · simp only [hside, decide_false, if_true, Bool.false_eq_true, if_false] at hq ⊢
    exact ⟨h.1, LawfulLevelStore.dec h.2 hq⟩

end Levels

structure BookInv (b : BasicOrderBook S) (m : LiveOrders) : Prop where
  tracks : Tracks b m
  balanced : b.orders.capacity = b.orders.freed.length + m.keys.card
  levels : Levels b m.total

namespace BookInv

variable {b : BasicOrderBook S} {m : LiveOrders} {ref : OrderRef}

theorem empty : BookInv (BasicOrderBook.empty : BasicOrderBook S) ∅ where
  tracks := Tracks.empty
  balanced := by simp [BasicOrderBook.empty, ObjectPool.capacity]
  levels := by
    have hzero : ∀ buy, (∅ : LiveOrders).total buy = fun _ => 0 := by
      intro buy
      funext p
      simp [LiveOrders.total, Finmap.sumOver]
    constructor
    · rw [hzero]
      exact LawfulLevelStore.empty .greater
    · rw [hzero]
      exact LawfulLevelStore.empty .less

/-- An insertion takes a slot into use, whether or not its reference is live. -/
theorem capacity_add (h : BookInv b m) (ref : OrderRef) (side : Side) (price : Price)
    {shares : Qty} (hshares : shares ≠ 0) :
    (b.add ref side price shares).orders.capacity =
      (b.add ref side price shares).orders.freed.length + (m.keys.card + 1) := by
  simpa [BasicOrderBook.add, hshares, ObjectPool.set, ObjectPool.capacity] using
    ObjectPool.capacity_alloc h.balanced

theorem add (h : BookInv b m) {side : Side} {price : Price} {shares : Qty}
    (hfresh : shares ≠ 0 → ref ∉ m) (hprice : admissible price)
    (hfits : ∀ buy, (LiveOrders.total (m.add ref side price shares) buy).Fits)
    (hroom : (b.add ref side price shares).orders.capacity ≤ 2 ^ 32) :
    BookInv (b.add ref side price shares) (m.add ref side price shares) := by
  have htracks := h.tracks.add hroom
  by_cases hshares : shares = 0
  · unfold BasicOrderBook.add LiveOrders.add
    simpa only [if_pos hshares] using h
  · have hnew := hfresh hshares
    have hlive : m.add ref side price shares = m.insert ref ⟨side, price, shares⟩ := if_neg hshares
    refine ⟨htracks, ?_, ?_⟩
    · rw [hlive, Finmap.keys_insert, Finset.card_insert_of_notMem (by simpa [Finmap.mem_keys])]
      exact h.capacity_add ref side price hshares
    · have hfit := hfits (decide (side = Side.buy)) price
      rw [hlive, LiveOrders.total_insert hnew] at hfit ⊢
      simp only [SideTotals.inc, if_true, Totals.inc_apply] at hfit
      simp only [BasicOrderBook.add, if_neg hshares]
      exact Levels.incLevel h.levels hprice hshares hfit

theorem erase {b' : BasicOrderBook S} (h : BookInv b m) {o : Order} {d : Qty}
    (hlookup : m.lookup ref = some o) (hd : d = o.shares) (htracks : Tracks b' (m.erase ref))
    (hcapacity : b'.orders.capacity = b.orders.capacity)
    (hfreed : b'.orders.freed.length = b.orders.freed.length + 1)
    (hlevels : Levels b' (SideTotals.dec m.total o.side o.price d.toNat)) :
    BookInv b' (m.erase ref) := by
  subst hd
  refine ⟨htracks, ?_, LiveOrders.total_erase hlookup ▸ hlevels⟩
  have hmem : ref ∈ m.keys := Finmap.mem_keys.mpr (Finmap.mem_of_lookup_eq_some hlookup)
  have hcard := Finset.card_erase_add_one hmem
  rw [hcapacity, hfreed, h.balanced, Finmap.keys_erase]
  omega

theorem remove (h : BookInv b m) (ref : OrderRef) :
    BookInv (b.remove ref).1 (m.remove ref).1 := by
  have htracks := (h.tracks.remove ref).1
  unfold BasicOrderBook.remove LiveOrders.remove at *
  rcases h.tracks.lookup_cases ref with ⟨hindex, hlive⟩ | ⟨handle, hindex, hlive⟩
  · simp only [hindex, hlive]
    exact h
  · simp only [hindex, hlive] at htracks ⊢
    refine h.erase hlive rfl htracks (by simp [ObjectPool.free, ObjectPool.capacity])
      (by simp [ObjectPool.free]) ?_
    exact Levels.decLevel h.levels (LiveOrders.shares_le_total hlive)

theorem reduce (h : BookInv b m) (ref : OrderRef) (qty : Qty) :
    BookInv (b.reduce ref qty).1 (m.reduce ref qty).1 := by
  have htracks := (h.tracks.reduce ref qty).1
  unfold BasicOrderBook.reduce LiveOrders.reduce at *
  rcases h.tracks.lookup_cases ref with ⟨hindex, hlive⟩ | ⟨handle, hindex, hlive⟩
  · simp only [hindex, hlive]
    exact h
  · simp only [hindex, hlive, BasicOrderBook.clamp_eq_min] at htracks ⊢
    set o := b.orders.get handle
    have hd : min qty o.shares ≤ o.shares := BasicOrderBook.min_le_shares qty o.shares
    have hle : (min qty o.shares).toNat ≤ m.total (decide (o.side = Side.buy)) o.price :=
      (UInt32.le_iff_toNat_le.mp hd).trans (LiveOrders.shares_le_total hlive)
    by_cases hleft : o.shares - min qty o.shares = 0
    · simp only [if_pos hleft] at htracks ⊢
      refine h.erase hlive (d := min qty o.shares) (by grind) htracks
        (by simp [ObjectPool.free, ObjectPool.set, ObjectPool.capacity])
        (by simp [ObjectPool.free, ObjectPool.set]) ?_
      exact Levels.decLevel h.levels hle
    · simp only [if_neg hleft] at htracks ⊢
      have hmem : ref ∈ m.keys := Finmap.mem_keys.mpr (Finmap.mem_of_lookup_eq_some hlive)
      refine ⟨htracks, ?_, ?_⟩
      · rw [Finmap.keys_insert, Finset.insert_eq_of_mem hmem]
        simpa [ObjectPool.set, ObjectPool.capacity] using h.balanced
      · rw [LiveOrders.total_insert_sub hlive hd]
        exact Levels.decLevel h.levels hle

theorem replace (h : BookInv b m) {origRef newRef : OrderRef} {newShares : Qty} {newPrice : Price}
    (hfresh : m.Fresh (.replace origRef newRef newShares newPrice)) (hprice : admissible newPrice)
    (hfits : ∀ buy, (LiveOrders.total (m.replace origRef newRef newShares newPrice).1 buy).Fits)
    (hroom : (b.replace origRef newRef newShares newPrice).1.orders.capacity ≤ 2 ^ 32) :
    BookInv (b.replace origRef newRef newShares newPrice).1
      (m.replace origRef newRef newShares newPrice).1 := by
  have hremove := h.remove origRef
  rw [LiveOrders.remove_eq_erase] at hremove
  unfold BasicOrderBook.replace LiveOrders.replace at *
  rcases h.tracks.lookup_cases origRef with ⟨hindex, hlive⟩ | ⟨handle, hindex, hlive⟩
  · simp only [hindex, hlive]
    exact h
  · simp only [hindex, hlive] at hfits hroom ⊢
    exact hremove.add (hfresh (Finmap.mem_of_lookup_eq_some hlive)) hprice hfits hroom

/-- One call with a fresh reference keeps the book in step, as long as the totals it leads to fit
and the pool can address its slots. -/
theorem exec (h : BookInv b m) {op : BookOp} (hfresh : m.Fresh op) (hpriced : op.Priced admissible)
    (hfits : ∀ buy, (LiveOrders.total (m.exec op).1 buy).Fits)
    (hroom : (b.exec op).1.orders.capacity ≤ 2 ^ 32) :
    BookInv (b.exec op).1 (m.exec op).1 := by
  cases op with
  | add ref side price shares => exact h.add hfresh hpriced hfits hroom
  | reduce ref qty => exact h.reduce ref qty
  | remove ref => exact h.remove ref
  | replace origRef newRef newShares newPrice => exact h.replace hfresh hpriced hfits hroom

end BookInv

end HftOrderbook
