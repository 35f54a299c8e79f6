import HftOrderbook.Proof.BookRuns

/-!
# The book against the live orders

Under four conditions on a history of calls (fresh references, real sides, level sums and pool slots
below `2 ^ 32`) the book answers as the live orders say. The code checks none of them, and the first
three are exact: histories that break one reach a book that is inconsistent.
-/

namespace HftOrderbook

variable {ops : List BookOp}

theorem orderBook_refines_liveOrders (ops : List BookOp) (hfresh : FreshRefs ops)
    (hsided : RealSides ops) (hfits : LevelsFit ops) (hslots : SlotsFit ops) :
    (∀ pre, pre <+: ops →
      (BasicOrderBook.run MapLevels pre).AnswersAs (LiveOrders.run pre)) ∧
    (∀ pre op, pre ++ [op] <+: ops →
      ((BasicOrderBook.run MapLevels pre).exec op).2 = ((LiveOrders.run pre).exec op).2) ∧
    ∀ msgs : List Message, msgs.filterMap Message.bookOp? = ops → ∀ pre, pre <+: msgs →
      (pre.foldl BasicOrderBook.apply BasicOrderBook.empty : OrderBook).AnswersAs
        (LiveOrders.run (pre.filterMap Message.bookOp?)) := by
  have hanswers : ∀ pre, pre <+: ops →
      (BasicOrderBook.run MapLevels pre).AnswersAs (LiveOrders.run pre) := by
    intro pre hpre
    obtain ⟨hinv, hreal⟩ := orderBookInv_run hfresh hsided hfits hslots hpre
    exact hinv.answersAs hreal
  refine ⟨hanswers, fun pre op hpre => ?_, ?_⟩
  · have hroom := hslots.capacity_le (S := MapLevels) hpre
    rw [BasicOrderBook.run_concat] at hroom
    exact ((tracks_run hslots pre ((List.prefix_append _ _).trans hpre)).exec hroom).2
  · rintro msgs rfl pre hpre
    rw [foldl_apply_eq_run]
    exact hanswers _ (hpre.filterMap _)

/-- Every kind of call, with a partial reduction and a replace onto its own reference. -/
def sampleOps : List BookOp :=
  [.add 1 Side.buy 100 5, .add 2 Side.sell 103 7, .reduce 1 2, .replace 2 2 4 104, .remove 1]

theorem sampleOps_freshRefs : FreshRefs sampleOps := by
  rw [FreshRefs, Histories.forall_concat_prefix_iff]
  decide

theorem sampleOps_realSides : RealSides sampleOps := by
  unfold RealSides
  decide

theorem sampleOps_levelsFit : LevelsFit sampleOps := levelsFit_of_sumOver_lt (by decide)

theorem sampleOps_slotsFit : SlotsFit sampleOps := slotsFit_of_length (by decide)

theorem orderBook_refines_liveOrders_sampleOps :
    (BasicOrderBook.run MapLevels sampleOps).AnswersAs (LiveOrders.run sampleOps) :=
  (orderBook_refines_liveOrders sampleOps sampleOps_freshRefs sampleOps_realSides
    sampleOps_levelsFit sampleOps_slotsFit).1 sampleOps List.prefix_rfl

/-! ### Re-used references -/

def BasicOrderBook.indexedQty {S : Compare → Type} (b : BasicOrderBook S) (side : Side)
    (price : Price) : Nat :=
  (b.index.entries.map fun kv =>
    let o := b.orders.get kv.2
    if o.side = side ∧ o.price = price then o.shares.toNat else 0).sum

/-- No ghost liquidity: the levels are what the index says, and no pool slot is in use without an
index entry. -/
structure BasicOrderBook.Consistent (b : OrderBook) : Prop where
  qtyAt : ∀ side, side.Real → ∀ price, (b.qtyAt side price).toNat = b.indexedQty side price
  live : b.orders.live = b.orderCount
  invariantOk : b.invariantOk = true

theorem BookInv.consistent {b : OrderBook} {m : LiveOrders} (h : BookInv b m)
    (hreal : m.AllReal) : b.Consistent where
  qtyAt side hside price := by
    rw [(h.answersAs hreal).qtyAt side hside price]
    exact h.tracks.sumOver_eq _
  live := by
    have hbalanced := h.balanced
    rw [h.tracks.orderCount_eq]
    change b.orders.capacity - b.orders.freed.length = _
    omega
  invariantOk := h.invariantOk hreal

theorem BookInv.live_add_ne {b : OrderBook} {m : LiveOrders} (h : BookInv b m) {ref : OrderRef}
    {side : Side} {price : Price} {shares : Qty} (hshares : shares ≠ 0) (hlive : ref ∈ m)
    (hroom : (b.add ref side price shares).orders.capacity ≤ 2 ^ 32) :
    (b.add ref side price shares).orders.live ≠ (b.add ref side price shares).orderCount := by
  have hcapacity := h.capacity_add ref side price hshares
  have hcard : (m.add ref side price shares).keys.card = m.keys.card := by
    rw [LiveOrders.add, if_neg hshares, Finmap.keys_insert,
      Finset.insert_eq_of_mem (Finmap.mem_keys.mpr hlive)]
  rw [(h.tracks.add hroom).orderCount_eq, hcard]
  change (b.add ref side price shares).orders.capacity - _ ≠ _
  omega

theorem BookInv.live_exec_ne {b : OrderBook} {m : LiveOrders} (h : BookInv b m) {op : BookOp}
    (hstale : ¬ m.Fresh op) (hroom : (b.exec op).1.orders.capacity ≤ 2 ^ 32) :
    (b.exec op).1.orders.live ≠ (b.exec op).1.orderCount := by
  cases op with
  | add ref side price shares =>
      obtain ⟨hshares, hlive⟩ : shares ≠ 0 ∧ ref ∈ m := by
        simpa [LiveOrders.Fresh] using hstale
      exact h.live_add_ne hshares hlive hroom
  | reduce ref qty => exact absurd trivial hstale
  | remove ref => exact absurd trivial hstale
  | replace origRef newRef newShares newPrice =>
      obtain ⟨horig, hshares, hlive⟩ :
          origRef ∈ m ∧ newShares ≠ 0 ∧ newRef ∈ m.erase origRef := by
        by_contra hcontra
        exact hstale fun horig hshares hlive => hcontra ⟨horig, hshares, hlive⟩
      have hremove := h.remove origRef
      rw [LiveOrders.remove_eq_erase] at hremove
      unfold BasicOrderBook.exec BasicOrderBook.replace at *
      rcases h.tracks.lookup_cases origRef with ⟨-, hnone⟩ | ⟨handle, hindex, -⟩
      · exact absurd horig (Finmap.lookup_eq_none.mp hnone)
      · simp only [hindex] at hroom ⊢
        exact hremove.live_add_ne hshares hlive hroom

/-- The book stays consistent exactly along the histories that never name a live reference for a
new order. -/
theorem consistent_iff_freshRefs (ops : List BookOp) (hsided : RealSides ops)
    (hfits : LevelsFit ops) (hslots : SlotsFit ops) :
    (∀ pre, pre <+: ops → (BasicOrderBook.run MapLevels pre).Consistent) ↔ FreshRefs ops := by
  constructor
  · intro hconsistent
    suffices hall : ∀ pre, pre <+: ops → FreshRefs pre from hall ops List.prefix_rfl
    refine Histories.forall_prefix (fun pre op hpre => ?_) fun pre op hpre ih => ih.concat ?_
    · simp at hpre
    · -- up to here the book is in step, so a stale call would show in the pool
      have hpre' := (List.prefix_append pre [op]).trans hpre
      obtain ⟨hinv, -⟩ := orderBookInv_run ih (hsided.of_prefix hpre') (hfits.of_prefix hpre')
        (hslots.of_prefix hpre') List.prefix_rfl
      have hroom := hslots.capacity_le (S := MapLevels) hpre
      have hlive := (hconsistent _ hpre).live
      rw [BasicOrderBook.run_concat] at hroom hlive
      exact by_contra fun hstale => hinv.live_exec_ne hstale hroom hlive
  · intro hfresh pre hpre
    obtain ⟨hinv, hreal⟩ := orderBookInv_run hfresh hsided hfits hslots hpre
    exact hinv.consistent hreal

theorem consistent_iff_freshRefs_sampleOps :
    (BasicOrderBook.run MapLevels sampleOps).Consistent :=
  (consistent_iff_freshRefs sampleOps sampleOps_realSides sampleOps_levelsFit
    sampleOps_slotsFit).mpr sampleOps_freshRefs sampleOps List.prefix_rfl

/-- An add that is delivered twice, and the delete of its order. -/
def doubledAdd : List BookOp :=
  [.add 1 Side.buy 100 10, .add 1 Side.buy 100 10, .remove 1]

/-- The delete leaves ten shares at the best bid with no order behind them, and a slot in use that
nothing can free. -/
theorem doubledAdd_not_consistent :
    RealSides doubledAdd ∧ LevelsFit doubledAdd ∧ SlotsFit doubledAdd ∧
      (BasicOrderBook.run MapLevels doubledAdd).orderCount = 0 ∧
      (BasicOrderBook.run MapLevels doubledAdd).orders.live = 1 ∧
      (BasicOrderBook.run MapLevels doubledAdd).bestBid = some (100, 10) ∧
      (BasicOrderBook.run MapLevels doubledAdd).invariantOk = false ∧
      ¬ ∀ pre, pre <+: doubledAdd → (BasicOrderBook.run MapLevels pre).Consistent := by
  refine ⟨?_, levelsFit_of_sumOver_lt (by decide), ?_, by decide, by decide, by decide, by decide,
    fun hconsistent => ?_⟩
  · unfold RealSides
    decide
  · exact slotsFit_of_length (by decide)
  · exact absurd (hconsistent doubledAdd List.prefix_rfl).live (by decide)

/-! ### Wrapping totals -/

def BasicOrderBook.HasLevel {S : Compare → Type} [LevelStore S] (b : BasicOrderBook S)
    (side : Side) (price : Price) : Prop := ∃ n qty, (price, qty) ∈ b.depth side n

/-- Level quantities are the exact sums of the live shares, and levels stand where orders rest. -/
def BasicOrderBook.Exact (b : OrderBook) (m : LiveOrders) : Prop :=
  ∀ side, side.Real → ∀ price, (b.qtyAt side price).toNat = m.qtyAt side price ∧
    (b.HasLevel side price ↔ m.Rests side price)

theorem exists_mem_take_iff {α : Type*} {a : α} {l : List α} : (∃ n, a ∈ l.take n) ↔ a ∈ l :=
  ⟨fun ⟨_, hmem⟩ => List.mem_of_mem_take hmem, fun hmem => ⟨l.length, by rwa [List.take_length]⟩⟩

theorem BookInv.exact {b : OrderBook} {m : LiveOrders} (h : BookInv b m) (hreal : m.AllReal) :
    b.Exact m := by
  have hanswers := h.answersAs hreal
  have hlevel : ∀ {c side ladder}, IsLadder c (m.qtyAt side) ladder →
      (∀ n, b.depth side n = ladder.take n) → side.Real →
      ∀ price, b.HasLevel side price ↔ m.Rests side price := by
    intro c side ladder hladder hdepth hside price
    have hfits : Totals.Fits (m.qtyAt side) := fun p => by
      rw [← hanswers.qtyAt side hside p]
      exact UInt32.toNat_lt _
    rw [← LiveOrders.qtyAt_ne_zero_iff (@h.tracks.shares_ne_zero), ← hladder.mem_map_fst hfits,
      BasicOrderBook.HasLevel, exists_comm]
    simp only [hdepth, exists_mem_take_iff, List.mem_map, Prod.exists, exists_eq_right,
      exists_and_right]
  rintro side hside price
  refine ⟨hanswers.qtyAt side hside price, ?_⟩
  rcases hside with rfl | rfl
  · obtain ⟨ladder, hladder, hdepth⟩ := hanswers.bidDepth
    exact hlevel hladder hdepth (Or.inl rfl) price
  · obtain ⟨ladder, hladder, hdepth⟩ := hanswers.askDepth
    exact hlevel hladder hdepth (Or.inr rfl) price

theorem exact_iff_levelsFit (ops : List BookOp) (hfresh : FreshRefs ops) (hsided : RealSides ops)
    (hslots : SlotsFit ops) :
    (∀ pre, pre <+: ops → (BasicOrderBook.run MapLevels pre).Exact (LiveOrders.run pre)) ↔
      LevelsFit ops := by
  constructor
  · intro hexact pre hpre side price
    by_cases hside : side.Real
    · rw [← (hexact pre hpre side hside price).1]
      exact UInt32.toNat_lt _
    · -- no live order is on a side that is not real
      have hzero : (LiveOrders.run pre).qtyAt side price = 0 := by
        refine Finmap.sumOver_eq_zero_iff.mpr fun ref o hlookup => if_neg fun hat => hside ?_
        exact hat.1 ▸ allReal_run hsided pre hpre ref o hlookup
      rw [hzero]
      norm_num
  · intro hfits pre hpre
    obtain ⟨hinv, hreal⟩ := orderBookInv_run hfresh hsided hfits hslots hpre
    exact hinv.exact hreal

theorem exact_iff_levelsFit_sampleOps :
    (BasicOrderBook.run MapLevels sampleOps).Exact (LiveOrders.run sampleOps) :=
  (exact_iff_levelsFit sampleOps sampleOps_freshRefs sampleOps_realSides sampleOps_slotsFit).mpr
    sampleOps_levelsFit sampleOps List.prefix_rfl

/-- Two orders whose level total wraps to zero, and a third that comes and goes. -/
def wrappingAdds : List BookOp :=
  [.add 1 Side.buy 100 0x80000000, .add 2 Side.buy 100 0x80000000, .add 3 Side.buy 100 5, .remove 3]

/-- The level is erased under two live orders, and the consistency check of the book fails. -/
theorem wrappingAdds_not_exact :
    FreshRefs wrappingAdds ∧ RealSides wrappingAdds ∧ SlotsFit wrappingAdds ∧
      (BasicOrderBook.run MapLevels wrappingAdds).orderCount = 2 ∧
      (BasicOrderBook.run MapLevels wrappingAdds).bestBid = none ∧
      (BasicOrderBook.run MapLevels wrappingAdds).invariantOk = false ∧
      ¬ ∀ pre, pre <+: wrappingAdds →
        (BasicOrderBook.run MapLevels pre).Exact (LiveOrders.run pre) := by
  refine ⟨?_, ?_, ?_, by decide, by decide, by decide, fun hexact => ?_⟩
  · rw [FreshRefs, Histories.forall_concat_prefix_iff]
    decide
  · unfold RealSides
    decide
  · exact slotsFit_of_length (by decide)
  · have hqty := (hexact wrappingAdds List.prefix_rfl Side.buy (Or.inl rfl) 100).1
    exact absurd hqty (by decide)

end HftOrderbook
