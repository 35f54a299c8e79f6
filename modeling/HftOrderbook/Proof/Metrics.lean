import HftOrderbook.Book.Metrics
import HftOrderbook.Library.WeightedMean
import HftOrderbook.Proof.BookLadders
import Mathlib.Data.UInt

/-!
# Signals stay in range

Every division of `compute_metrics` stands behind a test of its denominator. In a book without empty
levels the tests succeed wherever there is something to weigh, and what is divided is a mean of
prices or the relative difference of two sizes.
-/

namespace HftOrderbook

open WeightedMean

/-! ### What is computed -/

def dollars (ticks : Price) : ℚ := ticks / kPriceScale

/-- The prices and sizes of some levels, as values and weights. -/
def weighed (levels : List (Price × Qty)) : List (ℚ × ℚ) :=
  levels.map fun lv => (dollars lv.1, (lv.2.toNat : ℚ))

def depthOf (levels : List (Price × Qty)) : Nat := (levels.map fun lv => lv.2.toNat).sum

theorem toDollars_eq (ticks : Price) : toDollars ticks = some (dollars ticks) := by
  unfold toDollars checkedDiv
  exact if_neg (by norm_num [kPriceScale])

theorem guardedDiv_eq (num den fallback : ℚ) :
    guardedDiv num den fallback = some (if 0 < den then num / den else fallback) := by
  unfold guardedDiv checkedDiv
  split_ifs with hpos hzero
  · exact absurd hzero hpos.ne'
  · rfl
  · rfl

theorem foldlM_addLevel (levels : List (Price × Qty)) (acc : DepthSums) :
    levels.foldlM DepthSums.addLevel acc = some
      { num := acc.num + weightedSum (weighed levels)
        den := acc.den + weight (weighed levels)
        sum := acc.sum + UInt64.ofNat (depthOf levels) } := by
  induction levels generalizing acc with
  | nil => simp [weighed, weightedSum, weight, depthOf]
  | cons lv levels ih =>
      rw [List.foldlM_cons, DepthSums.addLevel, toDollars_eq]
      simp only [Option.bind_eq_bind, Option.bind_some, ih, Option.some.injEq]
      simp only [weighed, weightedSum, weight, depthOf, List.map_cons, List.sum_cons,
        UInt64.ofNat_add, UInt64.ofNat_uInt32ToNat, add_assoc]

theorem weightedSum_append (levels levels' : List (Price × Qty)) :
    weightedSum (weighed (levels ++ levels')) =
      weightedSum (weighed levels) + weightedSum (weighed levels') := by
  simp [weightedSum, weighed]

theorem weight_append (levels levels' : List (Price × Qty)) :
    weight (weighed (levels ++ levels')) = weight (weighed levels) + weight (weighed levels') := by
  simp [weight, weighed]

/-- The metrics of a book with both sides, with every division carried out. -/
structure BookMetrics.Weighs (m : BookMetrics) (bid ask : Price × Qty)
    (bids asks : List (Price × Qty)) : Prop where
  bidPx : m.bidPx = bid.1
  askPx : m.askPx = ask.1
  spreadTicks : m.spreadTicks = ask.1 - bid.1
  mid : m.mid = 1 / 2 * (dollars bid.1 + dollars ask.1)
  microprice : m.microprice =
    if (0 : ℚ) < bid.2.toNat + ask.2.toNat then
      (dollars bid.1 * ask.2.toNat + dollars ask.1 * bid.2.toNat) / (bid.2.toNat + ask.2.toNat)
    else m.mid
  imbalanceTop : m.imbalanceTop =
    if (0 : ℚ) < bid.2.toNat + ask.2.toNat then
      ((bid.2.toNat : ℚ) - ask.2.toNat) / (bid.2.toNat + ask.2.toNat)
    else 0
  weightedMid : m.weightedMid =
    if 0 < weight (weighed (bids ++ asks)) then
      weightedSum (weighed (bids ++ asks)) / weight (weighed (bids ++ asks))
    else m.mid
  bidDepthN : m.bidDepthN = UInt64.ofNat (depthOf bids)
  askDepthN : m.askDepthN = UInt64.ofNat (depthOf asks)
  imbalanceN : m.imbalanceN =
    if (0 : ℚ) < m.bidDepthN.toNat + m.askDepthN.toNat then
      ((m.bidDepthN.toNat : ℚ) - m.askDepthN.toNat) / (m.bidDepthN.toNat + m.askDepthN.toNat)
    else 0

theorem twoSidedMetrics_weighs {S : Compare → Type} [LevelStore S] (book : BasicOrderBook S)
    (nLevels : Nat) (bid ask : Price × Qty) :
    ∃ m, twoSidedMetrics book nLevels bid ask = some m ∧
      m.Weighs bid ask (LevelStore.top book.bids nLevels) (LevelStore.top book.asks nLevels) := by
  unfold twoSidedMetrics
  simp only [toDollars_eq, guardedDiv_eq, foldlM_addLevel, Option.bind_eq_bind, Option.bind_some,
    zero_add, ← weightedSum_append, ← weight_append]
  exact ⟨_, rfl, rfl, rfl, rfl, rfl, rfl, rfl, rfl, rfl, rfl, rfl⟩

/-! ### What it means -/

namespace BookMetrics.Weighs

variable {m : BookMetrics} {bid ask : Price × Qty} {bids asks : List (Price × Qty)}

theorem dollars_lt_iff {a b : Price} : dollars a < dollars b ↔ a < b := by
  unfold dollars
  rw [div_lt_div_iff_of_pos_right (by norm_num [kPriceScale])]
  exact Int.cast_lt

theorem dollars_mono {a b : Price} (h : a ≤ b) : dollars a ≤ dollars b :=
  not_lt.mp fun hlt => not_lt.mpr h (dollars_lt_iff.mp hlt)

theorem size_pos {q : Qty} (hq : q ≠ 0) : (0 : ℚ) < q.toNat := by
  exact_mod_cast Nat.pos_of_ne_zero fun hzero => hq (UInt32.toNat_inj.mp hzero)

theorem imbalanceTop_mem (h : m.Weighs bid ask bids asks) : m.imbalanceTop ∈ Set.Icc (-1) 1 := by
  rw [h.imbalanceTop]
  split_ifs with hpos
  · exact sub_div_add_mem_Icc (Nat.cast_nonneg _) (Nat.cast_nonneg _) hpos
  · norm_num

theorem imbalanceN_mem (h : m.Weighs bid ask bids asks) : m.imbalanceN ∈ Set.Icc (-1) 1 := by
  rw [h.imbalanceN]
  split_ifs with hpos
  · exact sub_div_add_mem_Icc (Nat.cast_nonneg _) (Nat.cast_nonneg _) hpos
  · norm_num

/-- Each side's price is weighed by the other side's size. -/
theorem microprice_mem_Ioo (h : m.Weighs bid ask bids asks) (hbid : bid.2 ≠ 0) (hask : ask.2 ≠ 0)
    (hne : bid.1 ≠ ask.1) :
    m.microprice ∈ Set.Ioo (min (dollars bid.1) (dollars ask.1))
      (max (dollars bid.1) (dollars ask.1)) := by
  have hbidPos := size_pos hbid
  have haskPos := size_pos hask
  rw [h.microprice, if_pos (add_pos hbidPos haskPos)]
  rcases lt_or_gt_of_ne hne with hlt | hgt
  · have hprices := dollars_lt_iff.mpr hlt
    rw [min_eq_left hprices.le, max_eq_right hprices.le, add_comm (bid.2.toNat : ℚ)]
    exact mean_two_mem_Ioo haskPos hbidPos hprices
  · have hprices := dollars_lt_iff.mpr hgt
    rw [min_eq_right hprices.le, max_eq_left hprices.le, add_comm (dollars bid.1 * _)]
    exact mean_two_mem_Ioo hbidPos haskPos hprices

theorem microprice_of_eq (h : m.Weighs bid ask bids asks) (hbid : bid.2 ≠ 0) (heq : bid.1 = ask.1) :
    m.microprice = dollars bid.1 := by
  have hpos : (0 : ℚ) < bid.2.toNat + ask.2.toNat :=
    add_pos_of_pos_of_nonneg (size_pos hbid) (Nat.cast_nonneg _)
  rw [h.microprice, if_pos hpos, heq, ← mul_add, add_comm (ask.2.toNat : ℚ),
    mul_div_cancel_right₀ _ hpos.ne']

theorem weightedMid_mem (h : m.Weighs bid ask bids asks) (hused : bids ++ asks ≠ [])
    (hfilled : ∀ lv ∈ bids ++ asks, lv.2 ≠ 0) {lo hi : Price}
    (hprices : ∀ lv ∈ bids ++ asks, lo ≤ lv.1 ∧ lv.1 ≤ hi) :
    m.weightedMid ∈ Set.Icc (dollars lo) (dollars hi) := by
  have hweights : ∀ x ∈ weighed (bids ++ asks),
      0 < x.2 ∧ x.1 ∈ Set.Icc (dollars lo) (dollars hi) := by
    intro x hx
    obtain ⟨lv, hlv, rfl⟩ := List.mem_map.mp hx
    obtain ⟨hlo, hhi⟩ := hprices lv hlv
    exact ⟨size_pos (hfilled lv hlv), dollars_mono hlo, dollars_mono hhi⟩
  have hpos : 0 < weight (weighed (bids ++ asks)) := by
    refine List.sum_pos _ (fun w hw => ?_) (by simpa [weighed] using hused)
    obtain ⟨x, hx, rfl⟩ := List.mem_map.mp hw
    exact (hweights x hx).1
  rw [h.weightedMid, if_pos hpos]
  exact mean_mem_Icc (fun x hx => (hweights x hx).2) (fun x hx => (hweights x hx).1.le) hpos

end BookMetrics.Weighs

/-! ### Depth sums -/

theorem length_le_of_wirePrices {levels : List (Price × Qty)} (hnodup : (levels.map Prod.fst).Nodup)
    (hprices : ∀ lv ∈ levels, WirePrice lv.1) : levels.length ≤ 2 ^ 32 := by
  have hsubset : (levels.map Prod.fst).toFinset ⊆ Finset.Ico 0 (2 ^ 32) := by
    intro p hp
    obtain ⟨lv, hlv, rfl⟩ := List.mem_map.mp (List.mem_toFinset.mp hp)
    exact Finset.mem_Ico.mpr (hprices lv hlv)
  have hcard := Finset.card_le_card hsubset
  rw [List.toFinset_card_of_nodup hnodup, List.length_map, Int.card_Ico] at hcard
  exact hcard

/-- At most `2 ^ 32` levels of less than `2 ^ 32` shares each. -/
theorem depthOf_lt {levels : List (Price × Qty)} (hnodup : (levels.map Prod.fst).Nodup)
    (hprices : ∀ lv ∈ levels, WirePrice lv.1) : depthOf levels < 2 ^ 64 := by
  have hlength := length_le_of_wirePrices hnodup hprices
  have hsum : depthOf levels ≤ levels.length * (2 ^ 32 - 1) := by
    have hle := List.sum_le_card_nsmul (levels.map fun lv => lv.2.toNat) (2 ^ 32 - 1) fun q hq => by
      obtain ⟨lv, -, rfl⟩ := List.mem_map.mp hq
      exact Nat.le_sub_one_of_lt lv.2.toNat_lt
    rwa [List.length_map, smul_eq_mul] at hle
  calc depthOf levels ≤ levels.length * (2 ^ 32 - 1) := hsum
    _ ≤ 2 ^ 32 * (2 ^ 32 - 1) := Nat.mul_le_mul_right _ hlength
    _ < 2 ^ 64 := by norm_num

theorem LevelMap.Filled.depthOf_take_lt {c : Compare} {m : LevelMap c} (h : m.Filled WirePrice)
    (n : Nat) : depthOf (m.entries.take n) < 2 ^ 64 := by
  have hnodup := OrderedMap.nodup_keys_of_sorted m.sorted
  refine depthOf_lt (hnodup.sublist ((List.take_sublist n _).map _)) fun lv hlv => ?_
  exact (h lv (List.mem_of_mem_take hlv)).2

/-! ### A book that has both sides -/

/-- The prices of the levels that the depth loops go through. -/
def usedPrices (b : OrderBook) (nLevels : Nat) : Set Price :=
  {px | px ∈ (b.depth Side.buy nLevels ++ b.depth Side.sell nLevels).map Prod.fst}

structure BookMetrics.InRange (m : BookMetrics) (b : OrderBook) (nLevels : Nat)
    (bid ask : Price × Qty) : Prop where
  imbalanceTop : m.imbalanceTop ∈ Set.Icc (-1) 1
  imbalanceN : m.imbalanceN ∈ Set.Icc (-1) 1
  microprice : m.microprice ∈
    Set.Icc (min (dollars bid.1) (dollars ask.1)) (max (dollars bid.1) (dollars ask.1))
  microprice_strict : bid.1 ≠ ask.1 → m.microprice ∈
    Set.Ioo (min (dollars bid.1) (dollars ask.1)) (max (dollars bid.1) (dollars ask.1))
  weightedMid_zero : nLevels = 0 → m.weightedMid = m.mid
  weightedMid : nLevels ≠ 0 → ∃ lo hi, IsLeast (usedPrices b nLevels) lo ∧
    IsGreatest (usedPrices b nLevels) hi ∧ m.weightedMid ∈ Set.Icc (dollars lo) (dollars hi)
  bidPx : m.bidPx = bid.1
  askPx : m.askPx = ask.1
  spreadTicks : m.spreadTicks = m.askPx - m.bidPx
  bidDepthN : m.bidDepthN.toNat = ((b.depth Side.buy nLevels).map fun lv => lv.2.toNat).sum
  askDepthN : m.askDepthN.toNat = ((b.depth Side.sell nLevels).map fun lv => lv.2.toNat).sum

theorem exists_bounds {prices : List Price} (hne : prices ≠ []) :
    ∃ lo hi, IsLeast {px | px ∈ prices} lo ∧ IsGreatest {px | px ∈ prices} hi := by
  have hfinset : prices.toFinset.Nonempty := by
    obtain ⟨px, hpx⟩ := List.exists_mem_of_ne_nil prices hne
    exact ⟨px, List.mem_toFinset.mpr hpx⟩
  rw [← List.coe_toFinset]
  exact ⟨_, _, Finset.isLeast_min' _ hfinset, Finset.isGreatest_max' _ hfinset⟩

theorem BookMetrics.Weighs.inRange {m : BookMetrics} {b : OrderBook} {nLevels : Nat}
    {bid ask : Price × Qty}
    (h : m.Weighs bid ask (b.depth Side.buy nLevels) (b.depth Side.sell nLevels))
    (hfilled : b.Filled WirePrice) (hbid : b.bestBid = some bid) (hask : b.bestAsk = some ask) :
    m.InRange b nLevels bid ask := by
  have hbids : b.depth Side.buy nLevels = b.bids.m.entries.take nLevels := if_pos rfl
  have hasks : b.depth Side.sell nLevels = b.asks.m.entries.take nLevels := if_neg (by decide)
  have hbidMem : bid ∈ b.bids.m.entries := List.mem_of_mem_head? hbid
  have hbidQty : bid.2 ≠ 0 := (hfilled.1 bid hbidMem).1
  have haskQty : ask.2 ≠ 0 := (hfilled.2 ask (List.mem_of_mem_head? hask)).1
  have hstrict := h.microprice_mem_Ioo hbidQty haskQty
  exact
    { imbalanceTop := h.imbalanceTop_mem
      imbalanceN := h.imbalanceN_mem
      microprice := by
        by_cases heq : bid.1 = ask.1
        · rw [h.microprice_of_eq hbidQty heq]
          exact ⟨min_le_left _ _, le_max_left _ _⟩
        · exact Set.Ioo_subset_Icc_self (hstrict heq)
      microprice_strict := hstrict
      weightedMid_zero := by
        rintro rfl
        rw [h.weightedMid, hbids, hasks]
        exact if_neg (by simp [weighed, weight])
      weightedMid := by
        intro hpos
        have hused : b.depth Side.buy nLevels ++ b.depth Side.sell nLevels ≠ [] := by
          intro hnil
          have htake := (List.append_eq_nil_iff.mp hnil).1
          rw [hbids] at htake
          rcases List.take_eq_nil_iff.mp htake with hzero | hempty
          · exact hpos hzero
          · exact List.ne_nil_of_mem hbidMem hempty
        obtain ⟨lo, hi, hlo, hhi⟩ :=
          exists_bounds (fun hnil => hused (List.map_eq_nil_iff.mp hnil))
        refine ⟨lo, hi, hlo, hhi, h.weightedMid_mem hused (fun lv hlv => ?_) fun lv hlv => ?_⟩
        · rw [hbids, hasks] at hlv
          rcases List.mem_append.mp hlv with hlv | hlv
          · exact (hfilled.1 lv (List.mem_of_mem_take hlv)).1
          · exact (hfilled.2 lv (List.mem_of_mem_take hlv)).1
        · exact ⟨hlo.2 (List.mem_map_of_mem hlv), hhi.2 (List.mem_map_of_mem hlv)⟩
      bidPx := h.bidPx
      askPx := h.askPx
      spreadTicks := by rw [h.spreadTicks, h.bidPx, h.askPx]
      bidDepthN := by
        rw [h.bidDepthN, hbids]
        exact UInt64.toNat_ofNat_of_lt' (hfilled.1.depthOf_take_lt nLevels)
      askDepthN := by
        rw [h.askDepthN, hasks]
        exact UInt64.toNat_ofNat_of_lt' (hfilled.2.depthOf_take_lt nLevels) }

/-- For every book that calls with prices from the wire have led to without wrapping a level,
crossed or not, and every number of levels. -/
theorem metrics_in_range {ops : List BookOp} (hsums : LevelSumsFit ops)
    (hpriced : ∀ op ∈ ops, op.Priced WirePrice) {bid ask : Price × Qty}
    (hbid : (BasicOrderBook.run MapLevels ops).bestBid = some bid)
    (hask : (BasicOrderBook.run MapLevels ops).bestAsk = some ask) (nLevels : Nat) :
    ∃ m, computeMetrics (BasicOrderBook.run MapLevels ops) nLevels = some m ∧
      m.InRange (BasicOrderBook.run MapLevels ops) nLevels bid ask := by
  obtain ⟨m, hm, hweighs⟩ :=
    twoSidedMetrics_weighs (BasicOrderBook.run MapLevels ops) nLevels bid ask
  refine ⟨m, ?_, hweighs.inRange (filled_run hsums hpriced) hbid hask⟩
  rw [computeMetrics, hbid, hask]
  exact hm

def twoSidedOps : List BookOp :=
  [.add 1 Side.buy 1000000 100, .add 2 Side.buy 999900 200, .add 3 Side.sell 1000100 50,
    .add 4 Side.sell 1000200 150]

theorem twoSidedOps_levelSumsFit : LevelSumsFit twoSidedOps := by
  refine levelSumsFit_of_levelsFit ?_ ?_ (levelsFit_of_sumOver_lt (by decide)) ?_
  · rw [FreshRefs, Histories.forall_concat_prefix_iff]
    decide
  · unfold RealSides
    decide
  · exact slotsFit_of_length (by decide)

theorem metrics_in_range_twoSidedOps :
    (BasicOrderBook.run MapLevels twoSidedOps).bestBid = some (1000000, 100) ∧
      (BasicOrderBook.run MapLevels twoSidedOps).bestAsk = some (1000100, 50) ∧
      ∃ m, computeMetrics (BasicOrderBook.run MapLevels twoSidedOps) 5 = some m ∧
        m.InRange (BasicOrderBook.run MapLevels twoSidedOps) 5 (1000000, 100) (1000100, 50) := by
  have hbid : (BasicOrderBook.run MapLevels twoSidedOps).bestBid = some (1000000, 100) := by decide
  have hask : (BasicOrderBook.run MapLevels twoSidedOps).bestAsk = some (1000100, 50) := by decide
  have hpriced : ∀ op ∈ twoSidedOps, op.Priced WirePrice := by
    simp [twoSidedOps, BookOp.Priced, WirePrice]
  exact ⟨hbid, hask, metrics_in_range twoSidedOps_levelSumsFit hpriced hbid hask 5⟩

end HftOrderbook
