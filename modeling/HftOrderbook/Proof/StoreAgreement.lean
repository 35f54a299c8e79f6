import HftOrderbook.Proof.WindowedStore
import HftOrderbook.Proof.BookRuns

/-!
# The three stores agree

Every lawful store represents the running totals of its history, and totals determine every answer.
Books over the three stores therefore cannot be told apart.
-/

namespace HftOrderbook

/-! ### Stores -/

theorem represents_run {S : Compare → Type} [LevelStore S] {admissible : Price → Prop}
    [LawfulLevelStore S admissible] (hwire : ∀ p, WirePrice p → admissible p) (c : Compare)
    {ops : List LevelOp}
    (hallowed : ∀ pre op, pre ++ [op] <+: ops → op.Allowed (LevelOp.totals pre)) :
    ∀ pre, pre <+: ops →
      LawfulLevelStore.Represents (LevelOp.run S c pre) (LevelOp.totals pre) := by
  refine Histories.forall_prefix (LawfulLevelStore.empty c) fun pre op hpre ih => ?_
  have hop := hallowed pre op hpre
  rw [LevelOp.run, LevelOp.totals, List.foldl_append, List.foldl_append]
  cases op with
  | inc p q =>
      obtain ⟨hp, hq, hfit⟩ := hop
      exact LawfulLevelStore.inc ih (hwire p hp) hq hfit
  | dec p q => exact LawfulLevelStore.dec ih hop.2

/-- After a history the map, the flat and the windowed store answer every query alike, the windowed
one without an access outside its array. -/
def StoresAgree (c : Compare) (ops : List LevelOp) : Prop :=
  ∃ w : WindowedLevels c, LevelOp.run CheckedWindow c ops = some w ∧
    (∀ p, (LevelOp.run FlatLevels c ops).atPrice p = (LevelOp.run MapLevels c ops).atPrice p ∧
      w.atPrice p = some ((LevelOp.run MapLevels c ops).atPrice p)) ∧
    ((LevelOp.run FlatLevels c ops).size = (LevelOp.run MapLevels c ops).size ∧
      w.size = (LevelOp.run MapLevels c ops).size) ∧
    ((LevelOp.run FlatLevels c ops).best = (LevelOp.run MapLevels c ops).best ∧
      w.best = some (LevelOp.run MapLevels c ops).best) ∧
    ∀ n, (LevelOp.run FlatLevels c ops).top n = (LevelOp.run MapLevels c ops).top n ∧
      w.top n = some ((LevelOp.run MapLevels c ops).top n)

theorem storesAgree_of_allowed (c : Compare) {ops pre : List LevelOp}
    (hallowed : ∀ pre op, pre ++ [op] <+: ops → op.Allowed (LevelOp.totals pre))
    (hpre : pre <+: ops) : StoresAgree c pre := by
  obtain ⟨l, hmap⟩ := LawfulLevelStore.answers
    (represents_run (S := MapLevels) (fun _ _ => trivial) c hallowed pre hpre)
  obtain ⟨l', hflat⟩ := LawfulLevelStore.answers
    (represents_run (S := FlatLevels) (fun _ _ => trivial) c hallowed pre hpre)
  obtain ⟨w, hw, hwindowed⟩ :=
    represents_run (S := CheckedWindow) (fun _ => id) c hallowed pre hpre
  obtain ⟨hat, hsize, hbest, htop⟩ := hflat.agree hmap
  obtain ⟨l'', hladder, hfits, hat', hsize', hbest', htop'⟩ := hwindowed.answers
  obtain rfl := hladder.unique hmap.ladder
  refine ⟨w, hw, fun p => ⟨hat p, ?_⟩, ⟨hsize, hsize'.trans hmap.size.symm⟩, ⟨hbest, ?_⟩,
    fun n => ⟨htop n, ?_⟩⟩
  · rw [hat' p, ← hmap.atPrice p, UInt32.ofNat_toNat]
    rfl
  · rw [hbest', ← hmap.best]
    rfl
  · rw [htop' n, ← hmap.top n]
    rfl

/-! ### Books -/

structure BooksAgree {S S' : Compare → Type} [LevelStore S] [LevelStore S'] (b : BasicOrderBook S)
    (b' : BasicOrderBook S') : Prop where
  orderCount : b.orderCount = b'.orderCount
  qtyAt : ∀ side price, b.qtyAt side price = b'.qtyAt side price
  bidLevels : b.bidLevels = b'.bidLevels
  askLevels : b.askLevels = b'.askLevels
  bestBid : b.bestBid = b'.bestBid
  bestAsk : b.bestAsk = b'.bestAsk
  depth : ∀ side n, b.depth side n = b'.depth side n
  invariantOk : b.invariantOk = b'.invariantOk

theorem BookInv.agree {S S' : Compare → Type} [LevelStore S] [LevelStore S']
    {admissible admissible' : Price → Prop} [LawfulLevelStore S admissible]
    [LawfulLevelStore S' admissible'] {b : BasicOrderBook S} {b' : BasicOrderBook S'}
    {m : LiveOrders} (h : BookInv b m) (h' : BookInv b' m) (hpool : SamePool b b') :
    BooksAgree b b' := by
  obtain ⟨_, hbids⟩ := LawfulLevelStore.answers h.levels.1
  obtain ⟨_, hbids'⟩ := LawfulLevelStore.answers h'.levels.1
  obtain ⟨_, hasks⟩ := LawfulLevelStore.answers h.levels.2
  obtain ⟨_, hasks'⟩ := LawfulLevelStore.answers h'.levels.2
  obtain ⟨hbidAt, hbidSize, hbidBest, hbidTop⟩ := hbids.agree hbids'
  obtain ⟨haskAt, haskSize, haskBest, haskTop⟩ := hasks.agree hasks'
  refine ⟨congrArg (fun index : Index => index.entries.length) hpool.index, fun side price => ?_,
    hbidSize, haskSize, hbidBest, haskBest, fun side n => ?_, ?_⟩
  · unfold BasicOrderBook.qtyAt
    rw [hbidAt, haskAt]
  · unfold BasicOrderBook.depth
    rw [hbidTop, haskTop]
  · have hstep : b.rebuildStep = b'.rebuildStep := by
      funext rebuilt kv
      simp only [BasicOrderBook.rebuildStep, hpool.orders]
    simp only [BasicOrderBook.invariantOk, hpool.index, hstep, hbidSize, haskSize, hbidAt, haskAt]

/-- The store has not left its array, and no query makes it. -/
def InBounds {c : Compare} (s : CheckedWindow c) : Prop :=
  ∃ w, s = some w ∧ (∀ p, (w.atPrice p).isSome) ∧ w.best.isSome ∧ ∀ n, (w.top n).isSome

theorem inBounds_of_represents {c : Compare} {s : CheckedWindow c} {t : Totals}
    (h : LawfulLevelStore.Represents s t) : InBounds s := by
  obtain ⟨w, rfl, hw⟩ := h
  obtain ⟨l, -, -, hat, -, hbest, htop⟩ := hw.answers
  exact ⟨w, rfl, fun p => by rw [hat]; rfl, by rw [hbest]; rfl, fun n => by rw [htop]; rfl⟩

theorem booksAgree_of_messages {msgs pre : List Message}
    (hfresh : FreshRefs (msgs.filterMap Message.bookOp?))
    (hsided : RealSides (msgs.filterMap Message.bookOp?))
    (hfits : LevelsFit (msgs.filterMap Message.bookOp?))
    (hslots : SlotsFit (msgs.filterMap Message.bookOp?)) (hwire : ∀ msg ∈ msgs, WirePrice msg.price)
    (hpre : pre <+: msgs) :
    let book : OrderBook := pre.foldl BasicOrderBook.apply BasicOrderBook.empty
    let flat : FlatOrderBook := pre.foldl BasicOrderBook.apply BasicOrderBook.empty
    let windowed : WindowedOrderBook := pre.foldl BasicOrderBook.apply BasicOrderBook.empty
    BooksAgree flat book ∧ BooksAgree windowed book ∧ InBounds windowed.bids ∧
      InBounds windowed.asks := by
  have hops := hpre.filterMap Message.bookOp?
  have hpriced : ∀ op ∈ msgs.filterMap Message.bookOp?, op.Priced WirePrice := by
    intro op hop
    obtain ⟨msg, hmem, hsome⟩ := List.mem_filterMap.mp hop
    have hprice := hwire msg hmem
    unfold Message.bookOp? at hsome
    split at hsome <;> cases hsome <;> first | exact hprice | trivial
  have hbook := bookInv_run (S := MapLevels) hfresh (hfits.total_fits hsided) hslots
    (fun op _ => op.priced_true) _ hops
  have hflat := bookInv_run (S := FlatLevels) hfresh (hfits.total_fits hsided) hslots
    (fun op _ => op.priced_true) _ hops
  have hwindowed := bookInv_run (S := CheckedWindow) hfresh (hfits.total_fits hsided) hslots
    hpriced _ hops
  simp only [foldl_apply_eq_run]
  exact ⟨hflat.agree hbook (SamePool.run _), hwindowed.agree hbook (SamePool.run _),
    inBounds_of_represents hwindowed.levels.1, inBounds_of_represents hwindowed.levels.2⟩

theorem map_flat_windowed_agree :
    (∀ (c : Compare) (ops : List LevelOp),
      (∀ pre op, pre ++ [op] <+: ops → op.Allowed (LevelOp.totals pre)) →
      ∀ pre, pre <+: ops → StoresAgree c pre) ∧
    ∀ msgs : List Message,
      FreshRefs (msgs.filterMap Message.bookOp?) → RealSides (msgs.filterMap Message.bookOp?) →
      LevelsFit (msgs.filterMap Message.bookOp?) → SlotsFit (msgs.filterMap Message.bookOp?) →
      (∀ msg ∈ msgs, WirePrice msg.price) → ∀ pre, pre <+: msgs →
      let book : OrderBook := pre.foldl BasicOrderBook.apply BasicOrderBook.empty
      let flat : FlatOrderBook := pre.foldl BasicOrderBook.apply BasicOrderBook.empty
      let windowed : WindowedOrderBook := pre.foldl BasicOrderBook.apply BasicOrderBook.empty
      BooksAgree flat book ∧ BooksAgree windowed book ∧ InBounds windowed.bids ∧
        InBounds windowed.asks :=
  ⟨fun c _ hallowed _ hpre => storesAgree_of_allowed c hallowed hpre,
    fun _ hfresh hsided hfits hslots hwire _ hpre =>
      booksAgree_of_messages hfresh hsided hfits hslots hwire hpre⟩

/-- Calls whose prices lie several windows apart: the windowed store spills and re-centres. -/
def farApartOps : List LevelOp :=
  [.inc 100 5, .inc 10000000 2, .inc 400000 7, .dec 10000000 2, .dec 100 3]

def sampleMessages : List Message :=
  [{ type := .addOrder, orderRef := 1, side := Side.buy, price := 100, shares := 5 },
    { type := .addOrderMpid, orderRef := 2, side := Side.sell, price := 10000000, shares := 7 },
    { type := .orderExecuted, orderRef := 1, shares := 2 },
    { type := .orderReplace, orderRef := 2, newOrderRef := 3, price := 200, shares := 4 },
    { type := .orderDelete, orderRef := 1 }]

theorem map_flat_windowed_agree_samples :
    StoresAgree .less farApartOps ∧
      BooksAgree
        (sampleMessages.foldl BasicOrderBook.apply BasicOrderBook.empty : WindowedOrderBook)
        (sampleMessages.foldl BasicOrderBook.apply BasicOrderBook.empty : OrderBook) := by
  refine ⟨map_flat_windowed_agree.1 .less farApartOps ?_ farApartOps List.prefix_rfl,
    (map_flat_windowed_agree.2 sampleMessages ?_ ?_ ?_ ?_ ?_ sampleMessages List.prefix_rfl).2.1⟩
  · rw [Histories.forall_concat_prefix_iff]
    decide
  · rw [FreshRefs, Histories.forall_concat_prefix_iff]
    decide
  · unfold RealSides
    decide
  · exact levelsFit_of_sumOver_lt (by decide)
  · exact slotsFit_of_length (by decide)
  · unfold WirePrice
    decide

end HftOrderbook
