import HftOrderbook.Proof.BookLevels

/-!
# What an in-step book answers

Every query of the book, read off the live orders. The consistency check of the source rebuilds the
totals from the index and compares; on an in-step book whose sides are all real it succeeds.
-/

namespace HftOrderbook

namespace LiveOrders

variable {m : LiveOrders}

theorem qtyAt_buy (m : LiveOrders) : m.qtyAt Side.buy = m.total true := by
  funext p
  unfold qtyAt total sharesAt
  simp only [decide_eq_true_eq]

theorem sumOver_congr_of_lookup {f g : Order → Nat}
    (h : ∀ ref o, m.lookup ref = some o → f o = g o) : m.sumOver f = m.sumOver g := by
  refine Finset.sum_congr rfl fun ref _ => ?_
  cases hlookup : m.lookup ref with
  | none => rfl
  | some o => exact h ref o hlookup

/-- The book files every order that is no buy with the asks; if all sides are real, these are the
sells. -/
theorem qtyAt_sell (hreal : m.AllReal) : m.qtyAt Side.sell = m.total false := by
  funext p
  refine sumOver_congr_of_lookup fun ref o hlookup => ?_
  rcases hreal ref o hlookup with hside | hside <;> simp [sharesAt, hside, Side.buy, Side.sell]

theorem qtyAt_ne_zero_iff (hshares : ∀ {ref o}, m.lookup ref = some o → o.shares ≠ 0)
    {side : Side} {p : Price} : m.qtyAt side p ≠ 0 ↔ m.Rests side p := by
  rw [qtyAt, Ne, Finmap.sumOver_eq_zero_iff]
  constructor
  · intro hne
    push Not at hne
    obtain ⟨ref, o, hlookup, hne⟩ := hne
    split_ifs at hne with hat
    · exact ⟨ref, o, hlookup, hat⟩
    · exact absurd rfl hne
  · rintro ⟨ref, o, hlookup, hat⟩ hzero
    have hshare := hzero ref o hlookup
    rw [if_pos hat] at hshare
    exact hshares hlookup (UInt32.toNat_inj.mp hshare)

/-! ### Real sides are inherited -/

theorem AllReal.insert (hreal : m.AllReal) {ref : OrderRef} {o : Order} (ho : o.side.Real) :
    AllReal (m.insert ref o) := by
  intro ref' o' hlookup
  rcases Finmap.of_lookup_insert hlookup with ⟨-, rfl⟩ | ⟨-, hlookup⟩
  · exact ho
  · exact hreal ref' o' hlookup

theorem AllReal.erase (hreal : m.AllReal) (ref : OrderRef) : AllReal (m.erase ref) := by
  intro ref' o' hlookup
  exact hreal ref' o' (Finmap.of_lookup_erase hlookup).2

theorem AllReal.add (hreal : m.AllReal) {ref : OrderRef} {side : Side} {price : Price}
    {shares : Qty} (hside : shares ≠ 0 → side.Real) : AllReal (m.add ref side price shares) := by
  rcases m.add_cases ref side price shares with heq | ⟨hshares, heq⟩
  · rwa [heq]
  · rw [heq]
    exact hreal.insert (hside hshares)

theorem AllReal.exec (hreal : m.AllReal) {op : BookOp} (hsided : op.Sided) :
    AllReal (m.exec op).1 := by
  cases op with
  | add ref side price shares => exact hreal.add hsided
  | reduce ref qty =>
      change AllReal (m.reduce ref qty).1
      rcases m.reduce_cases ref qty with heq | heq | ⟨o, hlookup, heq⟩
      · rwa [heq]
      · rw [heq]
        exact hreal.erase ref
      · rw [heq]
        exact hreal.insert (hreal ref o hlookup)
  | remove ref =>
      change AllReal (m.remove ref).1
      rw [remove_eq_erase]
      exact hreal.erase ref
  | replace origRef newRef newShares newPrice =>
      change AllReal (m.replace origRef newRef newShares newPrice).1
      rcases m.replace_cases origRef newRef newShares newPrice with heq | ⟨o, hlookup, heq⟩
      · rwa [heq]
      · rw [heq]
        exact (hreal.erase origRef).add fun _ => hreal origRef o hlookup

end LiveOrders

/-! ### The consistency check -/

variable {S : Compare → Type}

theorem Tracks.sumOver_eq {b : BasicOrderBook S} {m : LiveOrders} (h : Tracks b m)
    (f : Order → Nat) :
    m.sumOver f = (b.index.entries.map fun kv => f (b.orders.get kv.2)).sum := by
  rw [Finmap.sumOver, h.keys_eq, List.sum_toFinset _ b.index.keys_nodup]
  change ((b.index.entries.map Sigma.fst).map _).sum = _
  rw [List.map_map]
  refine congrArg List.sum (List.map_congr_left fun kv hkv => ?_)
  have hindex : b.index.lookup kv.1 = some kv.2 := AList.mem_lookup_iff.mpr hkv
  rcases h.lookup_cases kv.1 with ⟨hnone, -⟩ | ⟨handle, hsome, hlive⟩
  · rw [hnone] at hindex
    cases hindex
  · rw [hsome, Option.some.injEq] at hindex
    rw [Function.comp_apply, hlive, hindex]
    rfl

theorem rebuildStep_represents (b : BasicOrderBook S) {kv : (_ : OrderRef) × Handle} {o : Order}
    (ho : b.orders.get kv.2 = o) (hshares : o.shares ≠ 0) (hside : o.side.Real) {t : SideTotals}
    {rebuilt : LevelMap .greater × LevelMap .less} (hbids : rebuilt.1.Represents (t true))
    (hasks : rebuilt.2.Represents (t false))
    (hfits : t (decide (o.side = Side.buy)) o.price + o.shares.toNat < 2 ^ 32) :
    ∃ next, b.rebuildStep rebuilt kv = some next ∧
      next.1.Represents (t.inc o.side o.price o.shares.toNat true) ∧
      next.2.Represents (t.inc o.side o.price o.shares.toNat false) := by
  unfold BasicOrderBook.rebuildStep SideTotals.inc
  simp only [ho, if_neg hshares]
  rcases hside with hside | hside
  · simp only [hside, decide_true] at hfits
    refine ⟨_, if_pos hside, ?_, ?_⟩
    · simpa [hside] using hbids.addAt hshares hfits
    · simpa [hside] using hasks
  · have hne : o.side ≠ Side.buy := by simp [hside, Side.buy, Side.sell]
    simp only [hne, decide_false] at hfits
    refine ⟨_, (if_neg hne).trans (if_pos hside), ?_, ?_⟩
    · simpa [hne] using hbids
    · simpa [hne] using hasks.addAt hshares hfits

/-- The rebuilding loop adds the shares of the entries it has passed to what it started from. -/
theorem foldlM_rebuildStep (b : BasicOrderBook S) (entries : List ((_ : OrderRef) × Handle)) :
    ∀ (t : SideTotals) (rebuilt : LevelMap .greater × LevelMap .less),
      rebuilt.1.Represents (t true) → rebuilt.2.Represents (t false) →
      (∀ kv ∈ entries, (b.orders.get kv.2).shares ≠ 0 ∧ (b.orders.get kv.2).side.Real) →
      (∀ buy p, t buy p +
        (entries.map fun kv => LiveOrders.sharesAt buy p (b.orders.get kv.2)).sum < 2 ^ 32) →
      ∃ rebuilt', entries.foldlM b.rebuildStep rebuilt = some rebuilt' ∧
        rebuilt'.1.Represents (fun p => t true p +
          (entries.map fun kv => LiveOrders.sharesAt true p (b.orders.get kv.2)).sum) ∧
        rebuilt'.2.Represents (fun p => t false p +
          (entries.map fun kv => LiveOrders.sharesAt false p (b.orders.get kv.2)).sum) := by
  induction entries with
  | nil =>
      intro t rebuilt hbids hasks _ _
      exact ⟨rebuilt, rfl, by simpa using hbids, by simpa using hasks⟩
  | cons kv entries ih =>
      intro t rebuilt hbids hasks hgood hfits
      obtain ⟨hshares, hside⟩ := hgood kv List.mem_cons_self
      set o := b.orders.get kv.2 with ho
      simp only [List.map_cons, List.sum_cons, ← ho] at hfits ⊢
      have hfit := hfits (decide (o.side = Side.buy)) o.price
      rw [LiveOrders.sharesAt, if_pos ⟨rfl, rfl⟩] at hfit
      obtain ⟨next, hnext, hbids', hasks'⟩ :=
        rebuildStep_represents b ho.symm hshares hside hbids hasks (by omega)
      have hsum : ∀ buy p, t.inc o.side o.price o.shares.toNat buy p +
          (entries.map fun kv => LiveOrders.sharesAt buy p (b.orders.get kv.2)).sum =
          t buy p + (LiveOrders.sharesAt buy p o +
          (entries.map fun kv => LiveOrders.sharesAt buy p (b.orders.get kv.2)).sum) := by
        intro buy p
        rw [SideTotals.inc_order, Nat.add_assoc]
      obtain ⟨rebuilt', hfold, hrebuilt⟩ := ih _ next hbids' hasks'
        (fun kv' hkv' => hgood kv' (List.mem_cons_of_mem kv hkv'))
        (fun buy p => (hsum buy p).trans_lt (hfits buy p))
      simp only [hsum] at hrebuilt
      refine ⟨rebuilt', ?_, hrebuilt⟩
      rw [List.foldlM_cons, hnext]
      exact hfold

variable [LevelStore S] {admissible : Price → Prop} [LawfulLevelStore S admissible]

theorem Answers.rebuilt {c : Compare} {s : S c} {t : Totals} {l : List (Price × Qty)}
    (h : Answers s t l) {rebuilt : LevelMap c} (hrebuilt : rebuilt.Represents t) :
    rebuilt.size = LevelStore.size s ∧
      ∀ kv ∈ rebuilt.entries, LevelStore.atPrice s kv.1 = kv.2 := by
  obtain rfl := h.ladder.unique hrebuilt.isLadder
  refine ⟨h.size.symm, fun kv hkv => UInt32.toNat_inj.mp ?_⟩
  rw [h.atPrice, ((h.ladder.mem_iff kv.1 kv.2).mp hkv).1]

theorem BookInv.invariantOk {b : BasicOrderBook S} {m : LiveOrders} (h : BookInv b m)
    (hreal : m.AllReal) : b.invariantOk = true := by
  obtain ⟨bidLadder, hbids⟩ := LawfulLevelStore.answers h.levels.1
  obtain ⟨askLadder, hasks⟩ := LawfulLevelStore.answers h.levels.2
  have hsum : ∀ buy p, (b.index.entries.map fun kv =>
      LiveOrders.sharesAt buy p (b.orders.get kv.2)).sum = m.total buy p :=
    fun buy p => (h.tracks.sumOver_eq _).symm
  have hgood : ∀ kv ∈ b.index.entries,
      (b.orders.get kv.2).shares ≠ 0 ∧ (b.orders.get kv.2).side.Real := by
    intro kv hkv
    have hindex : b.index.lookup kv.1 = some kv.2 := AList.mem_lookup_iff.mpr hkv
    have hlive : m.lookup kv.1 = some (b.orders.get kv.2) := by
      rw [← h.tracks.order?_eq, BasicOrderBook.order?, ObjectPool.stored, hindex]
      rfl
    exact ⟨h.tracks.shares_ne_zero hlive, hreal _ _ hlive⟩
  obtain ⟨rebuilt, hfold, hrebuilt⟩ := foldlM_rebuildStep b b.index.entries (fun _ _ => 0)
    (.empty, .empty) LevelMap.represents_empty LevelMap.represents_empty hgood (fun buy p => by
      rw [hsum, Nat.zero_add]
      cases buy
      · exact hasks.fits p
      · exact hbids.fits p)
  simp only [hsum, Nat.zero_add] at hrebuilt
  obtain ⟨hbidSize, hbidQty⟩ := hbids.rebuilt hrebuilt.1
  obtain ⟨haskSize, haskQty⟩ := hasks.rebuilt hrebuilt.2
  unfold BasicOrderBook.invariantOk
  rw [hfold]
  simp only [Bool.and_eq_true, decide_eq_true_eq, List.all_eq_true]
  exact ⟨⟨⟨hbidSize, haskSize⟩, hbidQty⟩, haskQty⟩

/-! ### Queries -/

section Queries

variable {m : LiveOrders} {side : Side} {c : Compare} {s : S c} {l : List (Price × Qty)}

theorem Answers.rests_iff (h : Answers s (m.qtyAt side) l)
    (hshares : ∀ {ref o}, m.lookup ref = some o → o.shares ≠ 0) {p : Price} :
    p ∈ l.map Prod.fst ↔ m.Rests side p := by
  rw [h.ladder.mem_map_fst h.fits, LiveOrders.qtyAt_ne_zero_iff hshares]

theorem Answers.size_eq_card (h : Answers s (m.qtyAt side) l)
    (hshares : ∀ {ref o}, m.lookup ref = some o → o.shares ≠ 0) :
    LevelStore.size s = (m.prices side).card := by
  have hprices : m.prices side = (l.map Prod.fst).toFinset := by
    ext p
    rw [LiveOrders.mem_prices, List.mem_toFinset, h.rests_iff hshares]
  rw [hprices, List.toFinset_card_of_nodup h.ladder.nodup_map_fst, List.length_map, h.size]

theorem Answers.best_eq_none (h : Answers s (m.qtyAt side) l)
    (hshares : ∀ {ref o}, m.lookup ref = some o → o.shares ≠ 0) :
    LevelStore.best s = none ↔ ∀ p, ¬ m.Rests side p := by
  rw [h.best, List.head?_eq_none_iff, ← List.map_eq_nil_iff (f := Prod.fst),
    List.eq_nil_iff_forall_not_mem]
  exact forall_congr' fun p => not_congr (h.rests_iff hshares)

theorem Answers.best_eq_some (h : Answers s (m.qtyAt side) l)
    (hshares : ∀ {ref o}, m.lookup ref = some o → o.shares ≠ 0) (p : Price) (q : Qty) :
    LevelStore.best s = some (p, q) ↔
      (m.Rests side p ∧ ∀ p', m.Rests side p' → p' ≠ p → c.lt p p') ∧
        q.toNat = m.qtyAt side p := by
  rw [h.best, h.ladder.head?_eq_some_iff, LiveOrders.qtyAt_ne_zero_iff hshares]
  simp only [h.rests_iff hshares]
  tauto

end Queries

theorem BookInv.answersAs {b : BasicOrderBook S} {m : LiveOrders} (h : BookInv b m)
    (hreal : m.AllReal) : b.AnswersAs m := by
  obtain ⟨bidLadder, hbids⟩ := LawfulLevelStore.answers h.levels.1
  obtain ⟨askLadder, hasks⟩ := LawfulLevelStore.answers h.levels.2
  rw [← LiveOrders.qtyAt_buy] at hbids
  rw [← LiveOrders.qtyAt_sell hreal] at hasks
  have hne : Side.sell ≠ Side.buy := by decide
  have hshares := @h.tracks.shares_ne_zero
  refine
    { orderCount := h.tracks.orderCount_eq
      qtyAt := ?_
      bidLevels := hbids.size_eq_card hshares
      askLevels := hasks.size_eq_card hshares
      bestBid_eq_none := hbids.best_eq_none hshares
      bestBid_eq_some := fun p q => (hbids.best_eq_some hshares p q).trans ?_
      bestAsk_eq_none := hasks.best_eq_none hshares
      bestAsk_eq_some := fun p q => (hasks.best_eq_some hshares p q).trans ?_
      bidDepth := ⟨bidLadder, hbids.ladder, fun n => (if_pos rfl).trans (hbids.top n)⟩
      askDepth := ⟨askLadder, hasks.ladder, fun n => (if_neg hne).trans (hasks.top n)⟩
      invariantOk := h.invariantOk hreal }
  · rintro side (rfl | rfl) p
    · exact hbids.atPrice p
    · exact hasks.atPrice p
  · refine and_congr_left' (and_congr_right' (forall₂_congr fun p' _ => ?_))
    exact ⟨fun hlt => by_contra fun hle => hle (le_of_lt (hlt fun heq => hle heq.le)),
      fun hle hne => lt_of_le_of_ne hle hne⟩
  · refine and_congr_left' (and_congr_right' (forall₂_congr fun p' _ => ?_))
    exact ⟨fun hlt => by_contra fun hle => hle (le_of_lt (hlt fun heq => hle heq.ge)),
      fun hle hne => lt_of_le_of_ne hle (Ne.symm hne)⟩

end HftOrderbook
