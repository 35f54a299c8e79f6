import HftOrderbook.Proof.BookRuns

/-!
# Orders that nothing leads to

A call that gives a live reference to a new order leaves the old order behind: its slot stays in use
and its shares stay in the levels, but no reference leads to it any more. What the book answers after
any history of calls is said here with these orders beside the live ones.
-/

namespace HftOrderbook

namespace LiveOrders

/-- The order that a call leaves behind, if any. -/
def strands (m : LiveOrders) : BookOp → List Order
  | .add ref _ _ shares => if shares = 0 then [] else (m.lookup ref).toList
  | .replace origRef newRef newShares _ =>
      if origRef ∈ m ∧ newShares ≠ 0 then ((m.erase origRef).lookup newRef).toList else []
  | _ => []

def strandStep (s : LiveOrders × List Order) (op : BookOp) : LiveOrders × List Order :=
  ((s.1.exec op).1, s.2 ++ s.1.strands op)

/-- The orders that a history has left behind. -/
def stranded (ops : List BookOp) : List Order := (ops.foldl strandStep (∅, [])).2

theorem foldl_strandStep_fst (ops : List BookOp) : (ops.foldl strandStep (∅, [])).1 = run ops := by
  induction ops using List.reverseRecOn with
  | nil => rfl
  | append_singleton ops op ih =>
      rw [List.foldl_append, run_concat, ← ih]
      rfl

theorem stranded_concat (ops : List BookOp) (op : BookOp) :
    stranded (ops ++ [op]) = stranded ops ++ (run ops).strands op := by
  rw [stranded, List.foldl_append, ← foldl_strandStep_fst]
  rfl

/-- What the levels hold: the shares of the live orders and of those left behind. -/
def held (m : LiveOrders) (left : List Order) : SideTotals := fun buy price =>
  m.total buy price + (left.map (sharesAt buy price)).sum

/-! ### What a call does to it -/

section Held

variable {m : LiveOrders} {left : List Order} {ref : OrderRef} {o : Order}

theorem held_insert (m : LiveOrders) (left : List Order) (ref : OrderRef) (o : Order) :
    held (m.insert ref o) (left ++ (m.lookup ref).toList) =
      SideTotals.inc (m.held left) o.side o.price o.shares.toNat := by
  funext buy p
  rw [SideTotals.inc_order]
  cases hlookup : m.lookup ref with
  | none =>
      have hsum : (m.insert ref o).sumOver (sharesAt buy p) = _ :=
        Finmap.sumOver_insert (Finmap.lookup_eq_none.mp hlookup) _
      simp only [held, total, hsum, Option.toList_none, List.append_nil]
      omega
  | some old =>
      have hsum : (m.insert ref o).sumOver (sharesAt buy p) + sharesAt buy p old = _ :=
        Finmap.sumOver_insert_of_lookup hlookup _
      simp only [held, total, Option.toList_some, List.map_append, List.map_singleton,
        List.sum_append, List.sum_singleton]
      omega

theorem held_erase (hlookup : m.lookup ref = some o) :
    held (m.erase ref) left = SideTotals.dec (m.held left) o.side o.price o.shares.toNat := by
  funext buy p
  have hsum : (m.erase ref).sumOver (sharesAt buy p) + sharesAt buy p o = _ :=
    Finmap.sumOver_erase hlookup _
  rw [SideTotals.dec_order]
  simp only [held, total]
  omega

theorem held_insert_sub (hlookup : m.lookup ref = some o) {d : Qty} (hd : d ≤ o.shares) :
    held (m.insert ref { o with shares := o.shares - d }) left =
      SideTotals.dec (m.held left) o.side o.price d.toNat := by
  funext buy p
  have hsum : (m.insert ref { o with shares := o.shares - d }).sumOver (sharesAt buy p) +
      sharesAt buy p o = _ := Finmap.sumOver_insert_of_lookup hlookup _
  have hparts := sharesAt_sub_add hd buy p
  rw [SideTotals.dec_order (m.held left) { o with shares := d }]
  simp only [held, total]
  omega

theorem shares_le_held (hlookup : m.lookup ref = some o) :
    o.shares.toNat ≤ m.held left (decide (o.side = Side.buy)) o.price :=
  (shares_le_total hlookup).trans (Nat.le_add_right _ _)

theorem card_keys_insert (m : LiveOrders) (ref : OrderRef) (o : Order) :
    (m.insert ref o).keys.card + (m.lookup ref).toList.length = m.keys.card + 1 := by
  rw [Finmap.keys_insert]
  cases hlookup : m.lookup ref with
  | none =>
      have hnew : ref ∉ m.keys := fun hmem =>
        Finmap.lookup_eq_none.mp hlookup (Finmap.mem_keys.mp hmem)
      rw [Finset.card_insert_of_notMem hnew]
      rfl
  | some old =>
      have hmem : ref ∈ m.keys := Finmap.mem_keys.mpr (Finmap.mem_of_lookup_eq_some hlookup)
      rw [Finset.insert_eq_of_mem hmem]
      rfl

end Held

end LiveOrders

/-! ### What the consistency check rebuilds -/

section Rebuilding

variable {S : Compare → Type} {b : BasicOrderBook S} {m : LiveOrders}

theorem side_real_of_foldlM {entries : List ((_ : OrderRef) × Handle)}
    {rebuilt rebuilt' : LevelMap .greater × LevelMap .less}
    (hfold : entries.foldlM b.rebuildStep rebuilt = some rebuilt') :
    ∀ kv ∈ entries, (b.orders.get kv.2).side.Real := by
  induction entries generalizing rebuilt with
  | nil => exact fun kv hkv => absurd hkv List.not_mem_nil
  | cons kv entries ih =>
      rw [List.foldlM_cons, Option.bind_eq_bind, Option.bind_eq_some_iff] at hfold
      obtain ⟨next, hnext, hrest⟩ := hfold
      intro kv' hkv'
      rcases List.mem_cons.mp hkv' with rfl | hkv'
      · unfold BasicOrderBook.rebuildStep at hnext
        dsimp only at hnext
        split_ifs at hnext with hshares hbuy hsell
        · exact Or.inl hbuy
        · exact Or.inr hsell
      · exact ih hrest kv' hkv'

theorem Tracks.allReal (h : Tracks b m)
    (hreal : ∀ kv ∈ b.index.entries, (b.orders.get kv.2).side.Real) : m.AllReal := by
  intro ref o hlookup
  rcases h.lookup_cases ref with ⟨-, hnone⟩ | ⟨handle, hindex, hlive⟩
  · rw [hlookup] at hnone
    cases hnone
  · rw [hlookup, Option.some.injEq] at hlive
    rw [hlive]
    exact hreal ⟨ref, handle⟩ (AList.mem_lookup_iff.mp hindex)

/-- If every live order has a side, the loop of `invariant_ok` rebuilds the totals of the live
orders. -/
theorem Tracks.exists_rebuilt (h : Tracks b m) (hreal : m.AllReal)
    (hfits : ∀ buy, (m.total buy).Fits) :
    ∃ rebuilt, b.index.entries.foldlM b.rebuildStep (.empty, .empty) = some rebuilt ∧
      rebuilt.1.Represents (m.total true) ∧ rebuilt.2.Represents (m.total false) := by
  have hsum : ∀ buy p, (b.index.entries.map fun kv =>
      LiveOrders.sharesAt buy p (b.orders.get kv.2)).sum = m.total buy p :=
    fun buy p => (h.sumOver_eq _).symm
  have hgood : ∀ kv ∈ b.index.entries,
      (b.orders.get kv.2).shares ≠ 0 ∧ (b.orders.get kv.2).side.Real := by
    intro kv hkv
    have hindex : b.index.lookup kv.1 = some kv.2 := AList.mem_lookup_iff.mpr hkv
    have hlive : m.lookup kv.1 = some (b.orders.get kv.2) := by
      rw [← h.order?_eq, BasicOrderBook.order?, ObjectPool.stored, hindex]
      rfl
    exact ⟨h.shares_ne_zero hlive, hreal _ _ hlive⟩
  have hrebuilt := foldlM_rebuildStep b b.index.entries (fun _ _ => 0) (.empty, .empty)
    LevelMap.represents_empty LevelMap.represents_empty hgood
    (fun buy p => by
      rw [hsum, Nat.zero_add]
      exact hfits buy p)
  simpa only [hsum, Nat.zero_add] using hrebuilt

end Rebuilding

/-! ### The book beside them -/

variable {S : Compare → Type} [LevelStore S] {admissible : Price → Prop}
  [LawfulLevelStore S admissible]

structure StrandedInv (b : BasicOrderBook S) (m : LiveOrders) (left : List Order) : Prop where
  tracks : Tracks b m
  balanced : b.orders.capacity = b.orders.freed.length + (m.keys.card + left.length)
  levels : Levels b (m.held left)
  shares_ne_zero : ∀ o ∈ left, o.shares ≠ 0

namespace StrandedInv

variable {b : BasicOrderBook S} {m : LiveOrders} {left : List Order} {ref : OrderRef}

theorem empty : StrandedInv (BasicOrderBook.empty : BasicOrderBook S) ∅ [] where
  tracks := Tracks.empty
  balanced := BookInv.empty.balanced
  levels := BookInv.empty.levels
  shares_ne_zero := fun _ ho => absurd ho List.not_mem_nil

theorem add (h : StrandedInv b m left) {side : Side} {price : Price} {shares : Qty}
    (hprice : admissible price)
    (hfits : ∀ buy, (LiveOrders.held (m.add ref side price shares)
      (left ++ m.strands (.add ref side price shares)) buy).Fits)
    (hroom : (b.add ref side price shares).orders.capacity ≤ 2 ^ 32) :
    StrandedInv (b.add ref side price shares) (m.add ref side price shares)
      (left ++ m.strands (.add ref side price shares)) := by
  have htracks := h.tracks.add hroom
  by_cases hshares : shares = 0
  · unfold BasicOrderBook.add LiveOrders.add LiveOrders.strands
    simpa only [if_pos hshares, List.append_nil] using h
  · have hlive : m.add ref side price shares = m.insert ref ⟨side, price, shares⟩ := if_neg hshares
    have hstrands : m.strands (.add ref side price shares) = (m.lookup ref).toList :=
      if_neg hshares
    have hfit := hfits (decide (side = Side.buy)) price
    rw [hlive, hstrands, LiveOrders.held_insert] at hfit
    simp only [SideTotals.inc, if_true, Totals.inc_apply] at hfit
    refine ⟨htracks, ?_, ?_, ?_⟩
    · have hused := ObjectPool.capacity_alloc h.balanced
      have hcard := m.card_keys_insert ref ⟨side, price, shares⟩
      have hcapacity : (b.add ref side price shares).orders.capacity =
          (b.add ref side price shares).orders.freed.length +
            (m.keys.card + left.length + 1) := by
        simpa [BasicOrderBook.add, hshares, ObjectPool.set, ObjectPool.capacity] using hused
      rw [hcapacity, hlive, hstrands, List.length_append]
      omega
    · rw [hlive, hstrands, LiveOrders.held_insert]
      simp only [BasicOrderBook.add, if_neg hshares]
      exact Levels.incLevel h.levels hprice hshares hfit
    · intro o ho
      rw [hstrands] at ho
      rcases List.mem_append.mp ho with ho | ho
      · exact h.shares_ne_zero o ho
      · exact h.tracks.shares_ne_zero (Option.mem_toList.mp ho)

theorem erase {b' : BasicOrderBook S} (h : StrandedInv b m left) {o : Order} {d : Qty}
    (hlookup : m.lookup ref = some o) (hd : d = o.shares) (htracks : Tracks b' (m.erase ref))
    (hcapacity : b'.orders.capacity = b.orders.capacity)
    (hfreed : b'.orders.freed.length = b.orders.freed.length + 1)
    (hlevels : Levels b' (SideTotals.dec (m.held left) o.side o.price d.toNat)) :
    StrandedInv b' (m.erase ref) left := by
  subst hd
  refine ⟨htracks, ?_, LiveOrders.held_erase hlookup ▸ hlevels, h.shares_ne_zero⟩
  have hmem : ref ∈ m.keys := Finmap.mem_keys.mpr (Finmap.mem_of_lookup_eq_some hlookup)
  have hcard := Finset.card_erase_add_one hmem
  rw [hcapacity, hfreed, h.balanced, Finmap.keys_erase]
  omega

theorem remove (h : StrandedInv b m left) (ref : OrderRef) :
    StrandedInv (b.remove ref).1 (m.remove ref).1 left := by
  have htracks := (h.tracks.remove ref).1
  unfold BasicOrderBook.remove LiveOrders.remove at *
  rcases h.tracks.lookup_cases ref with ⟨hindex, hlive⟩ | ⟨handle, hindex, hlive⟩
  · simp only [hindex, hlive]
    exact h
  · simp only [hindex, hlive] at htracks ⊢
    refine h.erase hlive rfl htracks (by simp [ObjectPool.free, ObjectPool.capacity])
      (by simp [ObjectPool.free]) ?_
    exact Levels.decLevel h.levels (LiveOrders.shares_le_held hlive)

theorem reduce (h : StrandedInv b m left) (ref : OrderRef) (qty : Qty) :
    StrandedInv (b.reduce ref qty).1 (m.reduce ref qty).1 left := by
  have htracks := (h.tracks.reduce ref qty).1
  unfold BasicOrderBook.reduce LiveOrders.reduce at *
  rcases h.tracks.lookup_cases ref with ⟨hindex, hlive⟩ | ⟨handle, hindex, hlive⟩
  · simp only [hindex, hlive]
    exact h
  · simp only [hindex, hlive, BasicOrderBook.clamp_eq_min] at htracks ⊢
    set o := b.orders.get handle
    have hd : min qty o.shares ≤ o.shares := BasicOrderBook.min_le_shares qty o.shares
    have hle : (min qty o.shares).toNat ≤ m.held left (decide (o.side = Side.buy)) o.price :=
      (UInt32.le_iff_toNat_le.mp hd).trans (LiveOrders.shares_le_held hlive)
    by_cases hleft : o.shares - min qty o.shares = 0
    · simp only [if_pos hleft] at htracks ⊢
      refine h.erase hlive (d := min qty o.shares) (by grind) htracks
        (by simp [ObjectPool.free, ObjectPool.set, ObjectPool.capacity])
        (by simp [ObjectPool.free, ObjectPool.set]) ?_
      exact Levels.decLevel h.levels hle
    · simp only [if_neg hleft] at htracks ⊢
      have hmem : ref ∈ m.keys := Finmap.mem_keys.mpr (Finmap.mem_of_lookup_eq_some hlive)
      refine ⟨htracks, ?_, ?_, h.shares_ne_zero⟩
      · rw [Finmap.keys_insert, Finset.insert_eq_of_mem hmem]
        simpa [ObjectPool.set, ObjectPool.capacity] using h.balanced
      · rw [LiveOrders.held_insert_sub hlive hd]
        exact Levels.decLevel h.levels hle

theorem replace (h : StrandedInv b m left) {origRef newRef : OrderRef} {newShares : Qty}
    {newPrice : Price} (hprice : admissible newPrice)
    (hfits : ∀ buy, (LiveOrders.held (m.replace origRef newRef newShares newPrice).1
      (left ++ m.strands (.replace origRef newRef newShares newPrice)) buy).Fits)
    (hroom : (b.replace origRef newRef newShares newPrice).1.orders.capacity ≤ 2 ^ 32) :
    StrandedInv (b.replace origRef newRef newShares newPrice).1
      (m.replace origRef newRef newShares newPrice).1
      (left ++ m.strands (.replace origRef newRef newShares newPrice)) := by
  have hremove := h.remove origRef
  rw [LiveOrders.remove_eq_erase] at hremove
  unfold BasicOrderBook.replace LiveOrders.replace at *
  rcases h.tracks.lookup_cases origRef with ⟨hindex, hlive⟩ | ⟨handle, hindex, hlive⟩
  · have hnone : m.strands (.replace origRef newRef newShares newPrice) = [] :=
      if_neg fun hboth => Finmap.lookup_eq_none.mp hlive hboth.1
    simp only [hindex, hlive, hnone, List.append_nil]
    exact h
  · -- what the replace leaves behind is what its second half, the add, does
    have hstrands : m.strands (.replace origRef newRef newShares newPrice) =
        LiveOrders.strands (m.erase origRef)
          (.add newRef (b.orders.get handle).side newPrice newShares) := by
      simp only [LiveOrders.strands, Finmap.mem_of_lookup_eq_some hlive, true_and, ite_not]
    simp only [hindex, hlive, hstrands] at hfits hroom ⊢
    exact hremove.add hprice hfits hroom

/-- One call keeps the book in step with the live orders and those left behind, whatever reference
it names. -/
theorem exec (h : StrandedInv b m left) {op : BookOp} (hpriced : op.Priced admissible)
    (hfits : ∀ buy, (LiveOrders.held (m.exec op).1 (left ++ m.strands op) buy).Fits)
    (hroom : (b.exec op).1.orders.capacity ≤ 2 ^ 32) :
    StrandedInv (b.exec op).1 (m.exec op).1 (left ++ m.strands op) := by
  cases op with
  | add ref side price shares => exact h.add hpriced hfits hroom
  | reduce ref qty => exact (List.append_nil left).symm ▸ h.reduce ref qty
  | remove ref => exact (List.append_nil left).symm ▸ h.remove ref
  | replace origRef newRef newShares newPrice => exact h.replace hpriced hfits hroom

end StrandedInv

/-- No level total reaches `2 ^ 32`, with the orders left behind counted in. -/
def HeldFits (ops : List BookOp) : Prop :=
  ∀ pre, pre <+: ops → ∀ buy,
    ((LiveOrders.run pre).held (LiveOrders.stranded pre) buy).Fits

theorem strandedInv_run {ops : List BookOp} (hfits : HeldFits ops) (hslots : SlotsFit ops)
    (hpriced : ∀ op ∈ ops, op.Priced admissible) :
    ∀ pre, pre <+: ops →
      StrandedInv (BasicOrderBook.run S pre) (LiveOrders.run pre) (LiveOrders.stranded pre) := by
  refine Histories.forall_prefix StrandedInv.empty fun pre op hpre ih => ?_
  have hroom := hslots.capacity_le (S := S) hpre
  have hfit := hfits _ hpre
  rw [BasicOrderBook.run_concat] at hroom
  rw [LiveOrders.run_concat, LiveOrders.stranded_concat] at hfit
  rw [BasicOrderBook.run_concat, LiveOrders.run_concat, LiveOrders.stranded_concat]
  exact ih.exec (hpriced op (hpre.subset (by simp))) hfit hroom

/-! ### The consistency check -/

section Check

variable {b : BasicOrderBook S} {m : LiveOrders} {left : List Order}

/-- A rebuilt side that passes the comparisons of `invariant_ok` has all that the store holds, if it
has nowhere more. -/
theorem Answers.totals_eq_of_rebuilt {c : Compare} {s : S c} {t t' : Totals}
    {l : List (Price × Qty)} (h : Answers s t l) {rebuilt : LevelMap c}
    (hrebuilt : rebuilt.Represents t') (hle : ∀ p, t' p ≤ t p)
    (hsize : rebuilt.size = LevelStore.size s)
    (hqty : ∀ kv ∈ rebuilt.entries, LevelStore.atPrice s kv.1 = kv.2) : t' = t := by
  have hladder := hrebuilt.isLadder
  have hfits : t'.Fits := fun p => (hle p).trans_lt (h.fits p)
  have hsubset : rebuilt.entries.map Prod.fst ⊆ l.map Prod.fst := by
    intro p hp
    have hne := (hladder.mem_map_fst hfits).mp hp
    exact (h.ladder.mem_map_fst h.fits).mpr fun hzero => hne (Nat.le_zero.mp (hzero ▸ hle p))
  have hperm : (rebuilt.entries.map Prod.fst).Perm (l.map Prod.fst) := by
    refine (hladder.nodup_map_fst.subperm hsubset).perm_of_length_le ?_
    rw [List.length_map, List.length_map, ← h.size, ← hsize]
    exact le_rfl
  funext p
  by_cases hzero : t p = 0
  · exact (Nat.le_zero.mp (hzero ▸ hle p)).trans hzero.symm
  · have hmem := hperm.mem_iff.mpr ((h.ladder.mem_map_fst h.fits).mpr hzero)
    obtain ⟨⟨p, q⟩, hentry, rfl⟩ := List.mem_map.mp hmem
    have hatPrice := h.atPrice p
    rw [hqty _ hentry] at hatPrice
    exact ((hladder.mem_iff _ q).mp hentry).1.symm.trans hatPrice

namespace StrandedInv

theorem eq_nil_of_held_eq (h : StrandedInv b m left) (heq : m.held left = m.total) :
    left = [] := by
  refine List.eq_nil_iff_forall_not_mem.mpr fun o ho => h.shares_ne_zero o ho ?_
  have hheld := congrFun₂ heq (decide (o.side = Side.buy)) o.price
  have hle := List.single_le_sum (fun _ _ => Nat.zero_le _) _
    (List.mem_map_of_mem (f := LiveOrders.sharesAt (decide (o.side = Side.buy)) o.price) ho)
  rw [LiveOrders.sharesAt, if_pos ⟨rfl, rfl⟩] at hle
  rw [LiveOrders.held] at hheld
  exact UInt32.toNat_inj.mp (show o.shares.toNat = 0 by omega)

/-- The check succeeds exactly when nothing has been left behind and every live order has a side. -/
theorem invariantOk_iff (h : StrandedInv b m left) :
    b.invariantOk = true ↔ left = [] ∧ m.AllReal := by
  constructor
  · intro hok
    unfold BasicOrderBook.invariantOk at hok
    cases hfold : b.index.entries.foldlM b.rebuildStep (.empty, .empty) with
    | none => rw [hfold] at hok; cases hok
    | some rebuilt =>
        rw [hfold] at hok
        simp only [Bool.and_eq_true, decide_eq_true_eq, List.all_eq_true] at hok
        obtain ⟨⟨⟨hbidSize, haskSize⟩, hbidQty⟩, haskQty⟩ := hok
        have hreal := h.tracks.allReal (side_real_of_foldlM hfold)
        refine ⟨h.eq_nil_of_held_eq ?_, hreal⟩
        obtain ⟨bidLadder, hbids⟩ := LawfulLevelStore.answers h.levels.1
        obtain ⟨askLadder, hasks⟩ := LawfulLevelStore.answers h.levels.2
        have hle : ∀ buy p, m.total buy p ≤ m.held left buy p := fun buy p => Nat.le_add_right _ _
        have hfits : ∀ buy, (m.total buy).Fits := by
          rintro (- | -) p
          · exact (hle false p).trans_lt (hasks.fits p)
          · exact (hle true p).trans_lt (hbids.fits p)
        obtain ⟨rebuilt', hfold', hrebuilt⟩ := h.tracks.exists_rebuilt hreal hfits
        obtain rfl := Option.some.inj (hfold.symm.trans hfold')
        funext buy
        cases buy
        · exact (hasks.totals_eq_of_rebuilt hrebuilt.2 (hle false) haskSize haskQty).symm
        · exact (hbids.totals_eq_of_rebuilt hrebuilt.1 (hle true) hbidSize hbidQty).symm
  · rintro ⟨rfl, hreal⟩
    exact BookInv.invariantOk ⟨h.tracks, h.balanced, h.levels⟩ hreal

end StrandedInv

end Check

/-! ### Slots -/

/-- The slots that a history has in use. -/
def slotsInUse (ops : List BookOp) : Nat :=
  (LiveOrders.run ops).keys.card + (LiveOrders.stranded ops).length

omit [LawfulLevelStore S admissible] in
/-- The pool grows only when no slot is free. -/
theorem BasicOrderBook.capacity_exec_cases (b : BasicOrderBook S) (op : BookOp) :
    (b.exec op).1.orders.capacity = b.orders.capacity ∨
      b.orders.capacity ≤ (b.exec op).1.orders.capacity ∧ (b.exec op).1.orders.freed = [] := by
  have hadd : ∀ (b : BasicOrderBook S) ref side price shares,
      (b.add ref side price shares).orders.capacity = b.orders.capacity ∨
        b.orders.capacity ≤ (b.add ref side price shares).orders.capacity ∧
          (b.add ref side price shares).orders.freed = [] := by
    intro b ref side price shares
    unfold BasicOrderBook.add
    split_ifs
    · exact Or.inl rfl
    · simp only [incLevel_orders, ObjectPool.set, ObjectPool.capacity, List.length_set]
      have hmono := (PoolInv.alloc_mono b.orders).1
      unfold ObjectPool.alloc at hmono ⊢
      split at hmono
      · exact Or.inl rfl
      · exact Or.inr ⟨hmono, by assumption⟩
  have hremove : ∀ ref, (b.remove ref).1.orders.capacity = b.orders.capacity := by
    intro ref
    unfold BasicOrderBook.remove
    cases b.index.lookup ref with
    | none => rfl
    | some h => simp [ObjectPool.free, ObjectPool.capacity]
  cases op with
  | add ref side price shares => exact hadd b ref side price shares
  | reduce ref qty =>
      change (b.reduce ref qty).1.orders.capacity = _ ∨ _
      left
      unfold BasicOrderBook.reduce
      cases b.index.lookup ref with
      | none => rfl
      | some h =>
          dsimp only
          split_ifs <;> simp [ObjectPool.free, ObjectPool.set, ObjectPool.capacity]
  | remove ref => exact Or.inl (hremove ref)
  | replace origRef newRef newShares newPrice =>
      have hexec : (b.exec (.replace origRef newRef newShares newPrice)).1 =
          (b.replace origRef newRef newShares newPrice).1 := rfl
      rw [hexec, BasicOrderBook.replace]
      cases b.index.lookup origRef with
      | none => exact Or.inl rfl
      | some h =>
          have hcases := hadd (b.remove origRef).1 newRef (b.orders.get h).side newPrice newShares
          rwa [hremove] at hcases

/-- The pool has as many slots as were ever in use at once. -/
theorem isGreatest_capacity {ops : List BookOp}
    (hinv : ∀ pre, pre <+: ops → StrandedInv (BasicOrderBook.run S pre) (LiveOrders.run pre)
      (LiveOrders.stranded pre)) :
    ∀ pre, pre <+: ops → IsGreatest {n | ∃ pre', pre' <+: pre ∧ n = slotsInUse pre'}
      (BasicOrderBook.run S pre).orders.capacity := by
  refine Histories.forall_prefix ⟨⟨[], List.prefix_rfl, rfl⟩, ?_⟩ fun pre op hpre ih => ?_
  · rintro n ⟨pre', hpre', rfl⟩
    rw [List.prefix_nil.mp hpre']
    exact le_rfl
  · have hbalanced := (hinv _ hpre).balanced
    obtain ⟨⟨most, hmost, hreached⟩, hbound⟩ := ih
    have hcases := (BasicOrderBook.run S pre).capacity_exec_cases op
    rw [← BasicOrderBook.run_concat] at hcases
    have hmono : (BasicOrderBook.run S pre).orders.capacity ≤
        (BasicOrderBook.run S (pre ++ [op])).orders.capacity := by
      rcases hcases with heq | ⟨hle, -⟩
      · exact heq.ge
      · exact hle
    refine ⟨?_, ?_⟩
    · rcases hcases with heq | ⟨-, hfreed⟩
      · exact ⟨most, hmost.trans (List.prefix_append _ _), heq.trans hreached⟩
      · refine ⟨pre ++ [op], List.prefix_rfl, ?_⟩
        rw [hbalanced, hfreed]
        exact Nat.zero_add _
    · rintro n ⟨pre', hpre', rfl⟩
      rcases List.prefix_concat_iff.mp hpre' with rfl | hpre'
      · exact (Nat.le_add_left _ _).trans hbalanced.ge
      · exact (hbound ⟨pre', hpre', rfl⟩).trans hmono

/-! ### What the book answers -/

/-- A book that answers from its live orders and from orders that nothing leads to: the counts of
orders see only the live ones, the levels see both, and the consistency check tells them apart. -/
structure BasicOrderBook.AnswersWith (b : BasicOrderBook S) (m : LiveOrders)
    (left : List Order) : Prop where
  orderCount : b.orderCount = m.keys.card
  live : b.orders.live = m.keys.card + left.length
  qtyAt : ∀ side price,
    (b.qtyAt side price).toNat = m.held left (decide (side = Side.buy)) price
  bids : ∃ ladder, IsLadder .greater (m.held left true) ladder ∧ b.bestBid = ladder.head? ∧
    b.bidLevels = ladder.length ∧ ∀ n, b.depth Side.buy n = ladder.take n
  asks : ∃ ladder, IsLadder .less (m.held left false) ladder ∧ b.bestAsk = ladder.head? ∧
    b.askLevels = ladder.length ∧ ∀ n, b.depth Side.sell n = ladder.take n
  invariantOk : b.invariantOk = true ↔ left = [] ∧ m.AllReal

theorem StrandedInv.answersWith {b : BasicOrderBook S} {m : LiveOrders} {left : List Order}
    (h : StrandedInv b m left) : b.AnswersWith m left := by
  obtain ⟨bidLadder, hbids⟩ := LawfulLevelStore.answers h.levels.1
  obtain ⟨askLadder, hasks⟩ := LawfulLevelStore.answers h.levels.2
  have hne : Side.sell ≠ Side.buy := by decide
  refine
    { orderCount := h.tracks.orderCount_eq
      live := ?_
      qtyAt := fun side price => ?_
      bids := ⟨bidLadder, hbids.ladder, hbids.best, hbids.size,
        fun n => (if_pos rfl).trans (hbids.top n)⟩
      asks := ⟨askLadder, hasks.ladder, hasks.best, hasks.size,
        fun n => (if_neg hne).trans (hasks.top n)⟩
      invariantOk := h.invariantOk_iff }
  · have hbalanced := h.balanced
    change b.orders.slots.length = _ at hbalanced
    rw [ObjectPool.live, hbalanced, Nat.add_sub_cancel_left]
  · unfold BasicOrderBook.qtyAt
    by_cases hside : side = Side.buy
    · rw [if_pos hside, decide_eq_true hside]
      exact hbids.atPrice price
    · rw [if_neg hside, decide_eq_false hside]
      exact hasks.atPrice price

theorem LiveOrders.strands_eq_nil_iff (m : LiveOrders) (op : BookOp) :
    m.strands op = [] ↔ m.Fresh op := by
  have hlookup : ∀ (m : LiveOrders) ref, (m.lookup ref).toList = [] ↔ ref ∉ m := fun m ref => by
    rw [Option.toList_eq_nil_iff, Finmap.lookup_eq_none]
  cases op with
  | add ref side price shares =>
      change (if shares = 0 then [] else (m.lookup ref).toList) = [] ↔ (shares ≠ 0 → ref ∉ m)
      split_ifs with hshares
      · exact ⟨fun _ hne => absurd hshares hne, fun _ => rfl⟩
      · rw [hlookup]
        exact ⟨fun hnew _ => hnew, fun hnew => hnew hshares⟩
  | reduce ref qty => exact ⟨fun _ => trivial, fun _ => rfl⟩
  | remove ref => exact ⟨fun _ => trivial, fun _ => rfl⟩
  | replace origRef newRef newShares newPrice =>
      change (if origRef ∈ m ∧ newShares ≠ 0 then ((m.erase origRef).lookup newRef).toList
        else []) = [] ↔ (origRef ∈ m → newShares ≠ 0 → newRef ∉ m.erase origRef)
      split_ifs with hboth
      · rw [hlookup]
        exact ⟨fun hnew _ _ => hnew, fun hnew => hnew hboth.1 hboth.2⟩
      · exact ⟨fun _ horig hshares => absurd ⟨horig, hshares⟩ hboth, fun _ => rfl⟩

theorem LiveOrders.stranded_eq_nil_iff (ops : List BookOp) : stranded ops = [] ↔ FreshRefs ops := by
  induction ops using List.reverseRecOn with
  | nil =>
      refine ⟨fun _ pre op hpre => ?_, fun _ => rfl⟩
      exact absurd (List.prefix_nil.mp hpre) (List.append_ne_nil_of_right_ne_nil _ (by simp))
  | append_singleton ops op ih =>
      rw [stranded_concat, List.append_eq_nil_iff, ih, strands_eq_nil_iff]
      constructor
      · exact fun ⟨hfresh, hop⟩ => hfresh.concat hop
      · exact fun hfresh => ⟨fun pre op' hpre => hfresh pre op' (hpre.trans
          (List.prefix_append _ _)), hfresh ops op List.prefix_rfl⟩

/-- After every history of calls, whatever references they name, the book answers from its live
orders and those left behind; it has as many slots as were ever in use at once; and nothing has been
left behind exactly as long as no new order has taken a live reference. -/
theorem book_with_stranded_orders (ops : List BookOp) (hfits : HeldFits ops)
    (hslots : SlotsFit ops) (hpriced : ∀ op ∈ ops, op.Priced admissible) :
    ∀ pre, pre <+: ops →
      (BasicOrderBook.run S pre).AnswersWith (LiveOrders.run pre) (LiveOrders.stranded pre) ∧
      IsGreatest {n | ∃ pre', pre' <+: pre ∧ n = slotsInUse pre'}
        (BasicOrderBook.run S pre).orders.capacity ∧
      (LiveOrders.stranded pre = [] ↔ FreshRefs pre) ∧
      ∀ op, pre ++ [op] <+: ops →
        ((BasicOrderBook.run S pre).exec op).2 = ((LiveOrders.run pre).exec op).2 := by
  intro pre hpre
  have hinv := strandedInv_run (S := S) hfits hslots hpriced
  refine ⟨(hinv pre hpre).answersWith, isGreatest_capacity hinv pre hpre,
    LiveOrders.stranded_eq_nil_iff pre, fun op hop => ?_⟩
  have hroom := hslots.capacity_le (S := S) hop
  rw [BasicOrderBook.run_concat] at hroom
  exact ((hinv pre hpre).tracks.exec hroom).2

/-- Enough to see that no level wraps: all shares together stay below `2 ^ 32`. -/
theorem heldFits_of_sum_lt {ops : List BookOp}
    (h : ∀ i ≤ ops.length, (LiveOrders.run (ops.take i)).sumOver (fun o => o.shares.toNat) +
      ((LiveOrders.stranded (ops.take i)).map fun o => o.shares.toNat).sum < 2 ^ 32) :
    HeldFits ops := by
  have hle : ∀ buy price o, LiveOrders.sharesAt buy price o ≤ o.shares.toNat := by
    intro buy price o
    unfold LiveOrders.sharesAt
    split_ifs
    · exact le_rfl
    · exact Nat.zero_le _
  refine Histories.forall_prefix_iff.mpr fun i hi buy price => ?_
  refine (Nat.add_le_add ?_ ?_).trans_lt (h i hi)
  · exact Finmap.sumOver_mono (hle buy price)
  · exact List.sum_le_sum fun o _ => hle buy price o

/-- An add that comes twice, a replace onto another live order, and the delete of what is left. -/
def redelivered : List BookOp :=
  [.add 1 Side.buy 100 10, .add 2 Side.buy 99 4, .add 1 Side.buy 100 10, .replace 1 2 5 98,
    .remove 2]

/-- Two orders have been left behind when no order is live any more. -/
theorem book_with_stranded_orders_redelivered :
    (LiveOrders.run redelivered).keys.card = 0 ∧
      LiveOrders.stranded redelivered = [⟨Side.buy, 100, 10⟩, ⟨Side.buy, 99, 4⟩] ∧
      (BasicOrderBook.run MapLevels redelivered).AnswersWith (LiveOrders.run redelivered)
        (LiveOrders.stranded redelivered) := by
  refine ⟨by decide, by decide, ?_⟩
  exact (book_with_stranded_orders redelivered (heldFits_of_sum_lt (by decide))
    (slotsFit_of_length (by decide)) (fun op _ => op.priced_true) redelivered
    List.prefix_rfl).1

end HftOrderbook
