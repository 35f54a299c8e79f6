import HftOrderbook.Book.LiveOrders
import HftOrderbook.Proof.BookPool

/-!
# The pool and the index track the live orders

The half of the book that is independent of the level store. No call of this half asks for a fresh
reference: an index entry that is written over only strands the handle it held.
-/

namespace HftOrderbook

variable {S : Compare → Type}

def BasicOrderBook.order? (b : BasicOrderBook S) (ref : OrderRef) : Option Order :=
  b.orders.stored b.index ref

/-- Pool and index hold exactly the live orders, none of them empty. -/
structure Tracks (b : BasicOrderBook S) (m : LiveOrders) : Prop where
  pool : PoolInv b.orders b.index
  order?_eq : ∀ ref, b.order? ref = m.lookup ref
  shares_ne_zero : ∀ {ref o}, m.lookup ref = some o → o.shares ≠ 0

namespace Tracks

variable {b b' : BasicOrderBook S} {m : LiveOrders} {ref : OrderRef} {handle : Handle}

theorem lookup_cases (h : Tracks b m) (ref : OrderRef) :
    (b.index.lookup ref = none ∧ m.lookup ref = none) ∨
      ∃ handle, b.index.lookup ref = some handle ∧ m.lookup ref = some (b.orders.get handle) := by
  have heq := h.order?_eq ref
  unfold BasicOrderBook.order? ObjectPool.stored at heq
  cases hlookup : b.index.lookup ref with
  | none => exact Or.inl ⟨rfl, by rw [← heq, hlookup]; rfl⟩
  | some handle => exact Or.inr ⟨handle, rfl, by rw [← heq, hlookup]; rfl⟩

theorem insert (h : Tracks b m) {o : Order} (hpool : PoolInv b'.orders b'.index)
    (hshares : o.shares ≠ 0)
    (hstored : ∀ ref', b'.order? ref' = if ref' = ref then some o else b.order? ref') :
    Tracks b' (m.insert ref o) := by
  refine ⟨hpool, fun ref' => ?_, fun {ref' o'} hlookup => ?_⟩
  · rw [hstored]
    split_ifs with href
    · rw [href, Finmap.lookup_insert]
    · rw [Finmap.lookup_insert_of_ne m href, h.order?_eq]
  · by_cases href : ref' = ref
    · rw [href, Finmap.lookup_insert, Option.some.injEq] at hlookup
      exact hlookup ▸ hshares
    · rw [Finmap.lookup_insert_of_ne m href] at hlookup
      exact h.shares_ne_zero hlookup

theorem erase (h : Tracks b m) (hpool : PoolInv b'.orders b'.index)
    (hstored : ∀ ref', b'.order? ref' = if ref' = ref then none else b.order? ref') :
    Tracks b' (m.erase ref) := by
  refine ⟨hpool, fun ref' => ?_, fun {ref' o'} hlookup => ?_⟩
  · rw [hstored]
    split_ifs with href
    · rw [href, Finmap.lookup_erase]
    · rw [Finmap.lookup_erase_ne href, h.order?_eq]
  · by_cases href : ref' = ref
    · rw [href, Finmap.lookup_erase] at hlookup
      cases hlookup
    · rw [Finmap.lookup_erase_ne href] at hlookup
      exact h.shares_ne_zero hlookup

theorem keys_eq (h : Tracks b m) : m.keys = b.index.keys.toFinset := by
  ext ref
  rw [List.mem_toFinset, ← AList.mem_keys, Finmap.mem_keys, ← Finmap.lookup_isSome,
    ← AList.lookup_isSome]
  rcases h.lookup_cases ref with ⟨hindex, hlive⟩ | ⟨handle, hindex, hlive⟩ <;>
    simp [hindex, hlive]

theorem orderCount_eq [LevelStore S] (h : Tracks b m) : b.orderCount = m.keys.card := by
  rw [h.keys_eq, List.toFinset_card_of_nodup b.index.keys_nodup]
  exact (List.length_map _).symm

end Tracks

/-! ### The calls -/

variable [LevelStore S]

namespace BasicOrderBook

@[simp] theorem incLevel_orders (b : BasicOrderBook S) (side : Side) (price : Price) (q : Qty) :
    (b.incLevel side price q).orders = b.orders := by
  unfold incLevel
  split_ifs <;> rfl

@[simp] theorem incLevel_index (b : BasicOrderBook S) (side : Side) (price : Price) (q : Qty) :
    (b.incLevel side price q).index = b.index := by
  unfold incLevel
  split_ifs <;> rfl

@[simp] theorem decLevel_orders (b : BasicOrderBook S) (side : Side) (price : Price) (d : Qty) :
    (b.decLevel side price d).orders = b.orders := by
  unfold decLevel
  split_ifs <;> rfl

@[simp] theorem decLevel_index (b : BasicOrderBook S) (side : Side) (price : Price) (d : Qty) :
    (b.decLevel side price d).index = b.index := by
  unfold decLevel
  split_ifs <;> rfl

theorem min_le_shares (qty shares : Qty) : min qty shares ≤ shares := by
  change (if qty ≤ shares then qty else shares) ≤ shares
  split_ifs with hle
  · exact hle
  · exact UInt32.le_refl shares

/-- The source clamps by comparing, the live orders by `min`. -/
theorem clamp_eq_min (qty shares : Qty) :
    (if qty < shares then qty else shares) = min qty shares := by
  change _ = if qty ≤ shares then qty else shares
  grind

end BasicOrderBook

namespace Tracks

variable {b : BasicOrderBook S} {m : LiveOrders} {ref : OrderRef}

theorem empty : Tracks (BasicOrderBook.empty : BasicOrderBook S) ∅ where
  pool := PoolInv.empty
  order?_eq ref := by simp [BasicOrderBook.order?, BasicOrderBook.empty, ObjectPool.stored]
  shares_ne_zero hlookup := by simp at hlookup

theorem add (h : Tracks b m) {side : Side} {price : Price} {shares : Qty}
    (hroom : (b.add ref side price shares).orders.capacity ≤ 2 ^ 32) :
    Tracks (b.add ref side price shares) (m.add ref side price shares) := by
  unfold BasicOrderBook.add LiveOrders.add at *
  by_cases hshares : shares = 0
  · simpa only [if_pos hshares] using h
  · simp only [if_neg hshares, BasicOrderBook.incLevel_orders] at hroom ⊢
    have hcapacity : b.orders.alloc.2.capacity ≤ 2 ^ 32 := by
      simpa only [ObjectPool.set, ObjectPool.capacity, List.length_set] using hroom
    obtain ⟨hpool, hstored⟩ := h.pool.insert hcapacity ref ⟨side, price, shares⟩
    refine h.insert (by simpa using hpool) hshares fun ref' => ?_
    simpa [BasicOrderBook.order?] using hstored ref'

theorem remove (h : Tracks b m) (ref : OrderRef) :
    Tracks (b.remove ref).1 (m.remove ref).1 ∧ (b.remove ref).2 = (m.remove ref).2 := by
  unfold BasicOrderBook.remove LiveOrders.remove
  rcases h.lookup_cases ref with ⟨hindex, hlive⟩ | ⟨handle, hindex, hlive⟩
  · simp only [hindex, hlive]
    exact ⟨h, trivial⟩
  · simp only [hindex, hlive, BasicOrderBook.decLevel_orders, BasicOrderBook.decLevel_index]
    obtain ⟨hpool, hstored⟩ := h.pool.erase hindex
    exact ⟨h.erase hpool hstored, trivial⟩

theorem reduce (h : Tracks b m) (ref : OrderRef) (qty : Qty) :
    Tracks (b.reduce ref qty).1 (m.reduce ref qty).1 ∧
      (b.reduce ref qty).2 = (m.reduce ref qty).2 := by
  unfold BasicOrderBook.reduce LiveOrders.reduce
  rcases h.lookup_cases ref with ⟨hindex, hlive⟩ | ⟨handle, hindex, hlive⟩
  · simp only [hindex, hlive]
    exact ⟨h, trivial⟩
  · simp only [hindex, hlive, BasicOrderBook.clamp_eq_min, BasicOrderBook.decLevel_orders,
      BasicOrderBook.decLevel_index]
    set o := b.orders.get handle
    obtain ⟨hpool, hstored⟩ :=
      h.pool.set hindex { o with shares := o.shares - min qty o.shares }
    by_cases hleft : o.shares - min qty o.shares = 0
    · -- the emptied order is written back before its slot is freed
      rw [if_pos hleft, if_pos hleft]
      obtain ⟨hpool', hstored'⟩ := hpool.erase hindex
      refine ⟨h.erase hpool' fun ref' => (hstored' ref').trans ?_, rfl⟩
      split_ifs with href
      · rfl
      · rw [hstored, if_neg href]
        rfl
    · rw [if_neg hleft, if_neg hleft]
      refine ⟨h.insert (by simpa using hpool) hleft fun ref' => ?_, rfl⟩
      simpa [BasicOrderBook.order?] using hstored ref'

theorem replace (h : Tracks b m) {origRef newRef : OrderRef} {newShares : Qty} {newPrice : Price}
    (hroom : (b.replace origRef newRef newShares newPrice).1.orders.capacity ≤ 2 ^ 32) :
    Tracks (b.replace origRef newRef newShares newPrice).1
        (m.replace origRef newRef newShares newPrice).1 ∧
      (b.replace origRef newRef newShares newPrice).2 =
        (m.replace origRef newRef newShares newPrice).2 := by
  have hremove := (h.remove origRef).1
  rw [LiveOrders.remove_eq_erase] at hremove
  unfold BasicOrderBook.replace LiveOrders.replace at *
  rcases h.lookup_cases origRef with ⟨hindex, hlive⟩ | ⟨handle, hindex, hlive⟩
  · simp only [hindex, hlive]
    exact ⟨h, trivial⟩
  · simp only [hindex, hlive] at hroom ⊢
    exact ⟨hremove.add hroom, trivial⟩

theorem exec (h : Tracks b m) {op : BookOp} (hroom : (b.exec op).1.orders.capacity ≤ 2 ^ 32) :
    Tracks (b.exec op).1 (m.exec op).1 ∧ (b.exec op).2 = (m.exec op).2 := by
  cases op with
  | add ref side price shares => exact ⟨h.add hroom, rfl⟩
  | reduce ref qty =>
      obtain ⟨htracks, hreturn⟩ := h.reduce ref qty
      exact ⟨htracks, congrArg some hreturn⟩
  | remove ref =>
      obtain ⟨htracks, hreturn⟩ := h.remove ref
      exact ⟨htracks, congrArg some hreturn⟩
  | replace origRef newRef newShares newPrice =>
      obtain ⟨htracks, hreturn⟩ := h.replace hroom
      exact ⟨htracks, congrArg some hreturn⟩

end Tracks

end HftOrderbook
