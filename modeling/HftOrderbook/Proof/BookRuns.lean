import HftOrderbook.Proof.BookAnswers
import HftOrderbook.Library.Histories

/-!
# Runs of the book

The step lemmas carried over whole histories of calls. Pool and index evolve the same way whatever
the level store is, so two books with different stores differ only in their stores.
-/

namespace HftOrderbook

variable {S S' : Compare → Type} [LevelStore S] [LevelStore S']

theorem BasicOrderBook.run_concat (pre : List BookOp) (op : BookOp) :
    run S (pre ++ [op]) = ((run S pre).exec op).1 := by
  rw [run, List.foldl_append]
  rfl

theorem LiveOrders.run_concat (pre : List BookOp) (op : BookOp) :
    run (pre ++ [op]) = ((run pre).exec op).1 := by
  rw [run, List.foldl_append]
  rfl

theorem BookOp.priced_true (op : BookOp) : op.Priced fun _ => True := by
  cases op <;> trivial

/-! ### The pool does not see the store -/

structure SamePool (b : BasicOrderBook S) (b' : BasicOrderBook S') : Prop where
  orders : b.orders = b'.orders
  index : b.index = b'.index

namespace SamePool

variable {b : BasicOrderBook S} {b' : BasicOrderBook S'}

theorem add (h : SamePool b b') (ref : OrderRef) (side : Side) (price : Price) (shares : Qty) :
    SamePool (b.add ref side price shares) (b'.add ref side price shares) := by
  unfold BasicOrderBook.add
  split_ifs
  · exact h
  · constructor <;> simp [h.orders, h.index]

theorem remove (h : SamePool b b') (ref : OrderRef) :
    SamePool (b.remove ref).1 (b'.remove ref).1 := by
  unfold BasicOrderBook.remove
  rw [h.index]
  cases b'.index.lookup ref with
  | none => exact h
  | some handle => constructor <;> simp [h.orders, h.index]

theorem reduce (h : SamePool b b') (ref : OrderRef) (qty : Qty) :
    SamePool (b.reduce ref qty).1 (b'.reduce ref qty).1 := by
  unfold BasicOrderBook.reduce
  rw [h.index]
  cases b'.index.lookup ref with
  | none => exact h
  | some handle =>
      dsimp only
      rw [h.orders]
      split_ifs <;> constructor <;> simp

theorem replace (h : SamePool b b') (origRef newRef : OrderRef) (newShares : Qty)
    (newPrice : Price) : SamePool (b.replace origRef newRef newShares newPrice).1
      (b'.replace origRef newRef newShares newPrice).1 := by
  unfold BasicOrderBook.replace
  rw [h.index]
  cases b'.index.lookup origRef with
  | none => exact h
  | some handle =>
      dsimp only
      rw [h.orders]
      exact (h.remove origRef).add _ _ _ _

theorem exec (h : SamePool b b') (op : BookOp) : SamePool (b.exec op).1 (b'.exec op).1 := by
  cases op with
  | add ref side price shares => exact h.add ref side price shares
  | reduce ref qty => exact h.reduce ref qty
  | remove ref => exact h.remove ref
  | replace origRef newRef newShares newPrice =>
      exact h.replace origRef newRef newShares newPrice

theorem run (ops : List BookOp) :
    SamePool (BasicOrderBook.run S ops) (BasicOrderBook.run S' ops) := by
  induction ops using List.reverseRecOn with
  | nil => exact ⟨rfl, rfl⟩
  | append_singleton ops op ih =>
      rw [BasicOrderBook.run_concat, BasicOrderBook.run_concat]
      exact ih.exec op

end SamePool

/-! ### Slots -/

theorem BasicOrderBook.capacity_exec_le (b : BasicOrderBook S) (op : BookOp) :
    (b.exec op).1.orders.capacity ≤ b.orders.capacity + 1 := by
  have hadd : ∀ (b : BasicOrderBook S) ref side price shares,
      (b.add ref side price shares).orders.capacity ≤ b.orders.capacity + 1 := by
    intro b ref side price shares
    unfold BasicOrderBook.add
    split_ifs
    · exact Nat.le_succ _
    · simp only [incLevel_orders, ObjectPool.set, ObjectPool.capacity, List.length_set]
      unfold ObjectPool.alloc
      split
      · exact Nat.le_succ _
      · simp
  have hremove : ∀ ref, (b.remove ref).1.orders.capacity = b.orders.capacity := by
    intro ref
    unfold BasicOrderBook.remove
    cases b.index.lookup ref with
    | none => rfl
    | some h => simp [ObjectPool.free, ObjectPool.capacity]
  cases op with
  | add ref side price shares => exact hadd b ref side price shares
  | reduce ref qty =>
      change (b.reduce ref qty).1.orders.capacity ≤ _
      unfold BasicOrderBook.reduce
      cases b.index.lookup ref with
      | none => exact Nat.le_succ _
      | some h =>
          dsimp only
          split_ifs <;> simp [ObjectPool.free, ObjectPool.set, ObjectPool.capacity]
  | remove ref => exact (hremove ref).le.trans (Nat.le_succ _)
  | replace origRef newRef newShares newPrice =>
      change (b.replace origRef newRef newShares newPrice).1.orders.capacity ≤ _
      unfold BasicOrderBook.replace
      cases b.index.lookup origRef with
      | none => exact Nat.le_succ _
      | some h => exact (hadd _ _ _ _ _).trans (Nat.add_le_add_right (hremove origRef).le 1)

theorem BasicOrderBook.capacity_run_le (ops : List BookOp) :
    (BasicOrderBook.run S ops).orders.capacity ≤ ops.length := by
  induction ops using List.reverseRecOn with
  | nil => exact le_rfl
  | append_singleton ops op ih =>
      rw [BasicOrderBook.run_concat, List.length_append, List.length_singleton]
      exact (capacity_exec_le _ op).trans (Nat.add_le_add_right ih 1)

theorem slotsFit_of_length {ops : List BookOp} (h : ops.length < 2 ^ 32) : SlotsFit ops :=
  fun pre hpre => (BasicOrderBook.capacity_run_le pre).trans_lt (hpre.length_le.trans_lt h)

/-! ### Invariants over histories -/

variable {ops : List BookOp}

theorem RealSides.of_prefix (h : RealSides ops) {pre : List BookOp} (hpre : pre <+: ops) :
    RealSides pre := fun op hop => h op (hpre.subset hop)

theorem LevelsFit.of_prefix (h : LevelsFit ops) {pre : List BookOp} (hpre : pre <+: ops) :
    LevelsFit pre := fun pre' hpre' => h pre' (hpre'.trans hpre)

theorem SlotsFit.of_prefix (h : SlotsFit ops) {pre : List BookOp} (hpre : pre <+: ops) :
    SlotsFit pre := fun pre' hpre' => h pre' (hpre'.trans hpre)

theorem FreshRefs.concat {pre : List BookOp} {op : BookOp} (h : FreshRefs pre)
    (hop : (LiveOrders.run pre).Fresh op) : FreshRefs (pre ++ [op]) := by
  intro pre' op' hpre'
  rcases List.prefix_concat_iff.mp hpre' with heq | hpre'
  · obtain ⟨rfl, hop'⟩ := List.append_inj' heq rfl
    exact List.singleton_inj.mp hop' ▸ hop
  · exact h pre' op' hpre'

theorem SlotsFit.capacity_le (hslots : SlotsFit ops) {pre : List BookOp} (hpre : pre <+: ops) :
    (BasicOrderBook.run S pre).orders.capacity ≤ 2 ^ 32 := by
  have hpool : SamePool (BasicOrderBook.run S pre) (BasicOrderBook.run MapLevels pre) :=
    SamePool.run pre
  rw [hpool.orders]
  exact (hslots pre hpre).le

theorem tracks_run (hslots : SlotsFit ops) :
    ∀ pre, pre <+: ops → Tracks (BasicOrderBook.run S pre) (LiveOrders.run pre) := by
  refine Histories.forall_prefix Tracks.empty fun pre op hpre ih => ?_
  have hroom := hslots.capacity_le (S := S) hpre
  rw [BasicOrderBook.run_concat] at hroom
  rw [BasicOrderBook.run_concat, LiveOrders.run_concat]
  exact (ih.exec hroom).1

theorem allReal_run (hsided : RealSides ops) :
    ∀ pre, pre <+: ops → (LiveOrders.run pre).AllReal := by
  refine Histories.forall_prefix (fun ref o hlookup => ?_) fun pre op hpre ih => ?_
  · cases hlookup
  · rw [LiveOrders.run_concat]
    exact ih.exec (hsided op (hpre.subset (by simp)))

theorem LevelsFit.total_fits (hfits : LevelsFit ops) (hsided : RealSides ops) :
    ∀ pre, pre <+: ops → ∀ buy, ((LiveOrders.run pre).total buy).Fits := by
  intro pre hpre buy price
  cases buy
  · rw [← LiveOrders.qtyAt_sell (allReal_run hsided pre hpre)]
    exact hfits pre hpre Side.sell price
  · rw [← LiveOrders.qtyAt_buy]
    exact hfits pre hpre Side.buy price

/-- Enough to see that no level wraps: all live shares together stay below `2 ^ 32`. -/
theorem levelsFit_of_sumOver_lt
    (h : ∀ i ≤ ops.length,
      (LiveOrders.run (ops.take i)).sumOver (fun o => o.shares.toNat) < 2 ^ 32) :
    LevelsFit ops := by
  refine Histories.forall_prefix_iff.mpr fun i hi side price => ?_
  refine (Finmap.sumOver_mono fun o => ?_).trans_lt (h i hi)
  split_ifs
  · exact le_rfl
  · exact Nat.zero_le _

variable {admissible : Price → Prop} [LawfulLevelStore S admissible]

theorem bookInv_run (hfresh : FreshRefs ops)
    (hfits : ∀ pre, pre <+: ops → ∀ buy, ((LiveOrders.run pre).total buy).Fits)
    (hslots : SlotsFit ops) (hpriced : ∀ op ∈ ops, op.Priced admissible) :
    ∀ pre, pre <+: ops → BookInv (BasicOrderBook.run S pre) (LiveOrders.run pre) := by
  refine Histories.forall_prefix BookInv.empty fun pre op hpre ih => ?_
  have hroom := hslots.capacity_le (S := S) hpre
  have hfit := hfits _ hpre
  rw [BasicOrderBook.run_concat] at hroom
  rw [LiveOrders.run_concat] at hfit
  rw [BasicOrderBook.run_concat, LiveOrders.run_concat]
  exact ih.exec (hfresh pre op hpre) (hpriced op (hpre.subset (by simp))) hfit hroom

/-- The book over the map store, which takes every price. -/
theorem orderBookInv_run (hfresh : FreshRefs ops) (hsided : RealSides ops) (hfits : LevelsFit ops)
    (hslots : SlotsFit ops) {pre : List BookOp} (hpre : pre <+: ops) :
    BookInv (BasicOrderBook.run MapLevels pre) (LiveOrders.run pre) ∧
      (LiveOrders.run pre).AllReal := by
  have hpriced : ∀ op ∈ ops, op.Priced fun _ => True := fun op _ => op.priced_true
  exact ⟨bookInv_run hfresh (hfits.total_fits hsided) hslots hpriced pre hpre,
    allReal_run hsided pre hpre⟩

end HftOrderbook
