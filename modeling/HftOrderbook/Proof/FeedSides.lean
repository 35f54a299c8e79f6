import HftOrderbook.Feed.Framing
import HftOrderbook.Proof.BookRuns

/-!
# Sides from the wire

The decoder casts the side byte of an Add without looking at it, the book files everything that is
no buy with the asks, and the consistency check accepts only `Buy` and `Sell`. So the sides in the
book are real exactly as far as the bytes on the wire are.
-/

namespace HftOrderbook

def feedOps (buf : List UInt8) : List BookOp := (framedMessages buf).filterMap Message.bookOp?

def replay (msgs : List Message) : OrderBook :=
  msgs.foldl BasicOrderBook.apply BasicOrderBook.empty

/-- Every level of the bid store and of the ask store, where the book files every order that is no
buy, always sums to less than `2 ^ 32`. -/
def StoreLevelsFit (ops : List BookOp) : Prop :=
  ∀ pre, pre <+: ops → ∀ buy, ((LiveOrders.run pre).total buy).Fits

structure BasicOrderBook.OnlyRealSides (b : OrderBook) : Prop where
  sides : ∀ ref o, b.order? ref = some o → o.side.Real
  invariantOk : b.invariantOk = true

/-- The message adds an order: its type is an Add's and its size is not zero. -/
def Message.AddsOrder (msg : Message) : Prop :=
  (msg.type = .addOrder ∨ msg.type = .addOrderMpid) ∧ msg.shares ≠ 0

theorem Message.bookOp?_sided (msg : Message) :
    (∀ op, msg.bookOp? = some op → op.Sided) ↔ (msg.AddsOrder → msg.side.Real) := by
  unfold Message.bookOp? Message.AddsOrder
  cases msg.type <;> simp [BookOp.Sided]

theorem realSides_filterMap_iff (msgs : List Message) :
    RealSides (msgs.filterMap Message.bookOp?) ↔
      ∀ msg ∈ msgs, msg.AddsOrder → msg.side.Real := by
  simp only [RealSides, List.mem_filterMap, ← Message.bookOp?_sided]
  exact ⟨fun h msg hmem op hop => h op ⟨msg, hmem, hop⟩,
    fun h op ⟨msg, hmem, hop⟩ => h msg hmem op hop⟩

theorem lookup_run_add (pre : List BookOp) (ref : OrderRef) (side : Side) (price : Price)
    {shares : Qty} (hshares : shares ≠ 0) :
    (LiveOrders.run (pre ++ [.add ref side price shares])).lookup ref =
      some ⟨side, price, shares⟩ := by
  rw [LiveOrders.run_concat, LiveOrders.exec, LiveOrders.add, if_neg hshares, Finmap.lookup_insert]

theorem allReal_iff_realSides (ops : List BookOp) :
    (∀ pre, pre <+: ops → (LiveOrders.run pre).AllReal) ↔ RealSides ops := by
  constructor
  · intro hreal op hop
    cases op with
    | add ref side price shares =>
        intro hshares
        obtain ⟨pre, post, rfl⟩ := List.append_of_mem hop
        have hpre : pre ++ [.add ref side price shares] <+:
            pre ++ .add ref side price shares :: post := ⟨post, by simp⟩
        exact hreal _ hpre ref _ (lookup_run_add pre ref side price hshares)
    | reduce ref qty => trivial
    | remove ref => trivial
    | replace origRef newRef newShares newPrice => trivial
  · exact allReal_run

theorem onlyRealSides_replay_iff {msgs pre : List Message}
    (hfresh : FreshRefs (msgs.filterMap Message.bookOp?))
    (hfits : StoreLevelsFit (msgs.filterMap Message.bookOp?))
    (hslots : SlotsFit (msgs.filterMap Message.bookOp?)) (hpre : pre <+: msgs) :
    (replay pre).OnlyRealSides ↔ (LiveOrders.run (pre.filterMap Message.bookOp?)).AllReal := by
  have hinv := bookInv_run (S := MapLevels) hfresh hfits hslots (fun op _ => op.priced_true) _
    (hpre.filterMap Message.bookOp?)
  rw [replay, foldl_apply_eq_run]
  constructor
  · intro hsides ref o hlookup
    exact hsides.sides ref o ((hinv.tracks.order?_eq ref).trans hlookup)
  · intro hreal
    exact ⟨fun ref o horder => hreal ref o ((hinv.tracks.order?_eq ref).symm.trans horder),
      hinv.invariantOk hreal⟩

/-- The book keeps to real sides throughout a feed exactly when every Add of the feed has one, and
ends with real sides exactly when no order on another side is left. -/
theorem onlyRealSides_iff (buf : List UInt8) (hfresh : FreshRefs (feedOps buf))
    (hfits : StoreLevelsFit (feedOps buf)) (hslots : SlotsFit (feedOps buf)) :
    ((∀ pre, pre <+: framedMessages buf → (replay pre).OnlyRealSides) ↔
      ∀ msg ∈ framedMessages buf, msg.AddsOrder → msg.side.Real) ∧
    ((replay (framedMessages buf)).OnlyRealSides ↔ (LiveOrders.run (feedOps buf)).AllReal) := by
  refine ⟨?_, onlyRealSides_replay_iff hfresh hfits hslots List.prefix_rfl⟩
  calc (∀ pre, pre <+: framedMessages buf → (replay pre).OnlyRealSides)
      ↔ ∀ pre, pre <+: framedMessages buf →
          (LiveOrders.run (pre.filterMap Message.bookOp?)).AllReal :=
        forall₂_congr fun pre hpre => onlyRealSides_replay_iff hfresh hfits hslots hpre
    _ ↔ ∀ pre, pre <+: feedOps buf → (LiveOrders.run pre).AllReal :=
        Histories.forall_prefix_filterMap_iff (P := fun pre => (LiveOrders.run pre).AllReal) _
    _ ↔ RealSides (feedOps buf) := allReal_iff_realSides _
    _ ↔ ∀ msg ∈ framedMessages buf, msg.AddsOrder → msg.side.Real := realSides_filterMap_iff _

/-- A buffer with one framed Add: reference 1, ten shares at price 100, and the given side byte. -/
def oneAdd (side : UInt8) : List UInt8 :=
  [0, 36, 0x41, 0, 7, 0, 0, 0, 0, 0, 0, 0, 1, 0, 0, 0, 0, 0, 0, 0, 1, side, 0, 0, 0, 10,
    0x41, 0x42, 0x43, 0x20, 0x20, 0x20, 0x20, 0x20, 0, 0, 0, 100]

theorem feedOps_oneAdd (side : UInt8) : feedOps (oneAdd side) = [.add 1 ⟨side⟩ 100 10] := rfl

theorem storeLevelsFit_of_sumOver_lt {ops : List BookOp}
    (h : ∀ i ≤ ops.length,
      (LiveOrders.run (ops.take i)).sumOver (fun o => o.shares.toNat) < 2 ^ 32) :
    StoreLevelsFit ops := by
  refine Histories.forall_prefix_iff.mpr fun i hi buy price => ?_
  refine (Finmap.sumOver_mono fun o => ?_).trans_lt (h i hi)
  unfold LiveOrders.sharesAt
  split_ifs
  · exact le_rfl
  · exact Nat.zero_le _

theorem oneAdd_fits (side : UInt8) :
    FreshRefs (feedOps (oneAdd side)) ∧ StoreLevelsFit (feedOps (oneAdd side)) ∧
      SlotsFit (feedOps (oneAdd side)) := by
  -- the side is a variable, and neither the references nor the sums look at it
  rw [feedOps_oneAdd]
  refine ⟨?_, storeLevelsFit_of_sumOver_lt (of_decide_eq_true rfl), ?_⟩
  · rw [FreshRefs, Histories.forall_concat_prefix_iff]
    exact of_decide_eq_true rfl
  · exact slotsFit_of_length (by simp)

theorem onlyRealSides_iff_oneAdd : (replay (framedMessages (oneAdd 0x42))).OnlyRealSides := by
  obtain ⟨hfresh, hlevels, hslots⟩ := oneAdd_fits 0x42
  refine (onlyRealSides_iff (oneAdd 0x42) hfresh hlevels hslots).1.mpr ?_ _ List.prefix_rfl
  rw [← realSides_filterMap_iff]
  change RealSides (feedOps (oneAdd 0x42))
  rw [feedOps_oneAdd, RealSides]
  decide

/-- An Add with the side byte `X` rests on the ask side, and the consistency check fails. -/
theorem oneAdd_not_onlyRealSides :
    FreshRefs (feedOps (oneAdd 0x58)) ∧ StoreLevelsFit (feedOps (oneAdd 0x58)) ∧
      SlotsFit (feedOps (oneAdd 0x58)) ∧
      (replay (framedMessages (oneAdd 0x58))).bestAsk = some (100, 10) ∧
      (replay (framedMessages (oneAdd 0x58))).invariantOk = false ∧
      ¬ (replay (framedMessages (oneAdd 0x58))).OnlyRealSides := by
  obtain ⟨hfresh, hlevels, hslots⟩ := oneAdd_fits 0x58
  have hinvariant : (replay (framedMessages (oneAdd 0x58))).invariantOk = false := by decide
  refine ⟨hfresh, hlevels, hslots, by decide, hinvariant, fun hsides => ?_⟩
  exact absurd (hsides.invariantOk.symm.trans hinvariant) (by decide)

end HftOrderbook
