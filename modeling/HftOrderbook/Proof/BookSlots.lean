import HftOrderbook.Proof.BookRuns

/-!
# No two references share a slot

Nothing is asked of the calls here: references may be re-used while they are live, unknown to the
book or replaced onto each other, and sides and sizes are arbitrary. Only the levels depend on such
conditions. What is read through a reference is what was last written through it.
-/

namespace HftOrderbook

/-! ### The handles of an index -/

section Handles

variable {κ α : Type} {pool : ObjectPool α} {index : AList fun _ : κ => Handle}

def handlesOf (index : AList fun _ : κ => Handle) : List Handle := index.entries.map Sigma.snd

variable [DecidableEq κ]

theorem mem_handlesOf_iff {h : Handle} :
    h ∈ handlesOf index ↔ ∃ key, index.lookup key = some h := by
  rw [handlesOf, List.mem_map]
  constructor
  · rintro ⟨⟨key, h⟩, hmem, rfl⟩
    exact ⟨key, AList.mem_lookup_iff.mpr hmem⟩
  · rintro ⟨key, hlookup⟩
    exact ⟨⟨key, h⟩, AList.mem_lookup_iff.mp hlookup, rfl⟩

/-- One key to a handle, so the handles of the entries are as distinct as the entries. -/
theorem PoolInv.handles_nodup (hinv : PoolInv pool index) : (handlesOf index).Nodup := by
  refine List.Nodup.map_on ?_ index.nodupKeys.nodup
  rintro ⟨key, h⟩ hmem ⟨key', h'⟩ hmem' (rfl : h = h')
  have hkey : key = key' :=
    hinv.index_inj (AList.mem_lookup_iff.mpr hmem) (AList.mem_lookup_iff.mpr hmem')
  rw [hkey]

end Handles

/-! ### What a call writes under a reference -/

namespace BookOp

/-- The order a call stores under `ref`, where `order?` is what is read before it. -/
def stores (order? : OrderRef → Option Order) (ref : OrderRef) : BookOp → Option Order
  | .add ref' side price shares =>
      if ref' = ref ∧ shares ≠ 0 then some ⟨side, price, shares⟩ else none
  | .replace origRef newRef newShares newPrice =>
      if newRef = ref ∧ newShares ≠ 0 then
        (order? origRef).map fun o => ⟨o.side, newPrice, newShares⟩
      else none
  | _ => none

/-- What a call asks to take off the order under `ref`. -/
def reduction (ref : OrderRef) : BookOp → Nat
  | .reduce ref' qty => if ref' = ref then qty.toNat else 0
  | _ => 0

end BookOp

/-- `o` is the order that the latest call to store one under `ref` wrote, less what the reduce calls
on `ref` have taken off since. `order?` is what is read after each history. -/
def FromLatest (order? : List BookOp → OrderRef → Option Order) (ops : List BookOp)
    (ref : OrderRef) (o : Order) : Prop :=
  ∃ pre op post written, ops = pre ++ op :: post ∧
    op.stores (order? pre) ref = some written ∧
    (∀ mid op' rest, post = mid ++ op' :: rest →
      op'.stores (order? (pre ++ op :: mid)) ref = none) ∧
    o.side = written.side ∧ o.price = written.price ∧
    o.shares.toNat + (post.map (BookOp.reduction ref)).sum = written.shares.toNat

namespace LiveOrders

variable {m : LiveOrders} {ref : OrderRef} {o : Order}

theorem add_lookup {ref' : OrderRef} {side : Side} {price : Price} {shares : Qty}
    (hlookup : (m.add ref' side price shares).lookup ref = some o) :
    (ref' = ref ∧ shares ≠ 0) ∧ o = ⟨side, price, shares⟩ ∨
      ¬ (ref' = ref ∧ shares ≠ 0) ∧ m.lookup ref = some o := by
  unfold add at hlookup
  split_ifs at hlookup with hshares
  · exact Or.inr ⟨fun h => h.2 hshares, hlookup⟩
  · rcases Finmap.of_lookup_insert hlookup with ⟨rfl, rfl⟩ | ⟨hne, hold⟩
    · exact Or.inl ⟨⟨rfl, hshares⟩, rfl⟩
    · exact Or.inr ⟨fun h => hne h.1.symm, hold⟩

/-- An order that outlives a reduction lost all that was asked for. -/
theorem toNat_sub_min {shares qty : Qty} (hleft : shares - min qty shares ≠ 0) :
    (shares - min qty shares).toNat + qty.toNat = shares.toNat := by
  rw [← BasicOrderBook.clamp_eq_min] at hleft ⊢
  split_ifs at hleft ⊢ with hlt
  · rw [UInt32.toNat_sub_of_le _ _ (UInt32.le_of_lt hlt)]
    have hle : qty.toNat < shares.toNat := UInt32.lt_iff_toNat_lt.mp hlt
    omega
  · exact absurd (UInt32.sub_self shares) hleft

theorem reduce_lookup {ref' : OrderRef} {qty : Qty}
    (hlookup : (m.reduce ref' qty).1.lookup ref = some o) :
    ∃ old, m.lookup ref = some old ∧ o.side = old.side ∧ o.price = old.price ∧
      o.shares.toNat + (if ref' = ref then qty.toNat else 0) = old.shares.toNat := by
  unfold reduce at hlookup
  cases hold : m.lookup ref' with
  | none =>
      rw [hold] at hlookup
      have hne : ref' ≠ ref := by
        rintro rfl
        exact nomatch hold.symm.trans hlookup
      exact ⟨o, hlookup, rfl, rfl, by rw [if_neg hne, Nat.add_zero]⟩
  | some old =>
      simp only [hold] at hlookup
      split_ifs at hlookup with hleft
      · obtain ⟨hne, hsame⟩ := Finmap.of_lookup_erase hlookup
        exact ⟨o, hsame, rfl, rfl, by rw [if_neg (Ne.symm hne), Nat.add_zero]⟩
      · rcases Finmap.of_lookup_insert hlookup with ⟨rfl, rfl⟩ | ⟨hne, hsame⟩
        · exact ⟨old, hold, rfl, rfl, by rw [if_pos rfl]; exact toNat_sub_min hleft⟩
        · exact ⟨o, hsame, rfl, rfl, by rw [if_neg (Ne.symm hne), Nat.add_zero]⟩

/-- What is read under `ref` after a call was written by it, or was there before and has lost what
the call takes off `ref`. -/
theorem lookup_exec {op : BookOp} (hlookup : (m.exec op).1.lookup ref = some o) :
    op.stores m.lookup ref = some o ∨
      op.stores m.lookup ref = none ∧ ∃ old, m.lookup ref = some old ∧
        o.side = old.side ∧ o.price = old.price ∧
        o.shares.toNat + op.reduction ref = old.shares.toNat := by
  cases op with
  | add ref' side price shares =>
      rcases add_lookup hlookup with ⟨hstores, rfl⟩ | ⟨hstores, hold⟩
      · exact Or.inl (if_pos hstores)
      · exact Or.inr ⟨if_neg hstores, o, hold, rfl, rfl, rfl⟩
  | reduce ref' qty => exact Or.inr ⟨rfl, reduce_lookup hlookup⟩
  | remove ref' =>
      change (m.remove ref').1.lookup ref = some o at hlookup
      rw [remove_eq_erase] at hlookup
      exact Or.inr ⟨rfl, o, (Finmap.of_lookup_erase hlookup).2, rfl, rfl, rfl⟩
  | replace origRef newRef newShares newPrice =>
      change (m.replace origRef newRef newShares newPrice).1.lookup ref = some o at hlookup
      unfold replace at hlookup
      cases horig : m.lookup origRef with
      | none =>
          rw [horig] at hlookup
          refine Or.inr ⟨?_, o, hlookup, rfl, rfl, rfl⟩
          rw [BookOp.stores, horig, Option.map_none, ite_self]
      | some orig =>
          simp only [horig] at hlookup
          rcases add_lookup hlookup with ⟨hstores, rfl⟩ | ⟨hstores, hold⟩
          · refine Or.inl ?_
            rw [BookOp.stores, if_pos hstores, horig, Option.map_some]
          · exact Or.inr ⟨if_neg hstores, o, (Finmap.of_lookup_erase hold).2, rfl, rfl, rfl⟩

end LiveOrders

/-! ### Runs -/

namespace FromLatest

variable {order? : List BookOp → OrderRef → Option Order} {ops : List BookOp} {op : BookOp}
  {ref : OrderRef} {o old : Order}

theorem of_stores (hstores : op.stores (order? ops) ref = some o) :
    FromLatest order? (ops ++ [op]) ref o := by
  refine ⟨ops, op, [], o, rfl, hstores, fun mid op' rest hnil => ?_, rfl, rfl, rfl⟩
  exact absurd hnil.symm (List.append_ne_nil_of_right_ne_nil _ (List.cons_ne_nil _ _))

theorem concat (h : FromLatest order? ops ref old) (hstores : op.stores (order? ops) ref = none)
    (hside : o.side = old.side) (hprice : o.price = old.price)
    (hshares : o.shares.toNat + op.reduction ref = old.shares.toNat) :
    FromLatest order? (ops ++ [op]) ref o := by
  obtain ⟨pre, first, post, written, rfl, hwrote, hlater, hside', hprice', hshares'⟩ := h
  refine ⟨pre, first, post ++ [op], written, by simp, hwrote, fun mid op' rest hpost => ?_,
    hside.trans hside', hprice.trans hprice', ?_⟩
  · rcases List.eq_nil_or_concat' rest with rfl | ⟨rest, last, rfl⟩
    · obtain ⟨rfl, hop⟩ := List.append_inj' hpost rfl
      obtain rfl : op = op' := List.singleton_inj.mp hop
      exact hstores
    · rw [← List.cons_append, ← List.append_assoc] at hpost
      exact hlater mid op' rest (List.append_inj' hpost rfl).1
  · rw [List.map_append, List.sum_append, List.map_singleton, List.sum_singleton]
    omega

end FromLatest

variable {S : Compare → Type} [LevelStore S]

theorem fromLatest_run {ops : List BookOp} (hslots : SlotsFit ops) :
    ∀ pre, pre <+: ops → ∀ ref o, (BasicOrderBook.run S pre).order? ref = some o →
      FromLatest (fun ops => (BasicOrderBook.run S ops).order?) pre ref o := by
  refine Histories.forall_prefix ?_ fun pre op hpre ih ref o horder => ?_
  · intro ref o horder
    have hempty : (BasicOrderBook.run S []).order? ref = (∅ : LiveOrders).lookup ref :=
      Tracks.empty.order?_eq ref
    rw [hempty, Finmap.lookup_empty] at horder
    cases horder
  · have hread : (BasicOrderBook.run S pre).order? = (LiveOrders.run pre).lookup := by
      funext ref'
      exact (tracks_run hslots pre ((List.prefix_append _ _).trans hpre)).order?_eq ref'
    rw [(tracks_run hslots _ hpre).order?_eq, LiveOrders.run_concat] at horder
    rcases LiveOrders.lookup_exec horder with hstores | ⟨hstores, old, hold, hside, hprice, hshares⟩
    · exact FromLatest.of_stores (hread ▸ hstores)
    · exact (ih ref old (hread ▸ hold)).concat (hread ▸ hstores) hside hprice hshares

/-- The slots of a book after any calls whatsoever. -/
theorem slots_not_shared (ops : List BookOp) (hslots : SlotsFit ops) :
    (handlesOf (BasicOrderBook.run S ops).index).Nodup ∧
      (∀ h ∈ handlesOf (BasicOrderBook.run S ops).index,
        h.toNat < (BasicOrderBook.run S ops).orders.capacity ∧
          h ∉ (BasicOrderBook.run S ops).orders.freed) ∧
      (BasicOrderBook.run S ops).orders.freed.Nodup ∧
      ∀ ref h, (BasicOrderBook.run S ops).index.lookup ref = some h →
        FromLatest (fun pre => (BasicOrderBook.run S pre).order?) ops ref
          ((BasicOrderBook.run S ops).orders.get h) := by
  have hpool := (tracks_run (S := S) hslots ops List.prefix_rfl).pool
  refine ⟨hpool.handles_nodup, fun h hmem => ?_, hpool.freed_nodup, fun ref h hlookup => ?_⟩
  · obtain ⟨ref, hlookup⟩ := mem_handlesOf_iff.mp hmem
    exact ⟨hpool.index_lt hlookup, hpool.index_notMem_freed hlookup⟩
  · refine fromLatest_run hslots ops List.prefix_rfl ref _ ?_
    rw [BasicOrderBook.order?, ObjectPool.stored, hlookup, Option.map_some]

/-- A live reference is added again, which strands its first slot; the slot of the second order is
freed, taken by an order with no real side, and freed and taken once more by a replace of that order
onto its own reference. -/
def recycledSlot : List BookOp :=
  [.add 1 Side.buy 100 5, .add 1 Side.sell 101 6, .remove 1, .add 2 Side.none 102 7,
    .replace 2 2 9 103, .replace 4 1 8 100, .reduce 2 4, .add 3 Side.buy 100 1]

theorem slots_not_shared_recycledSlot :
    (BasicOrderBook.run MapLevels recycledSlot).index.lookup 2 = some 1 ∧
      (handlesOf (BasicOrderBook.run MapLevels recycledSlot).index).Nodup ∧
      FromLatest (fun pre => (BasicOrderBook.run MapLevels pre).order?) recycledSlot 2
        ⟨Side.none, 103, 5⟩ := by
  have hlookup : (BasicOrderBook.run MapLevels recycledSlot).index.lookup 2 = some 1 := by decide
  obtain ⟨hnodup, -, -, hlatest⟩ :=
    slots_not_shared (S := MapLevels) recycledSlot (slotsFit_of_length (by decide))
  exact ⟨hlookup, hnodup, hlatest 2 1 hlookup⟩

end HftOrderbook
