import HftOrderbook.Proof.BookRuns
import HftOrderbook.Book.BookSet

/-!
# Histories that introduce each reference once

The conditions under which a book answers as its live orders say, read off the calls alone: if no
reference is introduced twice and all the shares ever introduced add up to less than `2 ^ 32`, every
reference is fresh when it is used and no level can wrap. A feed of many symbols passes this on to
each of its books.
-/

namespace HftOrderbook

/-- The order a call may create: its reference and its shares. -/
def BookOp.introduced : BookOp → Option (OrderRef × Qty)
  | .add ref _ _ shares => some (ref, shares)
  | .replace _ newRef newShares _ => some (newRef, newShares)
  | _ => none

def introducedRefs (ops : List BookOp) : List OrderRef :=
  (ops.filterMap BookOp.introduced).map Prod.fst

def introducedShares (ops : List BookOp) : Nat :=
  ((ops.filterMap BookOp.introduced).map fun e => e.2.toNat).sum

/-! ### Fresh references -/

theorem LiveOrders.mem_exec {m : LiveOrders} {op : BookOp} {ref : OrderRef}
    (h : ref ∈ (m.exec op).1) : ref ∈ m ∨ ∃ shares, op.introduced = some (ref, shares) := by
  have hadd : ∀ {m : LiveOrders} {ref' side price shares}, ref ∈ m.add ref' side price shares →
      ref ∈ m ∨ ref = ref' := by
    intro m ref' side price shares hmem
    rcases m.add_cases ref' side price shares with heq | ⟨-, heq⟩
    · exact Or.inl (heq ▸ hmem)
    · rw [heq] at hmem
      exact (Finmap.mem_insert.mp hmem).symm
  cases op with
  | add ref' side price shares =>
      rcases hadd h with hmem | rfl
      · exact Or.inl hmem
      · exact Or.inr ⟨shares, rfl⟩
  | reduce ref' qty =>
      refine Or.inl ?_
      change ref ∈ (m.reduce ref' qty).1 at h
      rcases m.reduce_cases ref' qty with heq | heq | ⟨o, hlookup, heq⟩
      · rwa [heq] at h
      · rw [heq] at h
        exact (Finmap.mem_erase.mp h).2
      · rw [heq] at h
        rcases Finmap.mem_insert.mp h with rfl | hmem
        · exact Finmap.mem_of_lookup_eq_some hlookup
        · exact hmem
  | remove ref' =>
      change ref ∈ (m.remove ref').1 at h
      rw [LiveOrders.remove_eq_erase] at h
      exact Or.inl (Finmap.mem_erase.mp h).2
  | replace origRef newRef newShares newPrice =>
      change ref ∈ (m.replace origRef newRef newShares newPrice).1 at h
      rcases m.replace_cases origRef newRef newShares newPrice with heq | ⟨o, -, heq⟩
      · exact Or.inl (heq ▸ h)
      · rw [heq] at h
        rcases hadd h with hmem | rfl
        · exact Or.inl (Finmap.mem_erase.mp hmem).2
        · exact Or.inr ⟨newShares, rfl⟩

theorem introducedRefs_concat (ops : List BookOp) (op : BookOp) :
    introducedRefs (ops ++ [op]) = introducedRefs ops ++ (op.introduced.map Prod.fst).toList := by
  unfold introducedRefs
  rw [List.filterMap_append, List.map_append]
  cases hop : op.introduced <;> simp [hop]

theorem introducedShares_concat (ops : List BookOp) (op : BookOp) :
    introducedShares (ops ++ [op]) =
      introducedShares ops + (op.introduced.elim 0 fun e => e.2.toNat) := by
  unfold introducedShares
  rw [List.filterMap_append, List.map_append, List.sum_append]
  cases hop : op.introduced <;> simp [hop]

theorem mem_introducedRefs_of_mem_run {ops : List BookOp} {ref : OrderRef}
    (h : ref ∈ LiveOrders.run ops) : ref ∈ introducedRefs ops := by
  induction ops using List.reverseRecOn with
  | nil => exact absurd h (Finmap.notMem_empty)
  | append_singleton ops op ih =>
      rw [LiveOrders.run_concat] at h
      rw [introducedRefs_concat, List.mem_append]
      rcases LiveOrders.mem_exec h with hmem | ⟨shares, hop⟩
      · exact Or.inl (ih hmem)
      · exact Or.inr (by simp [hop])

theorem freshRefs_of_nodup {ops : List BookOp} (h : (introducedRefs ops).Nodup) :
    FreshRefs ops := by
  intro pre op hpre
  have hnodup : (introducedRefs (pre ++ [op])).Nodup := by
    obtain ⟨rest, rfl⟩ := hpre
    unfold introducedRefs at h ⊢
    rw [List.filterMap_append, List.map_append] at h
    exact (List.nodup_append.mp h).1
  rw [introducedRefs_concat] at hnodup
  have hnew : ∀ ref shares, op.introduced = some (ref, shares) → ref ∉ LiveOrders.run pre := by
    intro ref shares hop hmem
    rw [hop] at hnodup
    exact (List.nodup_append.mp hnodup).2.2 ref (mem_introducedRefs_of_mem_run hmem) ref
      (by simp) rfl
  cases op with
  | add ref side price shares => exact fun _ => hnew ref shares rfl
  | reduce ref qty => trivial
  | remove ref => trivial
  | replace origRef newRef newShares newPrice =>
      exact fun _ _ hmem => hnew newRef newShares rfl (Finmap.mem_erase.mp hmem).2

/-! ### Totals -/

theorem LiveOrders.sumOver_exec_le (m : LiveOrders) (op : BookOp) :
    (m.exec op).1.sumOver (fun o => o.shares.toNat) ≤
      m.sumOver (fun o => o.shares.toNat) + op.introduced.elim 0 fun e => e.2.toNat := by
  set f : Order → Nat := fun o => o.shares.toNat with hf
  have hadd : ∀ (m : LiveOrders) ref side price shares,
      (m.add ref side price shares).sumOver f ≤ m.sumOver f + shares.toNat := by
    intro m ref side price shares
    rcases m.add_cases ref side price shares with heq | ⟨-, heq⟩
    · rw [heq]
      exact Nat.le_add_right _ _
    · rw [heq]
      exact Finmap.sumOver_insert_le m ref ⟨side, price, shares⟩ f
  cases op with
  | add ref side price shares => exact hadd m ref side price shares
  | reduce ref qty =>
      change (m.reduce ref qty).1.sumOver f ≤ m.sumOver f
      rcases m.reduce_cases ref qty with heq | heq | ⟨o, hlookup, heq⟩
      · rw [heq]
      · rw [heq]
        exact Finmap.sumOver_erase_le m ref f
      · rw [heq]
        set left := o.shares - min qty o.shares
        have hinsert : (m.insert ref { o with shares := left }).sumOver f + o.shares.toNat =
            m.sumOver f + left.toNat := Finmap.sumOver_insert_of_lookup hlookup f
        have hleft : left.toNat = o.shares.toNat - (min qty o.shares).toNat :=
          UInt32.toNat_sub_of_le _ _ (BasicOrderBook.min_le_shares qty o.shares)
        omega
  | remove ref =>
      change (m.remove ref).1.sumOver f ≤ m.sumOver f
      rw [remove_eq_erase]
      exact Finmap.sumOver_erase_le m ref f
  | replace origRef newRef newShares newPrice =>
      change (m.replace origRef newRef newShares newPrice).1.sumOver f ≤
        m.sumOver f + newShares.toNat
      rcases m.replace_cases origRef newRef newShares newPrice with heq | ⟨o, -, heq⟩
      · rw [heq]
        exact Nat.le_add_right _ _
      · calc
          (m.replace origRef newRef newShares newPrice).1.sumOver f ≤
              (m.erase origRef).sumOver f + newShares.toNat := by
            rw [heq]
            exact hadd (m.erase origRef) newRef o.side newPrice newShares
          _ ≤ m.sumOver f + newShares.toNat := by
            gcongr
            exact Finmap.sumOver_erase_le m origRef f

theorem LiveOrders.sumOver_run_le (ops : List BookOp) :
    (LiveOrders.run ops).sumOver (fun o => o.shares.toNat) ≤ introducedShares ops := by
  induction ops using List.reverseRecOn with
  | nil => exact le_rfl
  | append_singleton ops op ih =>
      rw [LiveOrders.run_concat, introducedShares_concat]
      exact (LiveOrders.sumOver_exec_le _ op).trans (Nat.add_le_add_right ih _)

theorem introducedShares_mono {pre ops : List BookOp} (h : pre <+: ops) :
    introducedShares pre ≤ introducedShares ops := by
  obtain ⟨rest, rfl⟩ := h
  unfold introducedShares
  rw [List.filterMap_append, List.map_append, List.sum_append]
  exact Nat.le_add_right _ _

theorem levelsFit_of_introducedShares {ops : List BookOp} (h : introducedShares ops < 2 ^ 32) :
    LevelsFit ops := by
  refine levelsFit_of_sumOver_lt fun i _ => ?_
  have hmono := introducedShares_mono (List.take_prefix i ops)
  exact ((LiveOrders.sumOver_run_le _).trans hmono).trans_lt h

/-- What a feed promises of the calls it makes on one book. -/
structure FreshFeed (ops : List BookOp) : Prop where
  refs : (introducedRefs ops).Nodup
  sides : RealSides ops
  shares : introducedShares ops < 2 ^ 32
  length : ops.length < 2 ^ 32

theorem FreshFeed.answersAs {ops : List BookOp} (h : FreshFeed ops) :
    ∀ pre, pre <+: ops → (BasicOrderBook.run MapLevels pre).AnswersAs (LiveOrders.run pre) := by
  intro pre hpre
  obtain ⟨hinv, hreal⟩ := orderBookInv_run (freshRefs_of_nodup h.refs) h.sides
    (levelsFit_of_introducedShares h.shares) (slotsFit_of_length h.length) hpre
  exact hinv.answersAs hreal

/-! ### Books of a set -/

namespace BookSet

theorem bookAt_apply (set : BookSet) (m : Message) (locate : UInt16) :
    (set.apply m).bookAt locate =
      if m.stockLocate = locate then (set.bookAt locate).apply m else set.bookAt locate := by
  unfold BookSet.apply BasicOrderBook.apply bookAt
  split_ifs with hlocate
  · subst hlocate
    cases m.type <;> simp [AList.lookup_insert]
  · cases m.type <;> simp [AList.lookup_insert_ne (Ne.symm hlocate)]

theorem bookAt_foldl (messages : List Message) (locate : UInt16) :
    (messages.foldl BookSet.apply {}).bookAt locate =
      (messages.filter fun m => m.stockLocate = locate).foldl BasicOrderBook.apply .empty := by
  induction messages using List.reverseRecOn with
  | nil => rfl
  | append_singleton messages m ih =>
      rw [List.foldl_append, List.filter_append, List.foldl_append, ← ih]
      change (BookSet.apply _ m).bookAt locate = _
      rw [bookAt_apply]
      split_ifs with hlocate
      · simp [hlocate]
      · simp [hlocate]

end BookSet

/-- The calls a feed makes on the book of one instrument. -/
def bookOpsAt (messages : List Message) (locate : UInt16) : List BookOp :=
  (messages.filter fun m => m.stockLocate = locate).filterMap Message.bookOp?

theorem bookOpsAt_sublist (messages : List Message) (locate : UInt16) :
    (bookOpsAt messages locate).Sublist (messages.filterMap Message.bookOp?) :=
  List.filter_sublist.filterMap _

theorem FreshFeed.of_sublist {ops ops' : List BookOp} (h : FreshFeed ops)
    (hsub : ops'.Sublist ops) : FreshFeed ops' where
  refs := h.refs.sublist ((hsub.filterMap _).map _)
  sides op hop := h.sides op (hsub.subset hop)
  shares := by
    refine lt_of_le_of_lt ?_ h.shares
    exact List.Sublist.sum_le_sum ((hsub.filterMap _).map _) fun _ _ => Nat.zero_le _
  length := hsub.length_le.trans_lt h.length

/-- Every book of a set stays consistent along a feed that introduces each reference once. -/
theorem FreshFeed.bookSet_invariantOk {messages : List Message}
    (h : FreshFeed (messages.filterMap Message.bookOp?)) :
    ∀ pre, pre <+: messages → ∀ locate book,
      (pre.foldl BookSet.apply {}).book locate = some book → book.invariantOk = true := by
  intro pre hpre locate book hbook
  have hat : (pre.foldl BookSet.apply {}).bookAt locate = book := by
    rw [BookSet.bookAt]
    exact Option.getD_eq_iff.mpr (Or.inl hbook)
  have hops := (h.of_sublist (hpre.filterMap _).sublist).of_sublist (bookOpsAt_sublist pre locate)
  rw [← hat, BookSet.bookAt_foldl, foldl_apply_eq_run]
  exact (hops.answersAs _ List.prefix_rfl).invariantOk

end HftOrderbook
