import HftOrderbook.Book.OrderBook
import Mathlib.Data.List.DropRight

/-!
# One book for each instrument

A feed of many symbols is routed by the `stock_locate` of its message headers. Books and symbols are
`std::unordered_map`s; nothing here depends on the order in which these are iterated.
-/

namespace HftOrderbook

/-! ### `emplace` -/

section Emplace

variable {κ β : Type} [DecidableEq κ]

/-- An entry that exists is kept. -/
def emplace (map : AList fun _ : κ => β) (kv : (_ : κ) × β) : AList fun _ : κ => β :=
  if kv.1 ∈ map then map else map.insert kv.1 kv.2

def emplaceAll (map : AList fun _ : κ => β) (entries : List ((_ : κ) × β)) :
    AList fun _ : κ => β :=
  entries.foldl emplace map

theorem lookup_emplace (map : AList fun _ : κ => β) (kv : (_ : κ) × β) (k : κ) :
    (emplace map kv).lookup k = (map.lookup k).or (if kv.1 = k then some kv.2 else none) := by
  unfold emplace
  by_cases hk : kv.1 = k
  · subst hk
    rw [if_pos rfl]
    by_cases hmem : kv.1 ∈ map
    · obtain ⟨v, hv⟩ := Option.isSome_iff_exists.mp (AList.lookup_isSome.mpr hmem)
      rw [if_pos hmem, hv, Option.some_or]
    · rw [if_neg hmem, AList.lookup_insert, AList.lookup_eq_none.mpr hmem, Option.none_or]
  · rw [if_neg hk, Option.or_none]
    split_ifs
    · rfl
    · exact AList.lookup_insert_ne (Ne.symm hk)

theorem lookup_emplaceAll (entries : List ((_ : κ) × β)) (map : AList fun _ : κ => β) (k : κ) :
    (emplaceAll map entries).lookup k = (map.lookup k).or (entries.dlookup k) := by
  induction entries generalizing map with
  | nil => exact (Option.or_none).symm
  | cons kv entries ih =>
      change (emplaceAll (emplace map kv) entries).lookup k = _
      rw [ih, lookup_emplace, Option.or_assoc]
      congr 1
      by_cases hk : kv.1 = k
      · subst hk
        rw [if_pos rfl, List.dlookup_cons_eq, Option.some_or]
      · rw [if_neg hk, List.dlookup_cons_ne _ _ (Ne.symm hk), Option.none_or]

end Emplace

/-! ### The set -/

structure BookSet where
  books : AList fun _ : UInt16 => OrderBook := ∅
  symbols : AList fun _ : UInt16 => List UInt8 := ∅

namespace BookSet

/-- ITCH symbols are padded with spaces on the right. -/
def trim (stock : List UInt8) : List UInt8 := stock.rdropWhile (· == 0x20)

/-- `books_[locate]`, which makes an empty book where there is none. -/
def bookAt (set : BookSet) (locate : UInt16) : OrderBook :=
  (set.books.lookup locate).getD .empty

def apply (set : BookSet) (m : Message) : BookSet :=
  match m.type with
  | .stockDirectory =>
      { books := set.books.insert m.stockLocate (set.bookAt m.stockLocate)
        symbols := set.symbols.insert m.stockLocate (trim m.stock) }
  | .addOrder | .addOrderMpid | .orderExecuted | .orderExecutedWithPrice | .orderCancel
  | .orderDelete | .orderReplace =>
      { set with books := set.books.insert m.stockLocate ((set.bookAt m.stockLocate).apply m) }
  | _ => set

def book (set : BookSet) (locate : UInt16) : Option OrderBook := set.books.lookup locate

def symbol (set : BookSet) (locate : UInt16) : List UInt8 := (set.symbols.lookup locate).getD []

def bookCount (set : BookSet) : Nat := set.books.entries.length

def totalOrders (set : BookSet) : Nat :=
  set.books.entries.foldl (fun n kv => n + kv.2.orderCount) 0

/-- The merged set, and the other one as it is left behind. -/
def mergeFrom (set other : BookSet) : BookSet × BookSet :=
  ({ books := emplaceAll set.books other.books.entries
     symbols := emplaceAll set.symbols other.symbols.entries }, {})

/-! ### What a set holds for one instrument -/

def AgreeAt (locate : UInt16) (set set' : BookSet) : Prop :=
  set.books.lookup locate = set'.books.lookup locate ∧
    set.symbols.lookup locate = set'.symbols.lookup locate

namespace AgreeAt

variable {locate : UInt16} {set set' : BookSet}

theorem symm (h : AgreeAt locate set set') : AgreeAt locate set' set := ⟨h.1.symm, h.2.symm⟩

theorem trans {set'' : BookSet} (h : AgreeAt locate set set') (h' : AgreeAt locate set' set'') :
    AgreeAt locate set set'' := ⟨h.1.trans h'.1, h.2.trans h'.2⟩

theorem apply (h : AgreeAt locate set set') (m : Message) :
    AgreeAt locate (set.apply m) (set'.apply m) := by
  obtain ⟨hbook, hsymbol⟩ := h
  by_cases hlocate : m.stockLocate = locate
  · subst hlocate
    unfold AgreeAt BookSet.apply bookAt
    rw [hbook]
    cases m.type <;> simp [AList.lookup_insert, hbook, hsymbol]
  · unfold AgreeAt BookSet.apply
    cases m.type <;> simp [AList.lookup_insert_ne (Ne.symm hlocate), hbook, hsymbol]

theorem apply_of_ne (h : AgreeAt locate set set') {m : Message} (hne : m.stockLocate ≠ locate) :
    AgreeAt locate (set.apply m) set' := by
  obtain ⟨hbook, hsymbol⟩ := h
  unfold AgreeAt BookSet.apply
  cases m.type <;> simp [AList.lookup_insert_ne (Ne.symm hne), hbook, hsymbol]

/-- What is held for an instrument depends on its own messages only: any selection that keeps these
gives the same. -/
theorem foldl_filter (h : AgreeAt locate set set') (keeps : Message → Bool)
    (hkeeps : ∀ m, m.stockLocate = locate → keeps m = true) (messages : List Message) :
    AgreeAt locate ((messages.filter keeps).foldl BookSet.apply set)
      (messages.foldl BookSet.apply set') := by
  induction messages generalizing set set' with
  | nil => exact h
  | cons m messages ih =>
      by_cases hkept : keeps m = true
      · rw [List.filter_cons_of_pos hkept]
        exact ih (h.apply m)
      · rw [List.filter_cons_of_neg hkept]
        have hne : m.stockLocate ≠ locate := fun hlocate => hkept (hkeeps m hlocate)
        exact ih (h.symm.apply_of_ne hne).symm

theorem foldl_of_forall_ne (h : AgreeAt locate set set') {messages : List Message}
    (hne : ∀ m ∈ messages, m.stockLocate ≠ locate) :
    AgreeAt locate (messages.foldl BookSet.apply set) set' := by
  induction messages generalizing set with
  | nil => exact h
  | cons m messages ih =>
      exact ih (h.apply_of_ne (hne m List.mem_cons_self))
        (fun m' hm' => hne m' (List.mem_cons_of_mem m hm'))

end AgreeAt

/-! ### Merging -/

theorem agreeAt_mergeFrom_right {locate : UInt16} {set : BookSet} (h : AgreeAt locate set {})
    (other : BookSet) : AgreeAt locate (set.mergeFrom other).1 other := by
  obtain ⟨hbook, hsymbol⟩ := h
  unfold AgreeAt mergeFrom
  rw [lookup_emplaceAll, lookup_emplaceAll, hbook, hsymbol]
  exact ⟨rfl, rfl⟩

theorem agreeAt_mergeFrom_left {locate : UInt16} {other : BookSet} (h : AgreeAt locate other {})
    (set : BookSet) : AgreeAt locate (set.mergeFrom other).1 set := by
  obtain ⟨hbook, hsymbol⟩ := h
  unfold AgreeAt mergeFrom
  rw [lookup_emplaceAll, lookup_emplaceAll]
  constructor
  · exact (congrArg _ hbook).trans (Option.or_none)
  · exact (congrArg _ hsymbol).trans (Option.or_none)

section MergeAll

variable {ι : Type} {locate : UInt16} {shards : ι → BookSet}

def mergeAll (out : BookSet) (shards : ι → BookSet) (order : List ι) : BookSet :=
  order.foldl (fun out w => (out.mergeFrom (shards w)).1) out

theorem agreeAt_mergeAll_of_empty {order : List ι}
    (hempty : ∀ w ∈ order, AgreeAt locate (shards w) {}) (out : BookSet) :
    AgreeAt locate (mergeAll out shards order) out := by
  induction order generalizing out with
  | nil => exact ⟨rfl, rfl⟩
  | cons w order ih =>
      have hrest := ih (fun w' hw' => hempty w' (List.mem_cons_of_mem w hw'))
        (out.mergeFrom (shards w)).1
      exact hrest.trans (agreeAt_mergeFrom_left (hempty w List.mem_cons_self) out)

/-- What only one shard holds is what the merged set holds. -/
theorem agreeAt_mergeAll {order : List ι} {owner : ι} (hnodup : order.Nodup)
    (howner : owner ∈ order) (hempty : ∀ w, w ≠ owner → AgreeAt locate (shards w) {})
    {out : BookSet} (hout : AgreeAt locate out {}) :
    AgreeAt locate (mergeAll out shards order) (shards owner) := by
  induction order generalizing out with
  | nil => cases howner
  | cons w order ih =>
      obtain ⟨hnotin, hnodup⟩ := List.nodup_cons.mp hnodup
      by_cases hw : w = owner
      · subst hw
        have hrest := agreeAt_mergeAll_of_empty
          (fun w' hw' => hempty w' (ne_of_mem_of_not_mem hw' hnotin)) (out.mergeFrom (shards w)).1
        exact hrest.trans (agreeAt_mergeFrom_right hout (shards w))
      · have howner' : owner ∈ order := (List.mem_cons.mp howner).resolve_left (Ne.symm hw)
        exact ih hnodup howner' ((agreeAt_mergeFrom_left (hempty w hw) out).trans hout)

end MergeAll

end BookSet

end HftOrderbook
