import HftOrderbook.Core.Types
import HftOrderbook.Library.OrderedMap

/-!
# Price-level stores

The book is written against a store of price levels, one per side, ordered best quote first.
`LevelStore` is that interface. What a store is for is said without it: the levels of a side are a
function from prices to totals, and `IsLadder` lists its support in quote order. A store that can
be said to represent such a function, and answers from its ladder, is a `LawfulLevelStore`. Since a
function has only one ladder, any two lawful stores driven by the same calls answer alike.
-/

namespace HftOrderbook

/-- The two orderings the book instantiates a store with: `std::greater` for bids and `std::less`
for asks. -/
inductive Compare where
  | greater
  | less
  deriving DecidableEq

/-- `c.lt a b` is `cmp_(a, b)`: the quote `a` is better than the quote `b`. -/
def Compare.lt : Compare → Price → Price → Prop
  | .greater, a, b => b < a
  | .less, a, b => a < b

instance (c : Compare) : DecidableRel c.lt := fun a b =>
  match c with
  | .greater => inferInstanceAs (Decidable (b < a))
  | .less => inferInstanceAs (Decidable (a < b))

instance (c : Compare) : IsStrictTotalOrder Price c.lt where
  irrefl a := by cases c <;> exact lt_irrefl a
  trans a b d := by
    cases c
    · exact fun hab hbd => lt_trans hbd hab
    · exact lt_trans
  trichotomous a b hab hba := by
    cases c
    · exact le_antisymm (not_lt.mp hab) (not_lt.mp hba)
    · exact le_antisymm (not_lt.mp hba) (not_lt.mp hab)

class LevelStore (S : Compare → Type) where
  empty (c : Compare) : S c
  inc {c : Compare} (s : S c) (p : Price) (q : Qty) : S c
  dec {c : Compare} (s : S c) (p : Price) (q : Qty) : S c
  best {c : Compare} (s : S c) : Option (Price × Qty)
  atPrice {c : Compare} (s : S c) (p : Price) : Qty
  size {c : Compare} (s : S c) : Nat
  top {c : Compare} (s : S c) (n : Nat) : List (Price × Qty)

/-! ### Totals and ladders -/

abbrev Totals := Price → Nat

namespace Totals

def inc (t : Totals) (p : Price) (q : Nat) : Totals := Function.update t p (t p + q)

def dec (t : Totals) (p : Price) (q : Nat) : Totals := Function.update t p (t p - q)

def Fits (t : Totals) : Prop := ∀ p, t p < 2 ^ 32

theorem inc_apply (t : Totals) (p p' : Price) (q : Nat) :
    t.inc p q p' = if p' = p then t p + q else t p' := by
  simp [inc, Function.update_apply]

theorem dec_apply (t : Totals) (p p' : Price) (q : Nat) :
    t.dec p q p' = if p' = p then t p - q else t p' := by
  simp [dec, Function.update_apply]

theorem Fits.inc {t : Totals} (ht : t.Fits) {p : Price} {q : Nat} (hq : t p + q < 2 ^ 32) :
    (t.inc p q).Fits := by
  intro p'
  rw [inc_apply]
  split_ifs
  · exact hq
  · exact ht p'

theorem Fits.dec {t : Totals} (ht : t.Fits) (p : Price) (q : Nat) : (t.dec p q).Fits := by
  intro p'
  rw [dec_apply]
  split_ifs
  · exact (Nat.sub_le _ _).trans_lt (ht p)
  · exact ht p'

end Totals

/-- The prices that hold something, best first, each with its total. -/
structure IsLadder (c : Compare) (t : Totals) (l : List (Price × Qty)) : Prop where
  sorted : l.Pairwise fun a b => c.lt a.1 b.1
  mem_iff : ∀ p q, (p, q) ∈ l ↔ q.toNat = t p ∧ t p ≠ 0

namespace IsLadder

variable {c : Compare} {t : Totals} {l l' : List (Price × Qty)}

theorem unique (h : IsLadder c t l) (h' : IsLadder c t l') : l = l' := by
  refine OrderedMap.entries_eq_of_mem_iff h.sorted h'.sorted fun e => ?_
  rw [h.mem_iff e.1 e.2, h'.mem_iff e.1 e.2]

theorem mem_map_fst (h : IsLadder c t l) (hfits : t.Fits) {p : Price} :
    p ∈ l.map Prod.fst ↔ t p ≠ 0 := by
  rw [List.mem_map]
  constructor
  · rintro ⟨⟨_, q⟩, hmem, rfl⟩
    exact ((h.mem_iff _ q).mp hmem).2
  · intro hne
    have htoNat : (UInt32.ofNat (t p)).toNat = t p := UInt32.toNat_ofNat_of_lt' (hfits p)
    exact ⟨(p, UInt32.ofNat (t p)), (h.mem_iff p _).mpr ⟨htoNat, hne⟩, rfl⟩

theorem nodup_map_fst (h : IsLadder c t l) : (l.map Prod.fst).Nodup :=
  OrderedMap.nodup_keys_of_sorted h.sorted

theorem head?_eq_some_iff (h : IsLadder c t l) {p : Price} {q : Qty} :
    l.head? = some (p, q) ↔
      q.toNat = t p ∧ t p ≠ 0 ∧ ∀ p', p' ≠ p → p' ∈ l.map Prod.fst → c.lt p p' := by
  constructor
  · intro hhead
    obtain ⟨rest, rfl⟩ := List.head?_eq_some_iff.mp hhead
    obtain ⟨hq, hne⟩ := (h.mem_iff p q).mp List.mem_cons_self
    refine ⟨hq, hne, fun p' hp' hmem => ?_⟩
    obtain ⟨e, he, rfl⟩ := List.mem_map.mp hmem
    rcases List.mem_cons.mp he with rfl | he
    · exact absurd rfl hp'
    · exact (List.pairwise_cons.mp h.sorted).1 e he
  · rintro ⟨hq, hne, hbest⟩
    have hmem := (h.mem_iff p q).mpr ⟨hq, hne⟩
    cases l with
    | nil => simp at hmem
    | cons e rest =>
        rcases List.mem_cons.mp hmem with rfl | hmem
        · rfl
        · have hlt := (List.pairwise_cons.mp h.sorted).1 _ hmem
          have hne' : e.1 ≠ p := fun heq => irrefl (r := c.lt) p (heq ▸ hlt)
          exact absurd (trans_of c.lt hlt (hbest e.1 hne' (by simp))) (irrefl e.1)

end IsLadder

/-! ### Lawful stores -/

/-- The store answers every query from the totals `t` and their ladder. -/
structure Answers {S : Compare → Type} [LevelStore S] {c : Compare} (s : S c) (t : Totals)
    (l : List (Price × Qty)) : Prop where
  fits : t.Fits
  ladder : IsLadder c t l
  atPrice : ∀ p, (LevelStore.atPrice s p).toNat = t p
  size : LevelStore.size s = l.length
  best : LevelStore.best s = l.head?
  top : ∀ n, LevelStore.top s n = l.take n

/-- A store that keeps totals for the prices in `admissible`: each call acts on the represented
totals as its name says, as long as no total outgrows a `Qty` and nothing is taken out of a level
that was not put in. -/
class LawfulLevelStore (S : Compare → Type) [LevelStore S] (admissible : outParam (Price → Prop))
    where
  Represents {c : Compare} : S c → Totals → Prop
  empty (c : Compare) : Represents (LevelStore.empty c : S c) fun _ => 0
  inc {c : Compare} {s : S c} {t : Totals} {p : Price} {q : Qty} : Represents s t →
    admissible p → q ≠ 0 → t p + q.toNat < 2 ^ 32 →
      Represents (LevelStore.inc s p q) (t.inc p q.toNat)
  dec {c : Compare} {s : S c} {t : Totals} {p : Price} {q : Qty} : Represents s t →
    q.toNat ≤ t p → Represents (LevelStore.dec s p q) (t.dec p q.toNat)
  answers {c : Compare} {s : S c} {t : Totals} : Represents s t → ∃ l, Answers s t l

theorem Answers.agree {S S' : Compare → Type} [LevelStore S] [LevelStore S'] {c : Compare}
    {s : S c} {s' : S' c} {t : Totals} {l l' : List (Price × Qty)} (h : Answers s t l)
    (h' : Answers s' t l') :
    (∀ p, LevelStore.atPrice s p = LevelStore.atPrice s' p) ∧
      LevelStore.size s = LevelStore.size s' ∧ LevelStore.best s = LevelStore.best s' ∧
      ∀ n, LevelStore.top s n = LevelStore.top s' n := by
  obtain rfl := h.ladder.unique h'.ladder
  refine ⟨fun p => UInt32.toNat_inj.mp ((h.atPrice p).trans (h'.atPrice p).symm),
    h.size.trans h'.size.symm, h.best.trans h'.best.symm, fun n => ?_⟩
  exact (h.top n).trans (h'.top n).symm

/-! ### Histories of a store -/

inductive LevelOp where
  | inc (p : Price) (q : Qty)
  | dec (p : Price) (q : Qty)

namespace LevelOp

def exec {S : Compare → Type} [LevelStore S] {c : Compare} (s : S c) : LevelOp → S c
  | inc p q => LevelStore.inc s p q
  | dec p q => LevelStore.dec s p q

def run (S : Compare → Type) [LevelStore S] (c : Compare) (ops : List LevelOp) : S c :=
  ops.foldl exec (LevelStore.empty c)

def execTotals (t : Totals) : LevelOp → Totals
  | inc p q => t.inc p q.toNat
  | dec p q => t.dec p q.toNat

def totals (ops : List LevelOp) : Totals := ops.foldl execTotals fun _ => 0

/-- What the book guarantees of a call: a price the wire can carry, something put in, a total that
fits, and nothing taken out of a level that was not put in. -/
def Allowed (t : Totals) : LevelOp → Prop
  | inc p q => (0 ≤ p ∧ p < 2 ^ 32) ∧ q ≠ 0 ∧ t p + q.toNat < 2 ^ 32
  | dec p q => (0 ≤ p ∧ p < 2 ^ 32) ∧ q.toNat ≤ t p

instance (t : Totals) : DecidablePred (Allowed t)
  | inc p q => inferInstanceAs (Decidable ((0 ≤ p ∧ p < 2 ^ 32) ∧ q ≠ 0 ∧ t p + q.toNat < 2 ^ 32))
  | dec p q => inferInstanceAs (Decidable ((0 ≤ p ∧ p < 2 ^ 32) ∧ q.toNat ≤ t p))

end LevelOp

end HftOrderbook
