import HftOrderbook.Core.ObjectPool
import Mathlib.Data.List.AList

/-!
# An index into the pool

What keeps an index and a pool of objects in step: every indexed handle lies in the storage, is not
on the free list and is held by one key only, so that writing through one key never shows through
another. Recycled handles come back from the free list, which keeps them apart in the same way.
-/

namespace HftOrderbook

variable {κ α : Type} [DecidableEq κ]

structure PoolInv (pool : ObjectPool α) (index : AList fun _ : κ => Handle) : Prop where
  capacity_le : pool.capacity ≤ 2 ^ 32
  freed_lt : ∀ h ∈ pool.freed, h.toNat < pool.capacity
  freed_nodup : pool.freed.Nodup
  index_lt : ∀ {key h}, index.lookup key = some h → h.toNat < pool.capacity
  index_notMem_freed : ∀ {key h}, index.lookup key = some h → h ∉ pool.freed
  index_inj : ∀ {key key' h}, index.lookup key = some h → index.lookup key' = some h → key = key'

theorem PoolInv.empty : PoolInv ({} : ObjectPool α) (∅ : AList fun _ : κ => Handle) where
  capacity_le := Nat.zero_le _
  freed_lt h hmem := by cases hmem
  freed_nodup := List.nodup_nil
  index_lt hlookup := by simp at hlookup
  index_notMem_freed hlookup := by simp at hlookup
  index_inj hlookup := by simp at hlookup

variable [Inhabited α]

namespace ObjectPool

def stored (pool : ObjectPool α) (index : AList fun _ : κ => Handle) (key : κ) : Option α :=
  (index.lookup key).map pool.get

theorem get_set_self {pool : ObjectPool α} {h : Handle} (hlt : h.toNat < pool.capacity)
    (value : α) : (pool.set h value).get h = value := by
  change h.toNat < pool.slots.length at hlt
  simp [get, set, hlt]

theorem get_set_of_ne {pool : ObjectPool α} {h h' : Handle} (hne : h' ≠ h) (value : α) :
    (pool.set h value).get h' = pool.get h' := by
  have hidx : h.toNat ≠ h'.toNat := fun heq => hne (UInt32.toNat_inj.mp heq.symm)
  simp [get, set, List.getD_eq_getElem?_getD, List.getElem?_set_ne hidx]

theorem get_alloc {pool : ObjectPool α} {h : Handle} (hlt : h.toNat < pool.capacity) :
    pool.alloc.2.get h = pool.get h := by
  unfold alloc
  split
  · rfl
  · change h.toNat < pool.slots.length at hlt
    simp [get, List.getD_eq_getElem?_getD, List.getElem?_append_left hlt]

theorem capacity_alloc {pool : ObjectPool α} {used : Nat}
    (hused : pool.capacity = pool.freed.length + used) :
    pool.alloc.2.capacity = pool.alloc.2.freed.length + (used + 1) := by
  unfold alloc
  cases hfreed : pool.freed with
  | cons h rest =>
      rw [hfreed, List.length_cons] at hused
      change pool.slots.length = rest.length + (used + 1)
      change pool.slots.length = rest.length + 1 + used at hused
      omega
  | nil =>
      rw [hfreed] at hused
      simpa [capacity] using hused

end ObjectPool

open ObjectPool

namespace PoolInv

variable {pool : ObjectPool α} {index : AList fun _ : κ => Handle}

/-- The handle `alloc` hands out lies in the storage, and neither the index nor what is left of the
free list knows it. -/
theorem alloc_spec (hinv : PoolInv pool index) (hroom : pool.alloc.2.capacity ≤ 2 ^ 32) :
    pool.alloc.1.toNat < pool.alloc.2.capacity ∧ pool.alloc.1 ∉ pool.alloc.2.freed ∧
      ∀ key, index.lookup key ≠ some pool.alloc.1 := by
  unfold alloc at hroom ⊢
  cases hfreed : pool.freed with
  | cons h rest =>
      have hnodup := hinv.freed_nodup
      rw [hfreed, List.nodup_cons] at hnodup
      have hmem : h ∈ pool.freed := by rw [hfreed]; exact List.mem_cons_self
      refine ⟨hinv.freed_lt h hmem, hnodup.1, fun key hlookup => ?_⟩
      exact hinv.index_notMem_freed hlookup hmem
  | nil =>
      simp only [hfreed, capacity, List.length_append, List.length_singleton] at hroom ⊢
      have htoNat : (UInt32.ofNat pool.slots.length).toNat = pool.slots.length :=
        UInt32.toNat_ofNat_of_lt' (by change _ < 2 ^ 32; omega)
      refine ⟨by omega, List.not_mem_nil, fun key hlookup => ?_⟩
      have hlt := hinv.index_lt hlookup
      rw [htoNat] at hlt
      exact lt_irrefl _ hlt

theorem alloc_mono (pool : ObjectPool α) :
    pool.capacity ≤ pool.alloc.2.capacity ∧ pool.alloc.2.freed <:+ pool.freed := by
  unfold alloc capacity
  split
  case h_1 h rest hfreed =>
      exact ⟨le_rfl, hfreed ▸ List.suffix_cons h rest⟩
  case h_2 => simp

/-- Allocate, write and index: the key leads to the new object, every other key where it did. -/
theorem insert (hinv : PoolInv pool index) (hroom : pool.alloc.2.capacity ≤ 2 ^ 32) (key : κ)
    (value : α) :
    PoolInv (pool.alloc.2.set pool.alloc.1 value) (index.insert key pool.alloc.1) ∧
      ∀ key', (pool.alloc.2.set pool.alloc.1 value).stored (index.insert key pool.alloc.1) key' =
        if key' = key then some value else pool.stored index key' := by
  obtain ⟨hlt, hnotMem, hunused⟩ := hinv.alloc_spec hroom
  obtain ⟨hcapacity, hsuffix⟩ := alloc_mono pool
  have hset : (pool.alloc.2.set pool.alloc.1 value).capacity = pool.alloc.2.capacity :=
    List.length_set
  -- every entry of the new index is the new handle under `key` or an old entry under another key
  have hentry : ∀ {key' h}, (index.insert key pool.alloc.1).lookup key' = some h →
      key' = key ∧ h = pool.alloc.1 ∨ key' ≠ key ∧ index.lookup key' = some h := by
    intro key' h hlookup
    by_cases hkey : key' = key
    · subst hkey
      rw [AList.lookup_insert] at hlookup
      exact Or.inl ⟨rfl, (Option.some.inj hlookup).symm⟩
    · rw [AList.lookup_insert_ne hkey] at hlookup
      exact Or.inr ⟨hkey, hlookup⟩
  refine ⟨⟨?_, ?_, ?_, ?_, ?_, ?_⟩, fun key' => ?_⟩
  · rwa [hset]
  · intro h hmem
    rw [hset]
    exact (hinv.freed_lt h (hsuffix.subset hmem)).trans_le hcapacity
  · exact hsuffix.sublist.nodup hinv.freed_nodup
  · intro key' h hlookup
    rw [hset]
    rcases hentry hlookup with ⟨-, rfl⟩ | ⟨-, hold⟩
    · exact hlt
    · exact (hinv.index_lt hold).trans_le hcapacity
  · intro key' h hlookup
    rcases hentry hlookup with ⟨-, rfl⟩ | ⟨-, hold⟩
    · exact hnotMem
    · exact fun hmem => hinv.index_notMem_freed hold (hsuffix.subset hmem)
  · intro key₁ key₂ h hlookup₁ hlookup₂
    rcases hentry hlookup₁ with ⟨rfl, rfl⟩ | ⟨-, hold₁⟩ <;>
      rcases hentry hlookup₂ with ⟨rfl, heq⟩ | ⟨-, hold₂⟩
    · rfl
    · exact absurd hold₂ (hunused key₂)
    · exact absurd (heq ▸ hold₁) (hunused key₁)
    · exact hinv.index_inj hold₁ hold₂
  · unfold stored
    by_cases hkey : key' = key
    · subst hkey
      rw [AList.lookup_insert, if_pos rfl, Option.map_some, get_set_self hlt]
    · rw [AList.lookup_insert_ne hkey, if_neg hkey]
      cases hlookup : index.lookup key' with
      | none => rfl
      | some h =>
          have hne : h ≠ pool.alloc.1 := fun heq => hunused key' (heq ▸ hlookup)
          rw [Option.map_some, Option.map_some, get_set_of_ne hne,
            get_alloc (hinv.index_lt hlookup)]

/-- Free and forget: the key leads nowhere, every other key where it did. -/
theorem erase (hinv : PoolInv pool index) {key : κ} {h : Handle}
    (hlookup : index.lookup key = some h) :
    PoolInv (pool.free h) (index.erase key) ∧
      ∀ key', (pool.free h).stored (index.erase key) key' =
        if key' = key then none else pool.stored index key' := by
  have hentry : ∀ {key' h'}, (index.erase key).lookup key' = some h' →
      key' ≠ key ∧ index.lookup key' = some h' := by
    intro key' h' hlookup'
    by_cases hkey : key' = key
    · rw [hkey, AList.lookup_erase] at hlookup'
      cases hlookup'
    · rw [AList.lookup_erase_ne hkey] at hlookup'
      exact ⟨hkey, hlookup'⟩
  refine ⟨⟨hinv.capacity_le, ?_, ?_, ?_, ?_, ?_⟩, fun key' => ?_⟩
  · intro h' hmem
    rcases List.mem_cons.mp hmem with rfl | hmem
    · exact hinv.index_lt hlookup
    · exact hinv.freed_lt h' hmem
  · exact List.nodup_cons.mpr ⟨hinv.index_notMem_freed hlookup, hinv.freed_nodup⟩
  · exact fun hlookup' => hinv.index_lt (hentry hlookup').2
  · intro key' h' hlookup' hmem
    obtain ⟨hkey, hold⟩ := hentry hlookup'
    rcases List.mem_cons.mp hmem with rfl | hmem
    · exact hkey (hinv.index_inj hold hlookup)
    · exact hinv.index_notMem_freed hold hmem
  · exact fun hlookup₁ hlookup₂ => hinv.index_inj (hentry hlookup₁).2 (hentry hlookup₂).2
  · unfold stored
    by_cases hkey : key' = key
    · rw [hkey, AList.lookup_erase, if_pos rfl]
      rfl
    · rw [AList.lookup_erase_ne hkey, if_neg hkey]
      rfl

theorem set (hinv : PoolInv pool index) {key : κ} {h : Handle}
    (hlookup : index.lookup key = some h) (value : α) :
    PoolInv (pool.set h value) index ∧
      ∀ key', (pool.set h value).stored index key' =
        if key' = key then some value else pool.stored index key' := by
  have hset : (pool.set h value).capacity = pool.capacity := List.length_set
  refine ⟨⟨?_, ?_, hinv.freed_nodup, ?_, hinv.index_notMem_freed, hinv.index_inj⟩,
    fun key' => ?_⟩
  · exact hset ▸ hinv.capacity_le
  · exact hset ▸ hinv.freed_lt
  · rw [hset]
    exact hinv.index_lt
  · unfold stored
    by_cases hkey : key' = key
    · rw [hkey, hlookup, if_pos rfl, Option.map_some, get_set_self (hinv.index_lt hlookup)]
    · rw [if_neg hkey]
      cases hlookup' : index.lookup key' with
      | none => rfl
      | some h' =>
          have hne : h' ≠ h := by
            rintro rfl
            exact hkey (hinv.index_inj hlookup' hlookup)
          rw [Option.map_some, Option.map_some, get_set_of_ne hne]

end PoolInv

end HftOrderbook
