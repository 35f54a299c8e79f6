import Mathlib.Data.Finmap
import Mathlib.Algebra.BigOperators.Group.Finset.Basic
import Mathlib.Algebra.Order.BigOperators.Group.Finset
import Mathlib.Tactic

/-!
# Sums over the values of a finite map

What a lookup finds after an update, and what an update does to the sum of a function over the
values.
-/

namespace Finmap

variable {α β : Type*} [DecidableEq α] {m : Finmap fun _ : α => β} {a : α} {b : β}

theorem erase_eq_self (hnone : m.lookup a = none) : m.erase a = m := by
  refine ext_lookup fun a' => ?_
  by_cases ha' : a' = a
  · rw [ha', lookup_erase, hnone]
  · rw [lookup_erase_ne ha']

theorem of_lookup_erase {a' : α} (hlookup : (m.erase a).lookup a' = some b) :
    a' ≠ a ∧ m.lookup a' = some b := by
  have hne : a' ≠ a := by
    rintro rfl
    rw [lookup_erase] at hlookup
    cases hlookup
  exact ⟨hne, by rwa [lookup_erase_ne hne] at hlookup⟩

theorem of_lookup_insert {a' : α} {b' : β} (hlookup : (m.insert a b).lookup a' = some b') :
    (a' = a ∧ b' = b) ∨ (a' ≠ a ∧ m.lookup a' = some b') := by
  by_cases ha' : a' = a
  · subst ha'
    rw [lookup_insert] at hlookup
    exact Or.inl ⟨rfl, (Option.some.inj hlookup).symm⟩
  · rw [lookup_insert_of_ne m ha'] at hlookup
    exact Or.inr ⟨ha', hlookup⟩

/-- The sum of `f` over every value the map holds. -/
def sumOver (m : Finmap fun _ : α => β) (f : β → Nat) : Nat :=
  ∑ a ∈ m.keys, (m.lookup a).elim 0 f

theorem keys_insert (m : Finmap fun _ : α => β) (a : α) (b : β) :
    (m.insert a b).keys = Insert.insert a m.keys := by
  ext a'
  simp [mem_keys, mem_insert]

theorem sumOver_congr {m' : Finmap fun _ : α => β} {f : β → Nat} {s : Finset α}
    (h : ∀ a ∈ s, m.lookup a = m'.lookup a) :
    ∑ a ∈ s, (m.lookup a).elim 0 f = ∑ a ∈ s, (m'.lookup a).elim 0 f :=
  Finset.sum_congr rfl fun a ha => by rw [h a ha]

theorem sumOver_insert (hfresh : a ∉ m) (f : β → Nat) :
    (m.insert a b).sumOver f = m.sumOver f + f b := by
  have hkey : a ∉ m.keys := fun hmem => hfresh (mem_keys.mp hmem)
  rw [sumOver, keys_insert, Finset.sum_insert hkey, lookup_insert, Nat.add_comm]
  congr 1
  refine sumOver_congr fun a' ha' => lookup_insert_of_ne m ?_
  rintro rfl
  exact hkey ha'

theorem sumOver_erase (hlookup : m.lookup a = some b) (f : β → Nat) :
    (m.erase a).sumOver f + f b = m.sumOver f := by
  have hkey : a ∈ m.keys := mem_keys.mpr (mem_of_lookup_eq_some hlookup)
  have hsum := Finset.sum_erase_add m.keys (fun a => (m.lookup a).elim 0 f) hkey
  rw [hlookup] at hsum
  rw [sumOver, sumOver, keys_erase, ← hsum]
  congr 1
  exact sumOver_congr fun a' ha' => lookup_erase_ne (Finset.ne_of_mem_erase ha')

theorem sumOver_erase_le (m : Finmap fun _ : α => β) (a : α) (f : β → Nat) :
    (m.erase a).sumOver f ≤ m.sumOver f := by
  cases hlookup : m.lookup a with
  | none => rw [erase_eq_self hlookup]
  | some b =>
      rw [← sumOver_erase hlookup f]
      exact Nat.le_add_right _ _

theorem sumOver_insert_of_lookup {b' : β} (hlookup : m.lookup a = some b) (f : β → Nat) :
    (m.insert a b').sumOver f + f b = m.sumOver f + f b' := by
  have herase : m.insert a b' = (m.erase a).insert a b' := by
    refine ext_lookup fun a' => ?_
    by_cases ha' : a' = a
    · subst ha'
      simp
    · rw [lookup_insert_of_ne _ ha', lookup_insert_of_ne _ ha', lookup_erase_ne ha']
  rw [herase, sumOver_insert notMem_erase_self, ← sumOver_erase hlookup f]
  omega

theorem sumOver_insert_le (m : Finmap fun _ : α => β) (a : α) (b : β) (f : β → Nat) :
    (m.insert a b).sumOver f ≤ m.sumOver f + f b := by
  cases hlookup : m.lookup a with
  | none => exact (sumOver_insert (lookup_eq_none.mp hlookup) f).le
  | some b' =>
      have hinsert : (m.insert a b).sumOver f + f b' = m.sumOver f + f b :=
        sumOver_insert_of_lookup hlookup f
      omega

theorem sumOver_eq_zero_iff {f : β → Nat} :
    m.sumOver f = 0 ↔ ∀ a b, m.lookup a = some b → f b = 0 := by
  rw [sumOver, Finset.sum_eq_zero_iff]
  constructor
  · intro h a b hlookup
    have := h a (mem_keys.mpr (mem_of_lookup_eq_some hlookup))
    rwa [hlookup] at this
  · intro h a ha
    obtain ⟨b, hlookup⟩ := mem_iff.mp (mem_keys.mp ha)
    rw [hlookup]
    exact h a b hlookup

theorem sumOver_mono {f g : β → Nat} (h : ∀ b, f b ≤ g b) : m.sumOver f ≤ m.sumOver g := by
  refine Finset.sum_le_sum fun a _ => ?_
  cases m.lookup a with
  | none => exact le_rfl
  | some b => exact h b

theorem le_sumOver (hlookup : m.lookup a = some b) (f : β → Nat) : f b ≤ m.sumOver f := by
  rw [← sumOver_erase hlookup f]
  exact Nat.le_add_left _ _

end Finmap
