import Mathlib.Data.Rat.Floor
import Mathlib.Tactic

/-!
# Rounding to a binary precision

A floating-point operation is the exact one followed by a rounding. The rounding keeps the order and
every number that fits, and errs by a relative amount that the precision fixes.
-/

/-- What the rounding to `bits` binary digits does to numbers that are neither tiny nor huge. -/
structure RoundsTo (bits : Nat) (rnd : ℚ → ℚ) : Prop where
  mono : Monotone rnd
  exact_div : ∀ k e : Nat, k ≤ 2 ^ bits → e ≤ bits → rnd (k / 2 ^ e) = k / 2 ^ e
  near : ∀ x, 0 ≤ x → x ≤ 2 ^ bits → |rnd x - x| ≤ (x ⊔ 1) / 2 ^ bits

theorem RoundsTo.id (bits : Nat) : RoundsTo bits fun x => x where
  mono := monotone_id
  exact_div _ _ _ _ := rfl
  near x hx _ := by
    rw [sub_self, abs_zero]
    have hmax : 0 ≤ x ⊔ 1 := hx.trans le_sup_left
    positivity

namespace RoundsTo

variable {bits : Nat} {rnd : ℚ → ℚ} (hrnd : RoundsTo bits rnd)

include hrnd

theorem exact {n : Nat} (hn : n ≤ 2 ^ bits) : rnd n = n := by
  simpa using hrnd.exact_div n 0 hn (Nat.zero_le bits)

theorem exact_add_half (hbits : 0 < bits) {n : Nat} (hn : 2 * n < 2 ^ bits) :
    rnd (n + 1 / 2) = n + 1 / 2 := by
  have hhalves := hrnd.exact_div (2 * n + 1) 1 hn hbits
  have hcast : ((2 * n + 1 : Nat) : ℚ) / 2 ^ 1 = n + 1 / 2 := by
    push_cast
    ring
  rwa [hcast] at hhalves

theorem zero : rnd 0 = 0 := by simpa using hrnd.exact (Nat.zero_le _)

theorem one : rnd 1 = 1 := by simpa using hrnd.exact Nat.one_le_two_pow

theorem nonneg {x : ℚ} (hx : 0 ≤ x) : 0 ≤ rnd x := hrnd.zero ▸ hrnd.mono hx

theorem le_of_le {x : ℚ} {n : Nat} (hn : n ≤ 2 ^ bits) (hx : x ≤ n) : rnd x ≤ n :=
  hrnd.exact hn ▸ hrnd.mono hx

theorem le_of_ge {x : ℚ} {n : Nat} (hn : n ≤ 2 ^ bits) (hx : (n : ℚ) ≤ x) : (n : ℚ) ≤ rnd x :=
  hrnd.exact hn ▸ hrnd.mono hx

/-- A sum whose exact value fits has no error in any of its steps. -/
theorem foldl_add_exact (ns : List Nat) (sum : Nat) (hfits : sum + ns.sum ≤ 2 ^ bits) :
    ns.foldl (fun (sum : ℚ) (n : Nat) => rnd (sum + rnd n)) (sum : ℚ) =
      ((sum + ns.sum : Nat) : ℚ) := by
  induction ns generalizing sum with
  | nil => simp
  | cons n ns ih =>
      rw [List.sum_cons] at hfits ⊢
      have hnext : rnd ((sum : ℚ) + rnd n) = ((sum + n : Nat) : ℚ) := by
        rw [hrnd.exact (show n ≤ 2 ^ bits by omega), ← Nat.cast_add]
        exact hrnd.exact (by omega)
      rw [List.foldl_cons, hnext, ih (sum + n) (by omega), Nat.add_assoc]

end RoundsTo
