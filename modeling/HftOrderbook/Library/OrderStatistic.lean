import Mathlib.Data.List.Basic
import Mathlib.Tactic

/-!
# Order statistics

The element at a rank of a sorted list, counted from zero: more elements than the rank are at most
it, and at most as many as the rank are below it. Which of several equal elements a sort puts first
makes no difference.
-/

namespace OrderStatistic

variable {α : Type*} [LE α]

def sorted [DecidableLE α] (xs : List α) : List α := xs.mergeSort fun a b => decide (a ≤ b)

theorem sorted_perm [DecidableLE α] (xs : List α) : (sorted xs).Perm xs := List.mergeSort_perm xs _

variable [Std.IsLinearOrder α]

section Sorting

variable [DecidableLE α]

theorem sorted_pairwise (xs : List α) : (sorted xs).Pairwise (· ≤ ·) := by
  have htrans : ∀ a b c : α, decide (a ≤ b) = true → decide (b ≤ c) = true →
      decide (a ≤ c) = true := by
    simp only [decide_eq_true_eq]
    exact fun a b c => Std.le_trans
  have htotal : ∀ a b : α, (decide (a ≤ b) || decide (b ≤ a)) = true := by
    simp only [Bool.or_eq_true, decide_eq_true_eq]
    exact fun a b => Std.le_total
  simpa only [decide_eq_true_eq, sorted] using List.pairwise_mergeSort htrans htotal xs

theorem sorted_eq_of_perm {xs ys : List α} (h : xs.Perm ys) : sorted xs = sorted ys :=
  List.Perm.eq_of_pairwise (fun _ _ _ _ => Std.le_antisymm) (sorted_pairwise xs)
    (sorted_pairwise ys) ((sorted_perm xs).trans (h.trans (sorted_perm ys).symm))

end Sorting

section Sorted

variable {l : List α} (hsorted : l.Pairwise (· ≤ ·))

include hsorted

theorem getElem_le_getElem {i j : Nat} (hij : i ≤ j) (hj : j < l.length) :
    l[i] ≤ l[j] := by
  rcases Nat.eq_or_lt_of_le hij with rfl | hlt
  · exact Std.le_refl _
  · exact List.pairwise_iff_getElem.mp hsorted i j _ hj hlt

theorem lt_countP_le [DecidableLE α] {i : Nat} (hi : i < l.length) :
    i < l.countP fun a => decide (a ≤ l[i]) := by
  have hfront : ∀ a ∈ l.take (i + 1), decide (a ≤ l[i]) = true := by
    intro a ha
    obtain ⟨j, hj, rfl⟩ := List.mem_take_iff_getElem.mp ha
    exact decide_eq_true (getElem_le_getElem hsorted (by omega) hi)
  have hcount := List.countP_eq_length.mpr hfront
  rw [List.length_take, Nat.min_eq_left hi] at hcount
  calc
    i < i + 1 := Nat.lt_succ_self i
    _ = (l.take (i + 1)).countP fun a => decide (a ≤ l[i]) := hcount.symm
    _ ≤ l.countP fun a => decide (a ≤ l[i]) := (List.take_sublist _ _).countP_le

theorem countP_lt_le [LT α] [DecidableLT α] [Std.LawfulOrderLT α] {i : Nat} (hi : i < l.length) :
    (l.countP fun a => decide (a < l[i])) ≤ i := by
  have hback : (l.drop i).countP (fun a => decide (a < l[i])) = 0 := by
    refine List.countP_eq_zero.mpr fun a ha => ?_
    obtain ⟨j, hj, rfl⟩ := List.mem_drop_iff_getElem.mp ha
    rw [decide_eq_true_eq, Std.not_lt]
    exact getElem_le_getElem hsorted (Nat.le_add_right i j) _
  calc
    (l.countP fun a => decide (a < l[i])) =
        (l.take i ++ l.drop i).countP fun a => decide (a < l[i]) := by rw [List.take_append_drop]
    _ = (l.take i).countP fun a => decide (a < l[i]) := by
      rw [List.countP_append, hback, Nat.add_zero]
    _ ≤ (l.take i).length := List.countP_le_length
    _ ≤ i := List.length_take_le i l

end Sorted

end OrderStatistic
