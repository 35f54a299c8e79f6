import HftOrderbook.Core.LatencySummary
import HftOrderbook.Library.Rounding

/-!
# The summary against the samples

The percentiles are those of the nearest rank, up to the rounding of the `double`s: each is a
sample, with the share of the samples on either side that its rank says. They grow with the rank,
from the least sample to `max`. The mean lies between the ends as long as the sum is exact.
-/

namespace HftOrderbook.LatencyHist

open OrderStatistic

section Rank

variable {rnd : ℚ → ℚ} (hrnd : RoundsTo 53 rnd)

include hrnd

theorem rankOf_mono {p q : ℚ} (hpq : p ≤ q) (n : Nat) : rankOf rnd p n ≤ rankOf rnd q n := by
  have hsize : 0 ≤ rnd ((n - 1 : Nat) : ℚ) := hrnd.nonneg (Nat.cast_nonneg _)
  have hratio : rnd (p / 100) ≤ rnd (q / 100) := hrnd.mono (by linarith)
  have hproduct := hrnd.mono (mul_le_mul_of_nonneg_right hratio hsize)
  exact Nat.floor_mono (hrnd.mono (by linarith))

theorem rankOf_zero (n : Nat) : rankOf rnd 0 n = 0 := by
  have hhalf : rnd (1 / 2) = 1 / 2 := by
    simpa using hrnd.exact_add_half (by norm_num) (show 2 * 0 < 2 ^ 53 by norm_num)
  rw [rankOf, zero_div, hrnd.zero, zero_mul, hrnd.zero, zero_add, hhalf, Nat.floor_eq_zero]
  norm_num

theorem rankOf_hundred {n : Nat} (hn : n ≤ 2 ^ 52) : rankOf rnd 100 n = n - 1 := by
  have hsize := hrnd.exact (show n - 1 ≤ 2 ^ 53 by omega)
  rw [rankOf, div_self (by norm_num), hrnd.one, one_mul, hsize, hsize,
    hrnd.exact_add_half (by norm_num) (by omega), Nat.floor_eq_iff (by positivity)]
  constructor <;> linarith

theorem rankOf_lt {p : ℚ} (hp : p ≤ 100) {n : Nat} (hpos : 0 < n) (hn : n ≤ 2 ^ 52) :
    rankOf rnd p n < n := by
  have hmost := rankOf_mono hrnd hp n
  rw [rankOf_hundred hrnd hn] at hmost
  omega

/-- The roundings move the rank by little more than the last `1 / 2` does. -/
theorem rankOf_near {p : ℚ} (hp : 0 ≤ p) (hp' : p ≤ 100) {n : Nat} (hpos : 0 < n)
    (hn : n ≤ 2 ^ 52) :
    |(rankOf rnd p n : ℚ) - p / 100 * (n - 1)| ≤ 1 / 2 + 3 * n / 2 ^ 53 := by
  obtain ⟨m, rfl⟩ : ∃ m, n = m + 1 := ⟨n - 1, by omega⟩
  have hm : (m : ℚ) + 1 ≤ 2 ^ 52 := by exact_mod_cast hn
  have hm0 : (0 : ℚ) ≤ m := Nat.cast_nonneg m
  rw [rankOf, Nat.add_sub_cancel, hrnd.exact (n := m) (by omega)]
  have hratio : 0 ≤ p / 100 ∧ p / 100 ≤ 1 := ⟨by positivity, by linarith⟩
  generalize p / 100 = s at hratio
  have hfirst := hrnd.near s hratio.1 (by linarith [hratio.2])
  have ha0 := hrnd.nonneg hratio.1
  have ha1 : rnd s ≤ 1 := hrnd.one ▸ hrnd.mono hratio.2
  rw [sup_eq_right.mpr hratio.2] at hfirst
  generalize rnd s = a at hfirst ha0 ha1
  have hproduct : 0 ≤ a * m ∧ a * m ≤ m := ⟨by positivity, mul_le_of_le_one_left hm0 ha1⟩
  have hsecond := hrnd.near (a * m) hproduct.1 (by linarith [hproduct.2])
  have hb0 := hrnd.nonneg hproduct.1
  have hb1 : rnd (a * m) ≤ m := hrnd.le_of_le (by omega) hproduct.2
  have hsup : a * m ⊔ 1 ≤ (m : ℚ) + 1 := sup_le (by linarith [hproduct.2]) (by linarith)
  generalize rnd (a * m) = b at hsecond hb0 hb1
  have hthird := hrnd.near (b + 1 / 2) (by linarith) (by linarith)
  have hsup' : (b + 1 / 2) ⊔ 1 ≤ (m : ℚ) + 1 := sup_le (by linarith) (by linarith)
  have hc0 := hrnd.nonneg (show 0 ≤ b + 1 / 2 by linarith)
  generalize rnd (b + 1 / 2) = c at hthird hc0
  have hlow := Nat.floor_le hc0
  have hhigh := Nat.lt_floor_add_one c
  have hshare : |a * m - s * m| ≤ m / 2 ^ 53 := by
    rw [← sub_mul, abs_mul, abs_of_nonneg hm0]
    calc
      |a - s| * m ≤ 1 / 2 ^ 53 * m := mul_le_mul_of_nonneg_right hfirst hm0
      _ = m / 2 ^ 53 := by ring
  push_cast
  rw [abs_le] at hshare hsecond hthird ⊢
  constructor <;> linarith [hshare.1, hshare.2, hsecond.1, hsecond.2, hthird.1, hthird.2]

end Rank

section Samples

variable {rnd : ℚ → ℚ} (hrnd : RoundsTo 53 rnd) {h : LatencyHist} (hne : h.samples ≠ [])
  (hfew : h.count ≤ 2 ^ 52)

include hrnd hne hfew

theorem percentile_eq {p : ℚ} (hp : p ≤ 100) :
    ∃ hr : rankOf rnd p h.count < (sorted h.samples).length,
      h.percentile rnd p = (sorted h.samples)[rankOf rnd p h.count] := by
  have hlength : (sorted h.samples).length = h.count := (sorted_perm h.samples).length_eq
  have hr := rankOf_lt hrnd hp (List.length_pos_of_ne_nil hne) hfew
  change rankOf rnd p h.count < h.count at hr
  rw [← hlength] at hr ⊢
  refine ⟨hr, ?_⟩
  rw [percentile, if_neg hne]
  dsimp only
  rw [if_neg (Nat.not_le.mpr hr), List.getD_eq_getElem?_getD, List.getElem?_eq_getElem hr]
  rfl

theorem percentile_mono {p q : ℚ} (hpq : p ≤ q) (hq : q ≤ 100) :
    h.percentile rnd p ≤ h.percentile rnd q := by
  obtain ⟨hr, heq⟩ := percentile_eq hrnd hne hfew (hpq.trans hq)
  obtain ⟨hr', heq'⟩ := percentile_eq hrnd hne hfew hq
  rw [heq, heq']
  exact getElem_le_getElem (sorted_pairwise _) (rankOf_mono hrnd hpq h.count) hr'

theorem percentile_zero_le {v : UInt64} (hv : v ∈ h.samples) : h.percentile rnd 0 ≤ v := by
  obtain ⟨hr, heq⟩ := percentile_eq hrnd hne hfew (by norm_num : (0 : ℚ) ≤ 100)
  obtain ⟨j, hj, rfl⟩ := List.mem_iff_getElem.mp ((sorted_perm h.samples).mem_iff.mpr hv)
  rw [heq]
  exact getElem_le_getElem (sorted_pairwise _) ((rankOf_zero hrnd h.count).trans_le (Nat.zero_le j))
    hj

theorem le_percentile_hundred {v : UInt64} (hv : v ∈ h.samples) : v ≤ h.percentile rnd 100 := by
  obtain ⟨hr, heq⟩ := percentile_eq hrnd hne hfew le_rfl
  obtain ⟨j, hj, rfl⟩ := List.mem_iff_getElem.mp ((sorted_perm h.samples).mem_iff.mpr hv)
  have hcount : (sorted h.samples).length = h.count := (sorted_perm h.samples).length_eq
  have hlast : j ≤ rankOf rnd 100 h.count := by
    rw [rankOf_hundred hrnd hfew]
    omega
  rw [heq]
  exact getElem_le_getElem (sorted_pairwise _) hlast hr

theorem percentile_mem {p : ℚ} (hp : p ≤ 100) : h.percentile rnd p ∈ h.samples := by
  obtain ⟨hr, heq⟩ := percentile_eq hrnd hne hfew hp
  rw [heq]
  exact (sorted_perm h.samples).mem_iff.mp (List.getElem_mem hr)

omit hrnd hne hfew in
theorem foldl_largest_spec (rest : List UInt64) (v : UInt64) :
    rest.foldl (fun largest v => if largest < v then v else largest) v ∈ v :: rest ∧
      ∀ w ∈ v :: rest,
        w ≤ rest.foldl (fun largest v => if largest < v then v else largest) v := by
  induction rest generalizing v with
  | nil => exact ⟨List.mem_singleton_self v, fun w hw => List.mem_singleton.mp hw ▸ Std.le_refl v⟩
  | cons u rest ih =>
      obtain ⟨hmem, hle⟩ := ih (if v < u then u else v)
      have hboth : v ≤ (if v < u then u else v) ∧ u ≤ (if v < u then u else v) := by
        split_ifs with hlt
        · exact ⟨UInt64.le_of_lt hlt, Std.le_refl u⟩
        · exact ⟨Std.le_refl v, Std.not_lt.mp hlt⟩
      rw [List.foldl_cons]
      refine ⟨?_, fun w hw => ?_⟩
      · rcases List.mem_cons.mp hmem with hfirst | hrest
        · rw [hfirst]
          split_ifs <;> simp
        · exact List.mem_cons_of_mem _ (List.mem_cons_of_mem _ hrest)
      · have hstart := hle _ List.mem_cons_self
        rcases List.mem_cons.mp hw with rfl | hw
        · exact Std.le_trans hboth.1 hstart
        · rcases List.mem_cons.mp hw with rfl | hw
          · exact Std.le_trans hboth.2 hstart
          · exact hle w (List.mem_cons_of_mem _ hw)

omit hrnd hfew in
theorem max_spec : h.max ∈ h.samples ∧ ∀ v ∈ h.samples, v ≤ h.max := by
  unfold max
  cases hsamples : h.samples with
  | nil => exact absurd hsamples hne
  | cons v rest => exact foldl_largest_spec rest v

theorem percentile_hundred : h.percentile rnd 100 = h.max :=
  Std.le_antisymm ((max_spec hne).2 _ (percentile_mem hrnd hne hfew le_rfl))
    (le_percentile_hundred hrnd hne hfew (max_spec hne).1)

/-- The quotient is the only rounding that can move the mean when the sum fits `long double`. -/
theorem mean_between {bits : Nat} {rndLong : ℚ → ℚ} (hlong : RoundsTo bits rndLong)
    (hcount : h.count ≤ 2 ^ bits) (hfits : (h.samples.map UInt64.toNat).sum ≤ 2 ^ bits) :
    rnd (h.percentile rnd 0).toNat ≤ h.mean rnd rndLong ∧
      h.mean rnd rndLong ≤ rnd h.max.toNat := by
  have hpos : (0 : ℚ) < h.samples.length := Nat.cast_pos.mpr (List.length_pos_of_ne_nil hne)
  have hall : ∀ n ∈ h.samples.map UInt64.toNat,
      (h.percentile rnd 0).toNat ≤ n ∧ n ≤ h.max.toNat := by
    intro n hn
    obtain ⟨v, hv, rfl⟩ := List.mem_map.mp hn
    exact ⟨UInt64.le_iff_toNat_le.mp (percentile_zero_le hrnd hne hfew hv),
      UInt64.le_iff_toNat_le.mp ((max_spec hne).2 v hv)⟩
  have hlow : h.samples.length * (h.percentile rnd 0).toNat ≤ (h.samples.map UInt64.toNat).sum := by
    simpa using List.card_nsmul_le_sum _ _ fun n hn => (hall n hn).1
  have hhigh : (h.samples.map UInt64.toNat).sum ≤ h.samples.length * h.max.toNat := by
    simpa using List.sum_le_card_nsmul _ _ fun n hn => (hall n hn).2
  have hfit : ∀ v ∈ h.samples, v.toNat ≤ 2 ^ bits := fun v hv =>
    (List.le_sum_of_mem (List.mem_map_of_mem hv)).trans hfits
  have hsum := hlong.foldl_add_exact (h.samples.map UInt64.toNat) 0 (by rwa [Nat.zero_add])
  rw [List.foldl_map, Nat.zero_add, Nat.cast_zero] at hsum
  rw [mean, if_neg hne]
  dsimp only
  rw [hsum, hlong.exact (n := h.samples.length) hcount]
  constructor
  · refine hrnd.mono (hlong.le_of_ge (hfit _ (percentile_mem hrnd hne hfew (by norm_num))) ?_)
    rw [le_div_iff₀ hpos, mul_comm]
    exact_mod_cast hlow
  · refine hrnd.mono (hlong.le_of_le (hfit _ (max_spec hne).1) ?_)
    rw [div_le_iff₀ hpos, mul_comm]
    exact_mod_cast hhigh

end Samples

/-- For every percentage a percentile is a sample whose rank is nearest to that share of the
samples, and it does not depend on the order in which they were added; the percentiles grow, from
the least sample to `max`, and the mean is between the two as long as the sum is exact. -/
theorem percentile_nearest_rank {rnd : ℚ → ℚ} (hrnd : RoundsTo 53 rnd) (h : LatencyHist)
    (hne : h.samples ≠ []) (hfew : h.count ≤ 2 ^ 52) :
    (∀ p, 0 ≤ p → p ≤ 100 →
      |(rankOf rnd p h.count : ℚ) - p / 100 * (h.count - 1)| ≤ 1 / 2 + 3 * h.count / 2 ^ 53 ∧
      h.percentile rnd p ∈ h.samples ∧
      rankOf rnd p h.count < h.samples.countP (fun v => decide (v ≤ h.percentile rnd p)) ∧
      h.samples.countP (fun v => decide (v < h.percentile rnd p)) ≤ rankOf rnd p h.count ∧
      ∀ h' : LatencyHist, h'.samples.Perm h.samples → h'.percentile rnd p = h.percentile rnd p) ∧
    (∀ p q, p ≤ q → q ≤ 100 → h.percentile rnd p ≤ h.percentile rnd q) ∧
    (∀ v ∈ h.samples, h.percentile rnd 0 ≤ v ∧ v ≤ h.max) ∧ h.percentile rnd 100 = h.max ∧
    ∀ (bits : Nat) (rndLong : ℚ → ℚ), RoundsTo bits rndLong → h.count ≤ 2 ^ bits →
      (h.samples.map UInt64.toNat).sum ≤ 2 ^ bits →
      rnd (h.percentile rnd 0).toNat ≤ h.mean rnd rndLong ∧
        h.mean rnd rndLong ≤ rnd h.max.toNat := by
  refine ⟨fun p hp hp' => ⟨?_, percentile_mem hrnd hne hfew hp', ?_, ?_, fun h' hperm => ?_⟩,
    fun p q hpq hq => percentile_mono hrnd hne hfew hpq hq,
    fun v hv => ⟨percentile_zero_le hrnd hne hfew hv, (max_spec hne).2 v hv⟩,
    percentile_hundred hrnd hne hfew,
    fun bits rndLong hlong hcount hfits => mean_between hrnd hne hfew hlong hcount hfits⟩
  · exact rankOf_near hrnd hp hp' (List.length_pos_of_ne_nil hne) hfew
  · obtain ⟨hr, heq⟩ := percentile_eq hrnd hne hfew hp'
    rw [heq, ← (sorted_perm h.samples).countP_eq]
    exact lt_countP_le (sorted_pairwise _) hr
  · obtain ⟨hr, heq⟩ := percentile_eq hrnd hne hfew hp'
    rw [heq, ← (sorted_perm h.samples).countP_eq]
    exact countP_lt_le (sorted_pairwise _) hr
  · have hnil : h'.samples = [] ↔ h.samples = [] := ⟨fun hnil => (hnil ▸ hperm).nil_eq.symm,
      fun hnil => (hnil ▸ hperm).eq_nil⟩
    simp only [percentile, hnil, sorted_eq_of_perm hperm]

/-- The median of four samples is at most their 75th percentile. -/
theorem percentile_nearest_rank_four :
    (⟨[40, 10, 30, 20]⟩ : LatencyHist).percentile (fun x => x) 50 ≤
      (⟨[40, 10, 30, 20]⟩ : LatencyHist).percentile (fun x => x) 75 :=
  (percentile_nearest_rank (RoundsTo.id 53) ⟨[40, 10, 30, 20]⟩ (by decide)
    (by decide)).2.1 50 75 (by norm_num) (by norm_num)

end HftOrderbook.LatencyHist
