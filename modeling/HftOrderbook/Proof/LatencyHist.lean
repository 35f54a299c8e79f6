import HftOrderbook.Core.LatencyHist
import HftOrderbook.Library.WrappingCounter

/-!
# What the rows of the histogram say

Every bucket but the last holds the samples between the bounds its row is printed with. The last one
also takes everything above, and is printed with an upper bound all the same.
-/

namespace HftOrderbook

open WrappingCounter

/-- The sample lies between the bounds of the row. -/
def HistogramRow.Covers (row : HistogramRow) (v : UInt64) : Prop := row.lo ≤ v ∧ v < row.hi

instance (row : HistogramRow) (v : UInt64) : Decidable (row.Covers v) :=
  inferInstanceAs (Decidable (row.lo ≤ v ∧ v < row.hi))

namespace LatencyHist

/-- Each row counts the samples between its bounds, and each sample is between the bounds of one
row. -/
structure RowsTrue (h : LatencyHist) : Prop where
  count_eq : ∀ row ∈ h.rows, row.count = h.samples.countP fun v => decide (row.Covers v)
  counted_once : ∀ v ∈ h.samples, (h.rows.countP fun row => decide (row.Covers v)) = 1
  sum_eq : (h.rows.map HistogramRow.count).sum = h.count

/-! ### Counting by buckets -/

section Counting

variable {α : Type} {l : List α}

theorem sum_range_countP {f : α → Nat} {n : Nat} (h : ∀ a, f a < n) :
    ∑ b ∈ Finset.range n, l.countP (fun a => decide (f a = b)) = l.length := by
  induction l with
  | nil => simp
  | cons a l ih =>
      have hone : ∑ b ∈ Finset.range n, (if decide (f a = b) = true then 1 else 0) = 1 := by
        simp only [decide_eq_true_eq]
        rw [Finset.sum_ite_eq, if_pos (Finset.mem_range.mpr (h a))]
      simp only [List.countP_cons, Finset.sum_add_distrib]
      rw [ih, hone, List.length_cons]

theorem countP_eq_countP_iff {p q : α → Bool} (h : ∀ a, p a = true → q a = true) :
    l.countP p = l.countP q ↔ ∀ a ∈ l, q a = true → p a = true := by
  induction l with
  | nil => simp
  | cons a l ih =>
      have hle : l.countP p ≤ l.countP q := List.countP_mono_left fun a _ => h a
      rw [List.countP_cons, List.countP_cons, List.forall_mem_cons, ← ih]
      by_cases hq : q a = true
      · by_cases hp : p a = true
        · simp [hp, hq]
        · refine iff_of_false (fun heq => ?_) (fun hboth => hp (hboth.1 hq))
          rw [if_neg hp, if_pos hq] at heq
          omega
      · simp [hq, mt (h a) hq]

end Counting

/-! ### Buckets -/

/-- The bound is doubled until it is above the sample or the last bucket is reached. -/
theorem bucketLoop_spec (v : UInt64) (left : Nat) :
    ∀ b, b + left < 64 → (b = 0 ∨ 2 ^ (b - 1) ≤ v.toNat) →
      ∃ r ≤ b + left, bucketLoop v left b (UInt64.ofNat (2 ^ b)) = r ∧
        (r = 0 ∨ 2 ^ (r - 1) ≤ v.toNat) ∧ (r = b + left ∨ v.toNat < 2 ^ r) := by
  induction left with
  | zero =>
      intro b _ hlo
      exact ⟨b, le_rfl, rfl, hlo, Or.inl rfl⟩
  | succ left ih =>
      intro b hfits hlo
      have htest : UInt64.ofNat (2 ^ b) ≤ v ↔ 2 ^ b ≤ v.toNat := by
        rw [UInt64.le_iff_toNat_le, toNat_two_pow (by omega)]
      rw [bucketLoop]
      split_ifs with hle
      · rw [shiftLeft_one, Nat.add_comm left, ← Nat.add_assoc]
        exact ih (b + 1) (by omega) (Or.inr (htest.mp hle))
      · exact ⟨b, by omega, rfl, hlo, Or.inr (not_le.mp (mt htest.mpr hle))⟩

theorem bucketOf_spec (v : UInt64) :
    bucketOf v ≤ 20 ∧ (bucketOf v = 0 ∨ 2 ^ (bucketOf v - 1) ≤ v.toNat) ∧
      (bucketOf v = 20 ∨ v.toNat < 2 ^ bucketOf v) := by
  obtain ⟨r, hle, hloop, hlo, hhi⟩ := bucketLoop_spec v 20 0 (by decide) (Or.inl rfl)
  have hbucket : bucketOf v = r := hloop
  rw [hbucket]
  exact ⟨hle, hlo, hhi⟩

theorem toNat_loOf {b : Nat} (hb : b ≤ 20) :
    (loOf b).toNat = if b = 0 then 0 else 2 ^ (b - 1) := by
  unfold loOf
  split_ifs
  · rfl
  · rw [one_shiftLeft (by omega), toNat_two_pow (by omega)]

theorem toNat_hiOf {b : Nat} (hb : b ≤ 20) : (hiOf b).toNat = 2 ^ b := by
  rw [hiOf, one_shiftLeft (by omega), toNat_two_pow (by omega)]

/-- Between the bounds printed for a bucket lie the samples it counts, up to the last bound. -/
theorem between_iff {b : Nat} (hb : b ≤ 20) (v : UInt64) :
    (loOf b ≤ v ∧ v < hiOf b) ↔ bucketOf v = b ∧ v.toNat < 2 ^ 20 := by
  obtain ⟨hle, hlo, hhi⟩ := bucketOf_spec v
  rw [UInt64.le_iff_toNat_le, UInt64.lt_iff_toNat_lt, toNat_loOf hb, toNat_hiOf hb]
  constructor
  · rintro ⟨hlower, hupper⟩
    have hlast : 2 ^ b ≤ 2 ^ 20 := Nat.pow_le_pow_right (by norm_num) hb
    refine ⟨?_, by omega⟩
    rcases lt_trichotomy (bucketOf v) b with hlt | heq | hgt
    · have hpow : 2 ^ bucketOf v ≤ 2 ^ (b - 1) := Nat.pow_le_pow_right (by norm_num) (by omega)
      rw [if_neg (by omega)] at hlower
      omega
    · exact heq
    · have hpow : 2 ^ b ≤ 2 ^ (bucketOf v - 1) := Nat.pow_le_pow_right (by norm_num) (by omega)
      omega
  · rintro ⟨rfl, hlast⟩
    constructor
    · split_ifs with hzero
      · exact Nat.zero_le _
      · exact hlo.resolve_left hzero
    · rcases hhi with heq | hlt
      · rwa [heq]
      · exact hlt

/-! ### The tally -/

theorem length_countSample (t : Tally) (v : UInt64) :
    (t.countSample v).hist.length = t.hist.length := List.length_modify _ _ _

theorem getD_countSample {t : Tally} (ht : t.hist.length = kBuckets) (v : UInt64) (b : Nat) :
    (t.countSample v).hist.getD b 0 = t.hist.getD b 0 + if bucketOf v = b then 1 else 0 := by
  have hlt : bucketOf v < t.hist.length := by
    rw [ht]
    exact Nat.lt_succ_of_le (bucketOf_spec v).1
  rw [Tally.countSample, List.getD_eq_getElem?_getD, List.getD_eq_getElem?_getD,
    List.getElem?_modify]
  split_ifs with heq
  · subst heq
    simp [List.getElem?_eq_getElem hlt]
  · simp

theorem getD_foldl_countSample (samples : List UInt64) (b : Nat) :
    ∀ t : Tally, t.hist.length = kBuckets →
      (samples.foldl Tally.countSample t).hist.getD b 0 =
        t.hist.getD b 0 + samples.countP fun v => decide (bucketOf v = b) := by
  induction samples with
  | nil =>
      intro t _
      rfl
  | cons v samples ih =>
      intro t ht
      rw [List.foldl_cons, ih _ ((length_countSample t v).trans ht), getD_countSample ht,
        List.countP_cons]
      simp only [decide_eq_true_eq]
      omega

theorem getD_tally (h : LatencyHist) (b : Nat) :
    h.tally.hist.getD b 0 = h.samples.countP fun v => decide (bucketOf v = b) := by
  have hzero : ({} : Tally).hist.getD b 0 = 0 := by
    rw [List.getD_eq_getElem?_getD, List.getElem?_replicate]
    split_ifs <;> rfl
  rw [tally, getD_foldl_countSample _ _ _ (List.length_replicate), hzero, Nat.zero_add]

theorem row?_eq_some {t : Tally} {b : Nat} {row : HistogramRow} (hrow : t.row? b = some row) :
    row.lo = loOf b ∧ row.hi = hiOf b ∧ row.count = t.hist.getD b 0 := by
  unfold Tally.row? at hrow
  rw [Option.ite_none_left_eq_some] at hrow
  obtain ⟨-, hrow⟩ := hrow
  obtain rfl := Option.some.inj hrow
  exact ⟨rfl, rfl, rfl⟩

theorem sum_counts (t : Tally) (bs : List Nat) :
    ((bs.filterMap t.row?).map HistogramRow.count).sum = (bs.map (t.hist.getD · 0)).sum := by
  induction bs with
  | nil => rfl
  | cons b bs ih =>
      rw [List.filterMap_cons, List.map_cons, List.sum_cons, ← ih]
      cases hrow : t.row? b with
      | none =>
          have hzero : t.hist.getD b 0 = 0 := by
            unfold Tally.row? at hrow
            split_ifs at hrow with hzero
            exact hzero
          rw [hzero, Nat.zero_add]
      | some row => rw [List.map_cons, List.sum_cons, (row?_eq_some hrow).2.2]

/-! ### The rows -/

variable {h : LatencyHist}

theorem mem_rows_iff {row : HistogramRow} :
    row ∈ h.rows ↔ ∃ b ≤ 20, h.tally.row? b = some row := by
  rw [rows, List.mem_filterMap]
  simp only [List.mem_range, kBuckets, Nat.lt_succ_iff]

theorem exists_row {v : UInt64} (hv : v ∈ h.samples) :
    ∃ row, h.tally.row? (bucketOf v) = some row := by
  have hpos : 0 < h.samples.countP fun v' => decide (bucketOf v' = bucketOf v) :=
    List.countP_pos_iff.mpr ⟨v, hv, decide_eq_true rfl⟩
  rw [Tally.row?, getD_tally, if_neg hpos.ne']
  exact ⟨_, rfl⟩

/-- The samples counted in a row are those that it covers, up to the last bound. -/
theorem covers_iff {b : Nat} (hb : b ≤ 20) {row : HistogramRow} (hrow : h.tally.row? b = some row)
    (v : UInt64) : row.Covers v ↔ bucketOf v = b ∧ v.toNat < 2 ^ 20 := by
  obtain ⟨hlo, hhi, -⟩ := row?_eq_some hrow
  rw [HistogramRow.Covers, hlo, hhi]
  exact between_iff hb v

theorem sum_rows (h : LatencyHist) : (h.rows.map HistogramRow.count).sum = h.count := by
  have hlt : ∀ v, bucketOf v < kBuckets := fun v => Nat.lt_succ_of_le (bucketOf_spec v).1
  rw [rows, sum_counts, count, ← sum_range_countP hlt]
  simp only [getD_tally]
  rfl

/-- A sample past the last bound is counted in the last row, which then counts too many. -/
theorem count_eq_iff :
    (∀ row ∈ h.rows, row.count = h.samples.countP fun v => decide (row.Covers v)) ↔
      ∀ v ∈ h.samples, v.toNat < 2 ^ 20 := by
  constructor
  · intro hcount v hv
    have hb := (bucketOf_spec v).1
    obtain ⟨row, hrow⟩ := exists_row hv
    have heq := hcount row (mem_rows_iff.mpr ⟨_, hb, hrow⟩)
    rw [(row?_eq_some hrow).2.2, getD_tally] at heq
    have hcovers : ∀ v', decide (row.Covers v') = true → decide (bucketOf v' = bucketOf v) = true :=
      fun v' hv' => decide_eq_true ((covers_iff hb hrow v').mp (of_decide_eq_true hv')).1
    have hcovered := (countP_eq_countP_iff hcovers).mp heq.symm v hv (decide_eq_true rfl)
    exact ((covers_iff hb hrow v).mp (of_decide_eq_true hcovered)).2
  · intro hlast row hmem
    obtain ⟨b, hb, hrow⟩ := mem_rows_iff.mp hmem
    rw [(row?_eq_some hrow).2.2, getD_tally]
    refine List.countP_congr fun v hv => ?_
    rw [decide_eq_true_iff, decide_eq_true_iff, covers_iff hb hrow v, and_iff_left (hlast v hv)]

theorem counted_once {v : UInt64} (hv : v ∈ h.samples) (hlast : v.toNat < 2 ^ 20) :
    (h.rows.countP fun row => decide (row.Covers v)) = 1 := by
  have hlt : bucketOf v < kBuckets := Nat.lt_succ_of_le (bucketOf_spec v).1
  rw [rows, List.countP_filterMap,
    ← List.count_eq_one_of_mem List.nodup_range (List.mem_range.mpr hlt)]
  refine List.countP_congr fun b hb => ?_
  have hb' : b ≤ 20 := Nat.lt_succ_iff.mp (List.mem_range.mp hb)
  cases hrow : h.tally.row? b with
  | none =>
      have hne : b ≠ bucketOf v := by
        rintro rfl
        obtain ⟨row, hrow'⟩ := exists_row hv
        exact nomatch hrow.symm.trans hrow'
      simpa using hne
  | some row =>
      rw [Option.map_some, Option.getD_some, decide_eq_true_iff, covers_iff hb' hrow,
        and_iff_left hlast, beq_iff_eq]
      exact eq_comm

/-- The rows are true exactly when no sample is past the last of them. -/
theorem histogram_rows_true_iff (h : LatencyHist) :
    h.RowsTrue ↔ ∀ v ∈ h.samples, v.toNat < 2 ^ 20 :=
  ⟨fun htrue => count_eq_iff.mp htrue.count_eq,
    fun hlast => ⟨count_eq_iff.mpr hlast, fun v hv => counted_once hv (hlast v hv), sum_rows h⟩⟩

/-- A sample of two milliseconds, in a row that ends at one. -/
theorem histogram_row_of_slow_sample :
    (LatencyHist.mk [2097152]).printHistogram =
        ByteText.ascii "  distribution (ns, log2 buckets):\n" ++
          ByteText.ascii "    [524288,1048576)  ########################################  1\n" ∧
      (LatencyHist.mk [2097152]).rows = [⟨524288, 1048576, 40, 1⟩] ∧
      ¬ (⟨524288, 1048576, 40, 1⟩ : HistogramRow).Covers 2097152 ∧
      ¬ (LatencyHist.mk [2097152]).RowsTrue := by
  have hrows : (LatencyHist.mk [2097152]).rows = [⟨524288, 1048576, 40, 1⟩] := by decide
  refine ⟨by decide, hrows, by decide, fun htrue => ?_⟩
  have hcount := htrue.count_eq ⟨524288, 1048576, 40, 1⟩ (by rw [hrows]; exact List.mem_cons_self)
  exact absurd hcount (by decide)

end LatencyHist

end HftOrderbook
