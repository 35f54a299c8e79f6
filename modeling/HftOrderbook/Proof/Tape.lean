import HftOrderbook.Book.Tape
import HftOrderbook.Library.MaximalRuns

/-!
# Bars partition the tape

The bar in progress summarises the last run of trades of one bucket, the closed bars summarise the
runs before it. A trade extends the last run or begins the next one, and the bar goes along.
-/

namespace HftOrderbook

open MaximalRuns

/-! ### What a bar says of its trades -/

def shares (prints : List Print) : Nat := (prints.map fun p => p.qty.toNat).sum

/-- The longest stretches of consecutive trades in one bucket. -/
def bucketRuns (interval : UInt64) (prints : List Print) : List (List Print) :=
  maximalRuns (fun p => p.ts / interval) prints

theorem flatten_bucketRuns (interval : UInt64) (prints : List Print) :
    (bucketRuns interval prints).flatten = prints :=
  flatten_maximalRuns _ prints

section Summary

variable {F : Type} [TapeFloat F]

def notionalOf (prints : List Print) : F :=
  prints.foldl (fun notional p => TapeFloat.accrue notional p.px p.qty) TapeFloat.zero

structure Summarises (interval : UInt64) (bar : Bar F) (run : List Print) : Prop where
  startNs : ∀ p ∈ run, bar.startNs = p.ts / interval * interval
  openPx : run.head?.map Print.px = some bar.openPx
  close : run.getLast?.map Print.px = some bar.close
  high : IsGreatest {px | px ∈ run.map Print.px} bar.high
  low : IsLeast {px | px ∈ run.map Print.px} bar.low
  volume : bar.volume = UInt64.ofNat (shares run)
  vwap : bar.vwap = TradeTape.vwapOf (notionalOf run) bar.volume

end Summary

theorem shares_append (prints prints' : List Print) :
    shares (prints ++ prints') = shares prints + shares prints' := by
  simp [shares]

theorem shares_singleton (p : Print) : shares [p] = p.qty.toNat := by
  simp [shares]

theorem shares_flatten (runs : List (List Print)) :
    shares runs.flatten = (runs.map shares).sum := by
  induction runs with
  | nil => rfl
  | cons run runs ih => rw [List.flatten_cons, shares_append, ih, List.map_cons, List.sum_cons]

theorem notionalOf_concat {F : Type} [TapeFloat F] (prints : List Print) (p : Print) :
    notionalOf (prints ++ [p]) = TapeFloat.accrue (notionalOf prints : F) p.px p.qty := by
  rw [notionalOf, List.foldl_append]
  rfl

theorem ofNat_add_qty (n : Nat) (qty : Qty) :
    UInt64.ofNat n + qty.toUInt64 = UInt64.ofNat (n + qty.toNat) := by
  rw [UInt64.ofNat_add, UInt64.ofNat_uInt32ToNat]

theorem isGreatest_concat {prices : List Price} {high : Price}
    (h : IsGreatest {x | x ∈ prices} high) (px : Price) :
    IsGreatest {x | x ∈ prices ++ [px]} (if high < px then px else high) := by
  have hset : {x | x ∈ prices ++ [px]} = insert px {x | x ∈ prices} := by
    ext x
    simp [or_comm]
  rw [hset, ← max_def_lt, max_comm]
  exact h.insert px

theorem isLeast_concat {prices : List Price} {low : Price}
    (h : IsLeast {x | x ∈ prices} low) (px : Price) :
    IsLeast {x | x ∈ prices ++ [px]} (if px < low then px else low) := by
  have hset : {x | x ∈ prices ++ [px]} = insert px {x | x ∈ prices} := by
    ext x
    simp [or_comm]
  rw [hset, ← min_def_lt]
  exact h.insert px

namespace TradeTape

variable {F : Type} [TapeFloat F] {t : TradeTape F}

/-- The bar in progress, were it closed now, would summarise `run`. -/
structure Gathers (t : TradeTape F) (run : List Print) : Prop where
  bucket : ∀ p ∈ run, p.ts / t.interval = t.curBucket
  startNs : t.cur.startNs = t.curBucket * t.interval
  notional : t.curNotional = notionalOf run
  bar : Summarises t.interval (finalize t.cur t.curNotional) run

theorem gathers_startBar (t : TradeTape F) (p : Print) :
    ((t.startBar p.px (p.ts / t.interval)).extendBar p.px p.qty).Gathers [p] where
  bucket := by simp [startBar, extendBar]
  startNs := rfl
  notional := rfl
  bar :=
    { startNs := by simp [startBar, extendBar, finalize]
      openPx := rfl
      close := rfl
      high := by simp [startBar, extendBar, finalize]
      low := by simp [startBar, extendBar, finalize]
      volume := by
        rw [shares_singleton, ← Nat.zero_add p.qty.toNat, ← ofNat_add_qty]
        rfl
      vwap := rfl }

theorem Gathers.record {run : List Print} (h : t.Gathers run) (px : Price) (qty : Qty)
    (ts : UInt64) : (t.record px qty ts).Gathers run :=
  ⟨h.bucket, h.startNs, h.notional, h.bar⟩

theorem Gathers.extendBar {run : List Print} (h : t.Gathers run) {p : Print}
    (hbucket : p.ts / t.interval = t.curBucket) :
    (t.extendBar p.px p.qty).Gathers (run ++ [p]) where
  bucket := by
    intro q hq
    rcases List.mem_append.mp hq with hq | hq
    · exact h.bucket q hq
    · rw [List.mem_singleton.mp hq]
      exact hbucket
  startNs := h.startNs
  notional := by
    rw [notionalOf_concat, ← h.notional]
    rfl
  bar :=
    { startNs := by
        intro q hq
        rcases List.mem_append.mp hq with hq | hq
        · exact h.bar.startNs q hq
        · rw [List.mem_singleton.mp hq]
          change t.cur.startNs = p.ts / t.interval * t.interval
          rw [h.startNs, hbucket]
      openPx := by
        rw [List.head?_append, Option.map_or, h.bar.openPx]
        rfl
      close := by
        rw [List.getLast?_concat]
        rfl
      high := by
        rw [List.map_append]
        exact isGreatest_concat h.bar.high p.px
      low := by
        rw [List.map_append]
        exact isLeast_concat h.bar.low p.px
      volume := by
        rw [shares_append, shares_singleton, ← ofNat_add_qty, ← h.bar.volume]
        rfl
      vwap := by
        rw [notionalOf_concat, ← h.notional]
        rfl }

/-- The closed bars summarise all runs but the last, which the bar in progress gathers. -/
inductive Groups (t : TradeTape F) (runs : List (List Print)) : Prop
  | idle (hruns : runs = []) (hopen : t.curOpen = false) (hclosed : t.closed = [])
  | filling (done : List (List Print)) (run : List Print) (hruns : runs = done ++ [run])
      (hopen : t.curOpen = true) (hclosed : List.Forall₂ (Summarises t.interval) t.closed done)
      (hcur : t.Gathers run)

theorem onTrade_of_idle (hopen : t.curOpen = false) (p : Print) :
    t.onTrade p.px p.qty p.ts =
      ((t.record p.px p.qty p.ts).startBar p.px (p.ts / t.interval)).extendBar p.px p.qty := by
  simp [onTrade, openBar, record, hopen]

theorem onTrade_of_same (hopen : t.curOpen = true) {p : Print}
    (hbucket : p.ts / t.interval = t.curBucket) :
    t.onTrade p.px p.qty p.ts = (t.record p.px p.qty p.ts).extendBar p.px p.qty := by
  simp [onTrade, openBar, record, hopen, hbucket]

theorem onTrade_of_next (hopen : t.curOpen = true) {p : Print}
    (hbucket : p.ts / t.interval ≠ t.curBucket) :
    t.onTrade p.px p.qty p.ts =
      ((t.record p.px p.qty p.ts).closeBar.startBar p.px (p.ts / t.interval)).extendBar
        p.px p.qty := by
  simp [onTrade, openBar, record, hopen, hbucket]

theorem Groups.onTrade {prints : List Print} (h : t.Groups (bucketRuns t.interval prints))
    (p : Print) :
    (t.onTrade p.px p.qty p.ts).Groups (bucketRuns t.interval (prints ++ [p])) := by
  cases h with
  | idle hruns hopen hclosed =>
      obtain rfl : prints = [] := maximalRuns_eq_nil.mp hruns
      rw [onTrade_of_idle hopen]
      exact .filling [] [p] rfl rfl (hclosed ▸ .nil) (gathers_startBar (t.record _ _ _) p)
  | filling done run hruns hopen hclosed hcur =>
      by_cases hbucket : p.ts / t.interval = t.curBucket
      · have hconcat := maximalRuns_concat_eq hruns
          (fun q hq => (hcur.bucket q hq).trans hbucket.symm)
        rw [onTrade_of_same hopen hbucket]
        exact .filling done (run ++ [p]) hconcat hopen hclosed
          ((hcur.record p.px p.qty p.ts).extendBar hbucket)
      · have hconcat := maximalRuns_concat_ne hruns
          (fun q hq heq => hbucket (heq.symm.trans (hcur.bucket q hq)))
        rw [onTrade_of_next hopen hbucket]
        exact .filling (done ++ [run]) [p] hconcat rfl
          (List.rel_append hclosed (.cons hcur.bar .nil))
          (gathers_startBar (t.record _ _ _).closeBar p)

theorem interval_onTrade (t : TradeTape F) (px : Price) (qty : Qty) (ts : UInt64) :
    (t.onTrade px qty ts).interval = t.interval := by
  unfold TradeTape.onTrade openBar
  split_ifs <;> rfl

theorem onTrades_concat (t : TradeTape F) (prints : List Print) (p : Print) :
    t.onTrades (prints ++ [p]) = (t.onTrades prints).onTrade p.px p.qty p.ts := by
  rw [onTrades, List.foldl_append]
  rfl

theorem interval_onTrades (t : TradeTape F) (prints : List Print) :
    (t.onTrades prints).interval = t.interval := by
  induction prints using List.reverseRecOn with
  | nil => rfl
  | append_singleton prints p ih => rw [onTrades_concat, interval_onTrade, ih]

theorem groups_onTrades (barIntervalNs : UInt64) (prints : List Print) :
    ((TradeTape.new barIntervalNs : TradeTape F).onTrades prints).Groups
      (bucketRuns (barInterval barIntervalNs) prints) := by
  induction prints using List.reverseRecOn with
  | nil => exact .idle rfl rfl rfl
  | append_singleton prints p ih =>
      have hinterval := interval_onTrades (TradeTape.new barIntervalNs : TradeTape F) prints
      change _ = barInterval barIntervalNs at hinterval
      rw [← hinterval] at ih ⊢
      rw [onTrades_concat]
      exact ih.onTrade p

theorem cumVol_onTrades (barIntervalNs : UInt64) (prints : List Print) :
    ((TradeTape.new barIntervalNs : TradeTape F).onTrades prints).cumVol =
      UInt64.ofNat (shares prints) := by
  induction prints using List.reverseRecOn with
  | nil => rfl
  | append_singleton prints p ih =>
      rw [onTrades_concat, shares_append, shares_singleton, ← ofNat_add_qty, ← ih]
      unfold TradeTape.onTrade openBar
      split_ifs <;> rfl

theorem barCount_eq (t : TradeTape F) : t.barCount = (t.bars true).length := by
  unfold barCount bars
  cases t.curOpen
  · rfl
  · rw [Bool.and_self, if_pos rfl, if_pos rfl, List.length_append]
    rfl

theorem Groups.bars {runs : List (List Print)} (h : t.Groups runs) :
    List.Forall₂ (Summarises t.interval) (t.bars true) runs := by
  cases h with
  | idle hruns hopen hclosed =>
      rw [TradeTape.bars, hopen, hclosed, hruns]
      exact .nil
  | filling done run hruns hopen hclosed hcur =>
      rw [TradeTape.bars, hopen, hruns]
      exact List.rel_append hclosed (.cons hcur.bar .nil)

theorem Groups.bars_false {runs : List (List Print)} (h : t.Groups runs) :
    t.bars false = (t.bars true).dropLast := by
  cases h with
  | idle hruns hopen hclosed =>
      rw [TradeTape.bars, TradeTape.bars, hopen, hclosed]
      rfl
  | filling done run hruns hopen hclosed hcur =>
      rw [TradeTape.bars, TradeTape.bars, hopen]
      exact (List.dropLast_concat).symm

end TradeTape

/-! ### The bars of a whole tape -/

section Bars

variable {F : Type} [TapeFloat F] {interval : UInt64}

theorem toNat_bucket_mul (interval ts : UInt64) :
    (ts / interval * interval).toNat = ts.toNat / interval.toNat * interval.toNat := by
  rw [UInt64.toNat_mul, UInt64.toNat_div]
  exact Nat.mod_eq_of_lt ((Nat.div_mul_le_self _ _).trans_lt ts.toNat_lt)

theorem barInterval_pos (barIntervalNs : UInt64) : 0 < (barInterval barIntervalNs).toNat := by
  unfold barInterval
  split_ifs with hzero
  · decide
  · exact Nat.pos_of_ne_zero fun h => hzero (UInt64.toNat_inj.mp h)

theorem Summarises.startNs_le {bar : Bar F} {run : List Print} (h : Summarises interval bar run)
    (hpos : 0 < interval.toNat) {p : Print} (hp : p ∈ run) :
    bar.startNs.toNat ≤ p.ts.toNat ∧ p.ts.toNat < bar.startNs.toNat + interval.toNat := by
  rw [h.startNs p hp, toNat_bucket_mul]
  refine ⟨Nat.div_mul_le_self _ _, ?_⟩
  have hmod := Nat.mod_lt p.ts.toNat hpos
  have hdiv := Nat.div_add_mod p.ts.toNat interval.toNat
  rw [Nat.mul_comm] at hdiv
  omega

theorem Summarises.exists_mem {bar : Bar F} {run : List Print} (h : Summarises interval bar run) :
    ∃ p, p ∈ run := by
  obtain ⟨p, hp, -⟩ := Option.map_eq_some_iff.mp h.openPx
  exact ⟨p, List.mem_of_mem_head? hp⟩

theorem shares_le_of_mem {runs : List (List Print)} {run : List Print} (hrun : run ∈ runs) :
    shares run ≤ shares runs.flatten := by
  rw [shares_flatten]
  exact List.single_le_sum (fun _ _ => Nat.zero_le _) _ (List.mem_map_of_mem hrun)

/-- Bars of runs in rising buckets start at rising times. -/
theorem startNs_lt_of_bucket_lt {bar bar' : Bar F} {run run' : List Print}
    (h : Summarises interval bar run) (h' : Summarises interval bar' run')
    (hpos : 0 < interval.toNat)
    (hlt : ∀ p ∈ run, ∀ q ∈ run', p.ts / interval < q.ts / interval) :
    bar.startNs < bar'.startNs := by
  obtain ⟨p, hp⟩ := h.exists_mem
  obtain ⟨q, hq⟩ := h'.exists_mem
  have hbuckets := UInt64.lt_iff_toNat_lt.mp (hlt p hp q hq)
  rw [UInt64.toNat_div, UInt64.toNat_div] at hbuckets
  rw [UInt64.lt_iff_toNat_lt, h.startNs p hp, h'.startNs q hq, toNat_bucket_mul, toNat_bucket_mul]
  exact Nat.mul_lt_mul_of_pos_right hbuckets hpos

theorem startNs_rises {bars : List (Bar F)} {prints : List Print} (hpos : 0 < interval.toNat)
    (hbars : List.Forall₂ (Summarises interval) bars (bucketRuns interval prints))
    (hprints : prints.Pairwise fun p q => p.ts ≤ q.ts) :
    (bars.map Bar.startNs).Pairwise (· < ·) := by
  have hruns : (bucketRuns interval prints).Pairwise fun run next =>
      ∀ p ∈ run, ∀ q ∈ next, p.ts / interval < q.ts / interval := by
    have htrans : IsTrans UInt64 (· < ·) := ⟨fun _ _ _ => UInt64.lt_trans⟩
    refine pairwise_key_of_ne (hprints.imp fun {p q} hle hne => ?_)
    have hdiv : p.ts / interval ≤ q.ts / interval := by
      rw [UInt64.le_iff_toNat_le, UInt64.toNat_div, UInt64.toNat_div]
      exact Nat.div_le_div_right (UInt64.le_iff_toNat_le.mp hle)
    exact UInt64.lt_of_le_of_ne hdiv hne
  obtain ⟨hlength, hget⟩ := List.forall₂_iff_get.mp hbars
  rw [List.pairwise_map, List.pairwise_iff_getElem]
  intro i j hi hj hij
  exact startNs_lt_of_bucket_lt (hget i hi (hlength ▸ hi)) (hget j hj (hlength ▸ hj)) hpos
    (List.pairwise_iff_getElem.mp hruns i j (hlength ▸ hi) (hlength ▸ hj) hij)

theorem toNat_volume_of_summarises {bars : List (Bar F)} {prints : List Print}
    (hbars : List.Forall₂ (Summarises interval) bars (bucketRuns interval prints))
    (htotal : shares prints < 2 ^ 64) :
    List.Forall₂ (fun bar run => bar.volume.toNat = shares run) bars
      (bucketRuns interval prints) := by
  obtain ⟨hlength, hget⟩ := List.forall₂_iff_get.mp hbars
  refine List.forall₂_iff_get.mpr ⟨hlength, fun i hi hi' => ?_⟩
  have hle := shares_le_of_mem (List.get_mem (bucketRuns interval prints) ⟨i, hi'⟩)
  rw [flatten_bucketRuns] at hle
  rw [(hget i hi hi').volume]
  exact UInt64.toNat_ofNat_of_lt' (hle.trans_lt htotal)

end Bars

/-- For every bar interval and every tape of fewer than `2 ^ 64` shares. -/
theorem tape_bars_partition {F : Type} [TapeFloat F] (barIntervalNs : UInt64) (prints : List Print)
    (htotal : shares prints < 2 ^ 64) :
    let interval := barInterval barIntervalNs
    let t : TradeTape F := (TradeTape.new barIntervalNs).onTrades prints
    List.Forall₂ (fun bar run => Summarises interval bar run ∧ bar.volume.toNat = shares run ∧
        ∀ p ∈ run, bar.startNs.toNat ≤ p.ts.toNat ∧
          p.ts.toNat < bar.startNs.toNat + interval.toNat)
      (t.bars true) (bucketRuns interval prints) ∧
    ((t.bars true).map fun bar => bar.volume.toNat).sum = t.volume.toNat ∧
    t.barCount = (t.bars true).length ∧
    t.bars false = (t.bars true).dropLast ∧
    (prints.Pairwise (fun p q => p.ts ≤ q.ts) →
      ((t.bars true).map Bar.startNs).Pairwise (· < ·)) := by
  intro interval t
  have hgroups : t.Groups (bucketRuns interval prints) :=
    TradeTape.groups_onTrades barIntervalNs prints
  have hinterval : t.interval = interval := TradeTape.interval_onTrades _ prints
  have hpos : 0 < interval.toNat := barInterval_pos barIntervalNs
  have hbars : List.Forall₂ (Summarises interval) (t.bars true) (bucketRuns interval prints) :=
    hinterval ▸ hgroups.bars
  have hvolumes := toNat_volume_of_summarises hbars htotal
  refine ⟨?_, ?_, t.barCount_eq, hgroups.bars_false, startNs_rises hpos hbars⟩
  · refine List.Forall₂.mp (fun bar run hbar hvolume => ⟨hbar, hvolume, ?_⟩) hbars hvolumes
    exact fun p hp => hbar.startNs_le hpos hp
  · have hmap : (t.bars true).map (fun bar => bar.volume.toNat) =
        (bucketRuns interval prints).map shares := by
      rw [← List.forall₂_eq_eq_eq, List.forall₂_map_left_iff, List.forall₂_map_right_iff]
      exact hvolumes
    have hvolume : t.volume.toNat = shares prints := by
      rw [TradeTape.volume, TradeTape.cumVol_onTrades]
      exact UInt64.toNat_ofNat_of_lt' htotal
    rw [hmap, hvolume, ← shares_flatten, flatten_bucketRuns]

def fourPrints : List Print :=
  [⟨1000000, 10, 100⟩, ⟨1000300, 20, 500⟩, ⟨999800, 30, 900⟩, ⟨1000100, 40, 1500⟩]

theorem tape_bars_partition_four :
    shares fourPrints < 2 ^ 64 ∧
      List.Forall₂ (fun (bar : Bar ℚ) run => Summarises 1000 bar run ∧
          bar.volume.toNat = shares run)
        (((TradeTape.new 1000).onTrades fourPrints).bars true)
        [fourPrints.take 3, fourPrints.drop 3] := by
  have hshares : shares fourPrints < 2 ^ 64 := by decide
  have hbars := (tape_bars_partition (F := ℚ) 1000 fourPrints hshares).1
  exact ⟨hshares, hbars.imp fun _ _ hbar => ⟨hbar.1, hbar.2.1⟩⟩

end HftOrderbook
