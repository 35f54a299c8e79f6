import HftOrderbook.Core.WindowedLevels

/-!
# The windowed store keeps its totals

The invariant `Based` says how the totals of a side are spread: a price inside the window is in its
slot, every other price is in the overflow, and whatever is in the overflow is worse than anything
the window can hold. The last clause is what makes the tracked index enough to find the best quote,
and it survives a re-centring because the store only re-centres on a price better than all it has.
-/

namespace HftOrderbook.WindowedLevels

variable {c : Compare} {w : WindowedLevels c} {t : Totals} {p : Price} {q : Qty}

/-! ### Slots and indices -/

theorem inWindow_iff (hbase : w.hasBase = true) :
    w.InWindow p ↔ ∃ i : Nat, i < kWindow ∧ p = w.base + i := by
  unfold InWindow
  constructor
  · rintro ⟨-, hlow, hhigh⟩
    exact ⟨(p - w.base).toNat, by grind, by grind⟩
  · rintro ⟨i, hi, rfl⟩
    exact ⟨hbase, by grind, by grind⟩

theorem index_add (w : WindowedLevels c) {i : Nat} (hi : i < kWindow) :
    w.index (w.base + i) = i := by
  unfold index kWindow at *
  omega

theorem prevSlot_cases (slots : List Qty) {i : Nat} (hi : i ≤ slots.length) :
    (∃ j, prevSlot slots i = some (some j) ∧ j < i ∧ slots.getD j 0 ≠ 0 ∧
        ∀ k, j < k → k < i → slots.getD k 0 = 0) ∨
      (prevSlot slots i = some none ∧ ∀ k, k < i → slots.getD k 0 = 0) := by
  induction i with
  | zero => exact Or.inr ⟨rfl, fun k hk => absurd hk (Nat.not_lt_zero k)⟩
  | succ i ih =>
      have hread : slots[i]? = some (slots.getD i 0) := by
        simp [List.getElem?_eq_getElem (show i < slots.length by omega)]
      rw [prevSlot, hread]
      by_cases hq : slots.getD i 0 = 0
      · simp only [hq, ne_eq, not_true_eq_false, if_false]
        rcases ih (by omega) with ⟨j, hj, hlt, hne, hzero⟩ | ⟨hnone, hzero⟩
        · refine Or.inl ⟨j, hj, by omega, hne, fun k hjk hki => ?_⟩
          rcases Nat.lt_succ_iff_lt_or_eq.mp hki with hki | rfl
          · exact hzero k hjk hki
          · exact hq
        · refine Or.inr ⟨hnone, fun k hk => ?_⟩
          rcases Nat.lt_succ_iff_lt_or_eq.mp hk with hk | rfl
          · exact hzero k hk
          · exact hq
      · exact Or.inl ⟨i, by simp only [ne_eq, hq, not_false_eq_true, if_true], by omega, hq,
          fun k hik hki => by omega⟩

theorem succSlot_cases (slots : List Qty) (i : Nat) :
    (∃ j, succSlot slots i = some (some j) ∧ i < j ∧ j < slots.length ∧ slots.getD j 0 ≠ 0 ∧
        ∀ k, i < k → k < j → slots.getD k 0 = 0) ∨
      (succSlot slots i = some none ∧ ∀ k, i < k → k < slots.length → slots.getD k 0 = 0) := by
  fun_induction succSlot slots i with
  | case1 i hend =>
      exact Or.inr ⟨rfl, fun k hik hk => by omega⟩
  | case2 i hend hread =>
      rw [List.getElem?_eq_none_iff] at hread
      omega
  | case3 i hend old hread hq =>
      have hold : slots.getD (i + 1) 0 = old := by simp [List.getD, hread]
      exact Or.inl ⟨i + 1, rfl, by omega, by omega, by rwa [hold], fun k hik hki => by omega⟩
  | case4 i hend old hread hq ih =>
      have hold : slots.getD (i + 1) 0 = 0 := by
        simpa [List.getD, hread] using hq
      have hsplit : ∀ k, i < k → k = i + 1 ∨ i + 1 < k := fun k hk => by omega
      rcases ih with ⟨j, hj, hlt, hlen, hne, hzero⟩ | ⟨hnone, hzero⟩
      · refine Or.inl ⟨j, hj, by omega, hlen, hne, fun k hik hkj => ?_⟩
        rcases hsplit k hik with rfl | hk
        · exact hold
        · exact hzero k hk hkj
      · refine Or.inr ⟨hnone, fun k hik hk => ?_⟩
        rcases hsplit k hik with rfl | hk'
        · exact hold
        · exact hzero k hk' hk

/-- The walk stops at the best non-empty slot behind `i`, in quote order. -/
theorem nextWindowIdx_cases (hlen : w.slots.length = kWindow) {i : Nat} (hi : i < kWindow) :
    (∃ j < kWindow, w.nextWindowIdx i = some (some j) ∧ w.slots.getD j 0 ≠ 0 ∧
        c.lt (w.base + i) (w.base + j) ∧
        ∀ k < kWindow, w.slots.getD k 0 ≠ 0 → c.lt (w.base + i) (w.base + k) →
          ¬ c.lt (w.base + k) (w.base + j)) ∨
      (w.nextWindowIdx i = some none ∧
        ∀ k < kWindow, w.slots.getD k 0 ≠ 0 → ¬ c.lt (w.base + i) (w.base + k)) := by
  cases c with
  | greater =>
      have hnext : w.nextWindowIdx i = prevSlot w.slots i := rfl
      rw [hnext]
      rcases prevSlot_cases w.slots (show i ≤ w.slots.length by omega) with
        ⟨j, hj, hlt, hne, hzero⟩ | ⟨hnone, hzero⟩
      · refine Or.inl ⟨j, by omega, hj, hne, ?_, fun k _ hk hik hkj => hk (hzero k ?_ ?_)⟩ <;>
          simp only [Compare.lt] at * <;> grind
      · refine Or.inr ⟨hnone, fun k _ hk hik => hk (hzero k ?_)⟩
        simp only [Compare.lt] at hik
        grind
  | less =>
      have hnext : w.nextWindowIdx i = succSlot w.slots i := rfl
      rw [hnext]
      rcases succSlot_cases w.slots i with ⟨j, hj, hlt, hjlen, hne, hzero⟩ | ⟨hnone, hzero⟩
      · refine Or.inl ⟨j, by omega, hj, hne, ?_, fun k _ hk hik hkj => hk (hzero k ?_ ?_)⟩ <;>
          simp only [Compare.lt] at * <;> grind
      · refine Or.inr ⟨hnone, fun k hklen hk hik => hk (hzero k ?_ (by omega))⟩
        simp only [Compare.lt] at hik
        grind

/-! ### The invariant -/

def outside (w : WindowedLevels c) (t : Totals) : Totals := fun p => if w.InWindow p then 0 else t p

structure Based (w : WindowedLevels c) (t : Totals) : Prop where
  hasBase : w.hasBase = true
  base_nonneg : 0 ≤ w.base
  length : w.slots.length = kWindow
  fits : t.Fits
  slot : ∀ i < kWindow, w.slots.getD i 0 = UInt32.ofNat (t (w.base + i))
  count : w.count = w.slots.countP (· ≠ 0)
  best : 0 < w.count → w.bestIdx < kWindow ∧ t (w.base + w.bestIdx) ≠ 0 ∧
    ∀ i < kWindow, t (w.base + i) ≠ 0 → ¬ c.lt (w.base + i) (w.base + w.bestIdx)
  overflow : w.overflow.Represents (w.outside t)
  worse : ∀ p, t p ≠ 0 → ¬ w.InWindow p → ∀ i < kWindow, c.lt (w.base + i) p

namespace Based

theorem slot_ne_zero_iff (h : Based w t) {i : Nat} (hi : i < kWindow) :
    w.slots.getD i 0 ≠ 0 ↔ t (w.base + i) ≠ 0 := by
  rw [h.slot i hi, ne_eq, ne_eq, ← UInt32.toNat_inj, UInt32.toNat_ofNat_of_lt' (h.fits _)]
  rfl

theorem read (h : Based w t) {i : Nat} (hi : i < kWindow) :
    w.slots[i]? = some (UInt32.ofNat (t (w.base + i))) := by
  have hlt : i < w.slots.length := h.length ▸ hi
  rw [← h.slot i hi]
  simp [List.getElem?_eq_getElem hlt]

theorem count_pos_iff (h : Based w t) : 0 < w.count ↔ ∃ i < kWindow, t (w.base + i) ≠ 0 := by
  rw [h.count, List.countP_pos_iff]
  constructor
  · rintro ⟨q, hmem, hq⟩
    obtain ⟨i, hi, rfl⟩ := List.mem_iff_getElem.mp hmem
    have hi' : i < kWindow := h.length ▸ hi
    refine ⟨i, hi', (h.slot_ne_zero_iff hi').mp ?_⟩
    simpa [List.getElem?_eq_getElem hi] using hq
  · rintro ⟨i, hi, hne⟩
    have hlt : i < w.slots.length := h.length ▸ hi
    refine ⟨w.slots[i], List.getElem_mem hlt, ?_⟩
    simpa [List.getElem?_eq_getElem hlt] using (h.slot_ne_zero_iff hi).mpr hne

/-- A price with a total is in a slot or behind the whole window. -/
theorem inWindow_or_worse (h : Based w t) (hp : t p ≠ 0) :
    (∃ i < kWindow, p = w.base + i) ∨ ∀ i < kWindow, c.lt (w.base + i) p := by
  by_cases hin : w.InWindow p
  · obtain ⟨i, hi, heq⟩ := (inWindow_iff h.hasBase).mp hin
    exact Or.inl ⟨i, hi, heq⟩
  · exact Or.inr (h.worse p hp hin)

end Based

theorem getD_set {slots : List Qty} {i : Nat} (hi : i < slots.length) (q : Qty) (k : Nat) :
    (slots.set i q).getD k 0 = if k = i then q else slots.getD k 0 := by
  simp only [List.getD, List.getElem?_set, hi, if_true]
  by_cases hk : k = i
  · simp [hk]
  · simp [hk, Ne.symm hk]

theorem countP_set_slot {slots : List Qty} {i : Nat} (hi : i < slots.length) (q : Qty) :
    (slots.set i q).countP (· ≠ 0) + (if slots.getD i 0 ≠ 0 then 1 else 0) =
      slots.countP (· ≠ 0) + if q ≠ 0 then 1 else 0 := by
  have hgetD : slots.getD i 0 = slots[i] := by simp [List.getElem?_eq_getElem hi]
  have hpos : slots[i] ≠ 0 → 0 < slots.countP (· ≠ 0) := fun hne =>
    List.countP_pos_iff.mpr ⟨slots[i], List.getElem_mem hi, by simpa using hne⟩
  rw [List.countP_set hi, hgetD]
  by_cases hold : slots[i] = 0
  · simp [hold]
  · have := hpos hold
    simp only [ne_eq, hold, not_false_eq_true, decide_true, if_true, decide_eq_true_eq] at this ⊢
    omega

theorem outside_update_of_inWindow (hin : w.InWindow p) (n : Nat) :
    w.outside (Function.update t p n) = w.outside t := by
  funext p'
  unfold outside
  by_cases hp : p' = p
  · subst hp
    simp [hin]
  · simp [hp]

theorem outside_inc_of_not_inWindow (hin : ¬ w.InWindow p) (n : Nat) :
    w.outside (t.inc p n) = (w.outside t).inc p n := by
  funext p'
  simp only [outside, Totals.inc_apply]
  by_cases hp : p' = p
  · subst hp
    simp [hin]
  · simp [hp]

theorem outside_dec_of_not_inWindow (hin : ¬ w.InWindow p) (n : Nat) :
    w.outside (t.dec p n) = (w.outside t).dec p n := by
  funext p'
  simp only [outside, Totals.dec_apply]
  by_cases hp : p' = p
  · subst hp
    simp [hin]
  · simp [hp]

theorem toNat_ne_zero (hq : q ≠ 0) : q.toNat ≠ 0 := fun hzero => hq (UInt32.toNat_inj.mp hzero)

theorem inc_ne_zero_iff (hq : q ≠ 0) (p' : Price) :
    t.inc p q.toNat p' ≠ 0 ↔ p' = p ∨ t p' ≠ 0 := by
  have := toNat_ne_zero hq
  rw [Totals.inc_apply]
  split_ifs with hp
  · simp [hp]
    omega
  · simp [hp]

/-! ### Storing a level -/

theorem Based.getD_set_slot (h : Based w t) {i k n : Nat} (hi : i < kWindow) (hk : k < kWindow) :
    (w.slots.set i (UInt32.ofNat n)).getD k 0 =
      UInt32.ofNat (Function.update t (w.base + i) n (w.base + k)) := by
  rw [getD_set (h.length ▸ hi), Function.update_apply, h.slot k hk]
  by_cases hki : k = i
  · rw [if_pos hki, if_pos (by rw [hki])]
  · rw [if_neg hki, if_neg (by grind)]

/-- Writing one slot, with the count and the best index brought up to date, moves the totals at its
price and nothing else. -/
theorem Based.setSlot (h : Based w t) {i n bestIdx count : Nat} (hi : i < kWindow)
    (hn : n < 2 ^ 32) (hcount : count = (w.slots.set i (UInt32.ofNat n)).countP (· ≠ 0))
    (hbest : 0 < count → bestIdx < kWindow ∧ Function.update t (w.base + i) n (w.base + bestIdx) ≠ 0
      ∧ ∀ k < kWindow, Function.update t (w.base + i) n (w.base + k) ≠ 0 →
        ¬ c.lt (w.base + k) (w.base + bestIdx)) :
    Based { w with slots := w.slots.set i (UInt32.ofNat n), bestIdx := bestIdx, count := count }
      (Function.update t (w.base + i) n) := by
  have hin : w.InWindow (w.base + i) := (inWindow_iff h.hasBase).mpr ⟨i, hi, rfl⟩
  refine ⟨h.hasBase, h.base_nonneg, by simpa using h.length, fun p' => ?_, fun k hk => ?_, hcount,
    hbest, ?_, fun p' hp' hnotIn => ?_⟩
  · rw [Function.update_apply]
    split_ifs
    · exact hn
    · exact h.fits p'
  · exact h.getD_set_slot hi hk
  · change LevelMap.Represents w.overflow (w.outside _)
    rw [outside_update_of_inWindow hin]
    exact h.overflow
  · have hne : p' ≠ w.base + i := by
      rintro rfl
      exact hnotIn hin
    rw [Function.update_of_ne hne] at hp'
    exact h.worse p' hp' hnotIn

theorem Based.placeInWindow (h : Based w t) (hin : w.InWindow p) (hq : q ≠ 0)
    (hfit : t p + q.toNat < 2 ^ 32) :
    ∃ w', w.placeInWindow p q = some w' ∧ w'.base = w.base ∧ Based w' (t.inc p q.toNat) := by
  obtain ⟨i, hi, rfl⟩ := (inWindow_iff h.hasBase).mp hin
  have hlt : i < w.slots.length := h.length ▸ hi
  have hnew : UInt32.ofNat (t (w.base + i)) + q = UInt32.ofNat (t (w.base + i) + q.toNat) := by
    rw [UInt32.ofNat_add, UInt32.ofNat_toNat]
  have hnewNe : UInt32.ofNat (t (w.base + i) + q.toNat) ≠ 0 := by
    rw [ne_eq, ← UInt32.toNat_inj, UInt32.toNat_ofNat_of_lt' hfit]
    have := toNat_ne_zero hq
    change ¬ _ = 0
    omega
  have hcount := countP_set_slot hlt (UInt32.ofNat (t (w.base + i) + q.toNat))
  rw [if_pos hnewNe, ← h.count, h.slot i hi] at hcount
  unfold WindowedLevels.placeInWindow
  rw [w.index_add hi, h.read hi]
  by_cases hzero : UInt32.ofNat (t (w.base + i)) = 0
  · simp only [if_pos hzero, hnew]
    rw [if_neg (not_not.mpr hzero)] at hcount
    refine ⟨_, rfl, rfl, h.setSlot hi hfit hcount.symm fun _ => ?_⟩
    -- the new level takes over the inside unless the old best stands before it
    split_ifs with hbetter
    · refine ⟨hi, (inc_ne_zero_iff hq _).mpr (Or.inl rfl), fun k hk hne hlt' => ?_⟩
      rcases (inc_ne_zero_iff hq _).mp hne with heq | hne
      · exact irrefl (r := c.lt) _ (heq ▸ hlt')
      · have hpos := h.count_pos_iff.mpr ⟨k, hk, hne⟩
        rcases hbetter with hempty | hbetter
        · omega
        · exact (h.best hpos).2.2 k hk hne (trans_of c.lt hlt' hbetter)
    · push Not at hbetter
      obtain ⟨hbest, hbestNe, hmin⟩ := h.best (Nat.pos_of_ne_zero hbetter.1)
      refine ⟨hbest, (inc_ne_zero_iff hq _).mpr (Or.inr hbestNe), fun k hk hne => ?_⟩
      rcases (inc_ne_zero_iff hq _).mp hne with heq | hne
      · exact heq ▸ hbetter.2
      · exact hmin k hk hne
  · simp only [if_neg hzero, hnew]
    rw [if_pos hzero] at hcount
    have hheld : t (w.base + i) ≠ 0 := fun heq => hzero (by rw [heq]; rfl)
    refine ⟨_, rfl, rfl, h.setSlot hi hfit (by omega) fun hpos => ?_⟩
    obtain ⟨hbest, hbestNe, hmin⟩ := h.best hpos
    refine ⟨hbest, (inc_ne_zero_iff hq _).mpr (Or.inr hbestNe), fun k hk hne => ?_⟩
    rcases (inc_ne_zero_iff hq _).mp hne with heq | hne
    · exact hmin k hk (heq ▸ hheld)
    · exact hmin k hk hne

/-- Totals that differ outside the window change the overflow alone. -/
theorem Based.of_outside (h : Based w t) {t' : Totals} {overflow : LevelMap c} (hfits : t'.Fits)
    (hsame : ∀ i < kWindow, t' (w.base + (i : Int)) = t (w.base + i))
    (hoverflow : overflow.Represents (w.outside t'))
    (hworse : ∀ p, t' p ≠ 0 → ¬ w.InWindow p → ∀ i < kWindow, c.lt (w.base + i) p) :
    Based { w with overflow } t' := by
  refine ⟨h.hasBase, h.base_nonneg, h.length, hfits, fun i hi => ?_, h.count, fun hpos => ?_,
    hoverflow, hworse⟩
  · rw [hsame i hi]
    exact h.slot i hi
  · obtain ⟨hbest, hbestNe, hmin⟩ := h.best hpos
    refine ⟨hbest, by rwa [hsame _ hbest], fun i hi hne => ?_⟩
    exact hmin i hi (by rwa [hsame i hi] at hne)

theorem Based.spill (h : Based w t) (hin : ¬ w.InWindow p) (hq : q ≠ 0)
    (hfit : t p + q.toNat < 2 ^ 32) (hworse : ∀ i < kWindow, c.lt (w.base + i) p) :
    Based { w with overflow := w.overflow.addAt p q } (t.inc p q.toNat) := by
  have hne : ∀ i < kWindow, w.base + (i : Int) ≠ p := by
    intro i hi heq
    exact hin ((inWindow_iff h.hasBase).mpr ⟨i, hi, heq.symm⟩)
  have hsame : ∀ i < kWindow, t.inc p q.toNat (w.base + i) = t (w.base + i) := by
    intro i hi
    rw [Totals.inc_apply, if_neg (hne i hi)]
  refine h.of_outside (h.fits.inc hfit) hsame ?_ fun p' hp' hnotIn => ?_
  · rw [outside_inc_of_not_inWindow hin]
    refine h.overflow.addAt hq ?_
    simpa [outside, hin] using hfit
  · rcases (inc_ne_zero_iff hq p').mp hp' with rfl | hp'
    · exact hworse
    · exact h.worse p' hp' hnotIn

/-! ### The ladder of a windowed store -/

def windowLadder : {c : Compare} → WindowedLevels c → List (Price × Qty)
  | .greater, w => w.windowEntries.reverse
  | .less, w => w.windowEntries

def ladder (w : WindowedLevels c) : List (Price × Qty) := w.windowLadder ++ w.overflow.entries

theorem windowEntries_perm_windowLadder (w : WindowedLevels c) :
    w.windowEntries.Perm w.windowLadder := by
  cases c with
  | greater => exact (List.reverse_perm _).symm
  | less => exact .refl _

theorem windowEntries_append_perm_ladder (w : WindowedLevels c) :
    (w.windowEntries ++ w.overflow.entries).Perm w.ladder :=
  w.windowEntries_perm_windowLadder.append_right _

theorem windowEntries_sorted (w : WindowedLevels c) :
    w.windowEntries.Pairwise fun a b => a.1 < b.1 := by
  refine List.Pairwise.filterMap _ ?_ List.pairwise_lt_range
  intro i j hij a ha b hb
  split_ifs at ha hb
  obtain rfl := Option.some.inj ha
  obtain rfl := Option.some.inj hb
  grind

theorem windowLadder_sorted (w : WindowedLevels c) :
    w.windowLadder.Pairwise fun a b => c.lt a.1 b.1 := by
  cases c with
  | greater => exact List.pairwise_reverse.mpr w.windowEntries_sorted
  | less => exact w.windowEntries_sorted

namespace Based

theorem mem_windowEntries_iff (h : Based w t) :
    (p, q) ∈ w.windowEntries ↔ w.InWindow p ∧ q.toNat = t p ∧ t p ≠ 0 := by
  rw [windowEntries, List.mem_filterMap]
  constructor
  · rintro ⟨i, hi, heq⟩
    rw [List.mem_range, h.length] at hi
    split_ifs at heq with hne
    obtain ⟨rfl, rfl⟩ := Prod.mk.inj (Option.some.inj heq)
    refine ⟨(inWindow_iff h.hasBase).mpr ⟨i, hi, rfl⟩, ?_, (h.slot_ne_zero_iff hi).mp hne⟩
    rw [h.slot i hi, UInt32.toNat_ofNat_of_lt' (h.fits _)]
  · rintro ⟨hin, hq, hne⟩
    obtain ⟨i, hi, rfl⟩ := (inWindow_iff h.hasBase).mp hin
    refine ⟨i, by rwa [List.mem_range, h.length], ?_⟩
    have hslot : w.slots.getD i 0 = q := by
      rw [h.slot i hi, ← hq, UInt32.ofNat_toNat]
    rw [if_pos ((h.slot_ne_zero_iff hi).mpr hne), hslot]

theorem mem_overflow_iff (h : Based w t) :
    (p, q) ∈ w.overflow.entries ↔ ¬ w.InWindow p ∧ q.toNat = t p ∧ t p ≠ 0 := by
  rw [h.overflow.isLadder.mem_iff, outside]
  split_ifs with hin
  · simp [hin]
  · simp [hin]

theorem windowEntries_lt_overflow (h : Based w t) {a b : Price × Qty} (ha : a ∈ w.windowEntries)
    (hb : b ∈ w.overflow.entries) : c.lt a.1 b.1 := by
  obtain ⟨i, hi, heq⟩ := (inWindow_iff h.hasBase).mp (h.mem_windowEntries_iff.mp ha).1
  obtain ⟨hnotIn, -, hne⟩ := h.mem_overflow_iff.mp hb
  rw [heq]
  exact h.worse b.1 hne hnotIn i hi

theorem isLadder (h : Based w t) : IsLadder c t w.ladder := by
  constructor
  · refine List.pairwise_append.mpr ⟨w.windowLadder_sorted, w.overflow.sorted, fun a ha b hb => ?_⟩
    exact h.windowEntries_lt_overflow (w.windowEntries_perm_windowLadder.mem_iff.mpr ha) hb
  · intro p q
    rw [← w.windowEntries_append_perm_ladder.mem_iff, List.mem_append, h.mem_windowEntries_iff,
      h.mem_overflow_iff]
    tauto

theorem length_windowEntries (h : Based w t) : w.windowEntries.length = w.count := by
  have hmap : (List.range w.slots.length).map (fun i => w.slots.getD i 0) = w.slots := by
    refine List.ext_getElem (by simp) fun i hi hi' => ?_
    simp [List.getElem?_eq_getElem hi']
  have hrange : w.slots.countP (· ≠ 0) =
      (List.range w.slots.length).countP fun i => decide (w.slots.getD i 0 ≠ 0) := by
    conv_lhs => rw [← hmap]
    rw [List.countP_map]
    rfl
  rw [h.count, windowEntries, List.length_filterMap_eq_countP, hrange]
  refine List.countP_congr fun i _ => ?_
  split_ifs with hne
  · simpa using hne
  · simpa using hne

end Based

/-! ### Re-centring -/

theorem foldl_inc_apply {l : List (Price × Qty)} (hdistinct : (l.map Prod.fst).Nodup) (t : Totals)
    (p : Price) :
    l.foldl (fun t e => t.inc e.1 e.2.toNat) t p =
      t p + ((l.lookup p).map UInt32.toNat).getD 0 := by
  induction l generalizing t with
  | nil => simp
  | cons e rest ih =>
      rw [List.map_cons, List.nodup_cons] at hdistinct
      rw [List.foldl_cons, ih hdistinct.2, List.lookup_cons, Totals.inc_apply]
      by_cases hp : p = e.1
      · have hnone : rest.lookup p = none := by
          rw [List.lookup_eq_none_iff]
          intro e' he'
          have hne : p ≠ e'.1 := fun heq =>
            hdistinct.1 (hp ▸ heq ▸ List.mem_map_of_mem he')
          simpa using hne
        simp [hp, hp ▸ hnone]
      · have hbeq : (p == e.1) = false := by simpa using hp
        simp [hp, hbeq]

theorem foldl_inc_eq {l : List (Price × Qty)} (hdistinct : (l.map Prod.fst).Nodup)
    (hmem : ∀ p q, (p, q) ∈ l ↔ q.toNat = t p ∧ t p ≠ 0) (hfits : t.Fits) :
    l.foldl (fun (t : Totals) e => t.inc e.1 e.2.toNat) (fun _ => 0) = t := by
  have hlookup : ∀ p q, l.lookup p = some q ↔ q.toNat = t p ∧ t p ≠ 0 := by
    intro p q
    rw [← hmem]
    exact OrderedMap.lookup_eq_some_iff_mem hdistinct
  funext p
  rw [foldl_inc_apply hdistinct, Nat.zero_add]
  by_cases hzero : t p = 0
  · cases hread : l.lookup p with
    | none => simp [hzero]
    | some q => exact absurd hzero ((hlookup p q).mp hread).2
  · have htoNat := UInt32.toNat_ofNat_of_lt' (hfits p)
    rw [(hlookup p (UInt32.ofNat (t p))).mpr ⟨htoNat, hzero⟩]
    exact htoNat

theorem based_replicate (c : Compare) {base : Price} (hbase : 0 ≤ base) :
    Based ({ slots := List.replicate kWindow 0, base := base, hasBase := true } : WindowedLevels c)
      fun _ => 0 where
  hasBase := rfl
  base_nonneg := hbase
  length := by simp
  fits := fun _ => by norm_num
  slot i hi := by simp [hi]
  count := by simp [List.countP_replicate]
  best hpos := by simp at hpos
  overflow := by
    have hzero : outside ({ slots := List.replicate kWindow 0, base := base, hasBase := true } :
        WindowedLevels c) (fun _ => 0) = fun _ => 0 := by
      funext p
      simp [outside]
    rw [hzero]
    exact LevelMap.represents_empty
  worse p hp := absurd rfl hp

/-- Re-bucketing levels none of which is stored yet, each in the window or behind it. -/
theorem Based.foldlM_rebucket {l : List (Price × Qty)} (h : Based w t)
    (hdistinct : (l.map Prod.fst).Nodup) (hne : ∀ e ∈ l, e.2 ≠ 0) (hnew : ∀ e ∈ l, t e.1 = 0)
    (hplace : ∀ e ∈ l, (∃ i : Nat, i < kWindow ∧ e.1 = w.base + i) ∨
      ∀ i < kWindow, c.lt (w.base + i) e.1) :
    ∃ w', l.foldlM rebucket w = some w' ∧ w'.base = w.base ∧
      Based w' (l.foldl (fun t e => t.inc e.1 e.2.toNat) t) := by
  induction l generalizing w t with
  | nil => exact ⟨w, rfl, rfl, h⟩
  | cons e rest ih =>
      rw [List.map_cons, List.nodup_cons] at hdistinct
      have hfit : t e.1 + e.2.toNat < 2 ^ 32 := by
        rw [hnew e List.mem_cons_self, Nat.zero_add]
        exact e.2.toNat_lt
      have hstep : ∃ w', rebucket w e = some w' ∧ w'.base = w.base ∧
          Based w' (t.inc e.1 e.2.toNat) := by
        unfold rebucket
        by_cases hin : w.InWindow e.1
        · rw [if_pos hin]
          exact h.placeInWindow hin (hne e List.mem_cons_self) hfit
        · rw [if_neg hin]
          refine ⟨_, rfl, rfl, h.spill hin (hne e List.mem_cons_self) hfit ?_⟩
          exact (hplace e List.mem_cons_self).resolve_left
            fun hex => hin ((inWindow_iff h.hasBase).mpr hex)
      obtain ⟨w', hw', hbase, h'⟩ := hstep
      have hrest : ∀ e' ∈ rest, t.inc e.1 e.2.toNat e'.1 = 0 := by
        intro e' he'
        have hkey : e'.1 ≠ e.1 := fun heq => hdistinct.1 (heq ▸ List.mem_map_of_mem he')
        rw [Totals.inc_apply, if_neg hkey]
        exact hnew e' (List.mem_cons_of_mem _ he')
      obtain ⟨w'', hw'', hbase'', h''⟩ := ih h' hdistinct.2
        (fun e' he' => hne e' (List.mem_cons_of_mem _ he')) hrest
        (fun e' he' => hbase ▸ hplace e' (List.mem_cons_of_mem _ he'))
      refine ⟨w'', ?_, hbase''.trans hbase, h''⟩
      rw [List.foldlM_cons, hw']
      exact hw''

/-- What a re-centring collects: every level there is, each once. -/
structure Collects (l : List (Price × Qty)) (t : Totals) : Prop where
  distinct : (l.map Prod.fst).Nodup
  mem_iff : ∀ p q, (p, q) ∈ l ↔ q.toNat = t p ∧ t p ≠ 0
  fits : t.Fits

theorem Based.collects (h : Based w t) : Collects (w.windowEntries ++ w.overflow.entries) t := by
  have hperm := w.windowEntries_append_perm_ladder
  refine ⟨?_, fun p q => ?_, h.fits⟩
  · exact (hperm.map Prod.fst).nodup_iff.mpr h.isLadder.nodup_map_fst
  · rw [hperm.mem_iff]
    exact h.isLadder.mem_iff p q

/-- Re-centring on a price that beats every level keeps the totals and brings the price inside. -/
theorem recenterTo_based (hp : 0 ≤ p)
    (hcollects : Collects ((if w.hasBase then w.windowEntries else []) ++ w.overflow.entries) t)
    (hbeats : ∀ p', t p' ≠ 0 → 0 ≤ p' ∧ c.lt p p') :
    ∃ w', w.recenterTo p = some w' ∧ Based w' t ∧ w'.InWindow p := by
  set newBase : Price := if p - (kWindow / 2 : Nat) < 0 then 0 else p - (kWindow / 2 : Nat)
    with hnewBase
  have hnonneg : 0 ≤ newBase := by
    rw [hnewBase]
    split_ifs <;> grind
  have hwithin : newBase ≤ p ∧ p < newBase + kWindow := by
    rw [hnewBase]
    unfold kWindow
    split_ifs <;> grind
  have hplace : ∀ p', t p' ≠ 0 →
      (∃ i : Nat, i < kWindow ∧ p' = newBase + i) ∨
        ∀ i < kWindow, c.lt (newBase + (i : Int)) p' := by
    intro p' hp'
    obtain ⟨hp'nonneg, hlt⟩ := hbeats p' hp'
    by_cases hin : newBase ≤ p' ∧ p' < newBase + kWindow
    · exact Or.inl ⟨(p' - newBase).toNat, by grind, by grind⟩
    · refine Or.inr fun i hi => ?_
      cases c <;> simp only [Compare.lt] at hlt ⊢ <;> grind
  have hheld : ∀ e ∈ (if w.hasBase then w.windowEntries else []) ++ w.overflow.entries,
      e.2.toNat = t e.1 ∧ t e.1 ≠ 0 := fun e he => (hcollects.mem_iff e.1 e.2).mp he
  obtain ⟨w', hw', hbase, h'⟩ := (based_replicate c hnonneg).foldlM_rebucket hcollects.distinct
    (fun e he hzero => (hheld e he).2 (by rw [← (hheld e he).1, hzero]; rfl)) (fun _ _ => rfl)
    (fun e he => hplace e.1 (hheld e he).2)
  rw [foldl_inc_eq hcollects.distinct hcollects.mem_iff hcollects.fits] at h'
  refine ⟨w', hw', h', (inWindow_iff h'.hasBase).mpr ⟨(p - newBase).toNat, ?_, ?_⟩⟩
  · grind
  · rw [hbase]
    grind

end HftOrderbook.WindowedLevels
