import HftOrderbook.Proof.WindowedLevels

/-!
# The windowed store is lawful

With the invariant in hand, every call on non-negative prices finds its slots inside the array and
acts on the represented totals as the tree store does, and the merged walk of `top` lists the same
ladder.
-/

namespace HftOrderbook.WindowedLevels

variable {c : Compare} {w : WindowedLevels c} {t : Totals} {p : Price} {q : Qty}

/-- Before its first level the store has no base; from then on it is `Based`. -/
structure Represents (w : WindowedLevels c) (t : Totals) : Prop where
  nonneg : ∀ p, t p ≠ 0 → 0 ≤ p
  state : Based w t ∨ w = {} ∧ t = fun _ => 0

theorem represents_empty (c : Compare) : Represents ({} : WindowedLevels c) fun _ => 0 :=
  ⟨fun _ hp => absurd rfl hp, Or.inr ⟨rfl, rfl⟩⟩

/-! ### Adding to a level -/

theorem recenterAndPlace_based (hp : 0 ≤ p) (hq : q ≠ 0) (hfit : t p + q.toNat < 2 ^ 32)
    (hcollects : Collects ((if w.hasBase then w.windowEntries else []) ++ w.overflow.entries) t)
    (hbeats : ∀ p', t p' ≠ 0 → 0 ≤ p' ∧ c.lt p p') :
    ∃ w', w.recenterAndPlace p q = some w' ∧ Based w' (t.inc p q.toNat) := by
  obtain ⟨w', hw', h', hin⟩ := recenterTo_based hp hcollects hbeats
  obtain ⟨w'', hw'', -, h''⟩ := h'.placeInWindow hin hq hfit
  exact ⟨w'', by rw [recenterAndPlace, hw']; exact hw'', h''⟩

theorem Based.collects_hasBase (h : Based w t) :
    Collects ((if w.hasBase then w.windowEntries else []) ++ w.overflow.entries) t := by
  rw [h.hasBase]
  exact h.collects

theorem Based.bestPrice (h : Based w t) (hne : ¬ (w.count = 0 ∧ w.overflow.entries = [])) :
    ∃ best, w.bestPrice = some best ∧ t best ≠ 0 ∧ ∀ p, t p ≠ 0 → ¬ c.lt p best := by
  by_cases hcount : w.count = 0
  · obtain ⟨e, rest, hentries⟩ := List.exists_cons_of_ne_nil fun hnil => hne ⟨hcount, hnil⟩
    have he : e ∈ w.overflow.entries := hentries ▸ List.mem_cons_self
    refine ⟨e.1, by simp [WindowedLevels.bestPrice, hcount, hentries],
      (h.mem_overflow_iff.mp he).2.2, fun p' hp' hlt => ?_⟩
    have hnotIn : ¬ w.InWindow p' := by
      intro hin
      obtain ⟨i, hi, rfl⟩ := (inWindow_iff h.hasBase).mp hin
      have := h.count_pos_iff.mpr ⟨i, hi, hp'⟩
      omega
    have hmem := h.mem_overflow_iff.mpr
      ⟨hnotIn, UInt32.toNat_ofNat_of_lt' (h.fits p'), hp'⟩
    have hsorted := w.overflow.sorted
    rw [hentries] at hmem hsorted
    rcases List.mem_cons.mp hmem with rfl | hmem
    · exact irrefl (r := c.lt) p' hlt
    · exact irrefl (r := c.lt) p' (trans_of c.lt hlt ((List.pairwise_cons.mp hsorted).1 _ hmem))
  · obtain ⟨hbest, hbestNe, hmin⟩ := h.best (Nat.pos_of_ne_zero hcount)
    have hvalue : w.bestPrice = some w.windowBestPrice := by
      unfold WindowedLevels.bestPrice
      rw [if_neg hcount]
      cases hentries : w.overflow.entries.head? with
      | none => rfl
      | some e =>
          obtain ⟨hnotIn, -, hne'⟩ := h.mem_overflow_iff.mp (List.mem_of_mem_head? hentries)
          have hlt := h.worse e.1 hne' hnotIn _ hbest
          exact if_neg fun hlt' => irrefl (r := c.lt) e.1 (trans_of c.lt hlt' hlt)
    refine ⟨_, hvalue, hbestNe, fun p' hp' hlt => ?_⟩
    rcases h.inWindow_or_worse hp' with ⟨i, hi, rfl⟩ | hworse
    · exact hmin i hi hp' hlt
    · exact irrefl (r := c.lt) p' (trans_of c.lt hlt (hworse _ hbest))

/-- A price that neither fits the window nor beats the best quote lies behind the window. -/
theorem Based.worse_of_not_lt (h : Based w t) (hin : ¬ w.InWindow p) {best : Price}
    (hbest : t best ≠ 0) (hnotLt : ¬ c.lt p best) : ∀ i < kWindow, c.lt (w.base + i) p := by
  intro i hi
  have hout : ¬ (w.base ≤ p ∧ p < w.base + kWindow) := by
    rintro ⟨hlow, hhigh⟩
    exact hin ⟨h.hasBase, hlow, by grind⟩
  rcases h.inWindow_or_worse hbest with ⟨j, hj, rfl⟩ | hworse
  · cases c <;> simp only [Compare.lt] at hnotLt ⊢ <;> grind
  · have hlt := hworse i hi
    cases c <;> simp only [Compare.lt] at hnotLt hlt ⊢ <;> grind

theorem Represents.inc (h : Represents w t) (hp : 0 ≤ p) (hq : q ≠ 0)
    (hfit : t p + q.toNat < 2 ^ 32) :
    ∃ w', w.inc p q = some w' ∧ Represents w' (t.inc p q.toNat) := by
  have hnonneg : ∀ p', t.inc p q.toNat p' ≠ 0 → 0 ≤ p' := by
    intro p' hp'
    rcases (inc_ne_zero_iff hq p').mp hp' with rfl | hp'
    · exact hp
    · exact h.nonneg p' hp'
  suffices hbased : ∃ w', w.inc p q = some w' ∧ Based w' (t.inc p q.toNat) by
    obtain ⟨w', hw', h'⟩ := hbased
    exact ⟨w', hw', hnonneg, Or.inl h'⟩
  unfold WindowedLevels.inc
  rw [if_neg hq]
  rcases h.state with hbased | ⟨rfl, rfl⟩
  · rw [if_neg (by simp [hbased.hasBase])]
    by_cases hin : w.InWindow p
    · rw [if_pos hin]
      obtain ⟨w', hw', -, h'⟩ := hbased.placeInWindow hin hq hfit
      exact ⟨w', hw', h'⟩
    · rw [if_neg hin]
      by_cases hempty : w.count = 0 ∧ w.overflow.entries = []
      · rw [if_pos hempty]
        refine recenterAndPlace_based hp hq hfit hbased.collects_hasBase fun p' hp' => ?_
        rcases hbased.collects.mem_iff p' (UInt32.ofNat (t p')) |>.mpr
          ⟨UInt32.toNat_ofNat_of_lt' (hbased.fits p'), hp'⟩ |> List.mem_append.mp with hmem | hmem
        · have := List.length_pos_of_mem hmem
          rw [hbased.length_windowEntries] at this
          omega
        · simp [hempty.2] at hmem
      · rw [if_neg hempty]
        obtain ⟨best, hbest, hbestNe, hmin⟩ := hbased.bestPrice hempty
        rw [hbest]
        by_cases hlt : c.lt p best
        · simp only [if_pos hlt]
          refine recenterAndPlace_based hp hq hfit hbased.collects_hasBase fun p' hp' =>
            ⟨h.nonneg p' hp', ?_⟩
          rcases trichotomous_of c.lt best p' with hlt' | rfl | hlt'
          · exact trans_of c.lt hlt hlt'
          · exact hlt
          · exact absurd hlt' (hmin p' hp')
        · simp only [if_neg hlt]
          exact ⟨_, rfl, hbased.spill hin hq hfit (hbased.worse_of_not_lt hin hbestNe hlt)⟩
  · rw [if_pos rfl]
    refine recenterAndPlace_based hp hq hfit ⟨by simp [OrderedMap.empty], ?_, fun _ => by norm_num⟩
      fun p' hp' => absurd rfl hp'
    simp [OrderedMap.empty]

/-! ### Taking from a level -/

theorem dec_ne_zero (n : Nat) {p' : Price} (hp' : t.dec p n p' ≠ 0) : t p' ≠ 0 := by
  rw [Totals.dec_apply] at hp'
  split_ifs at hp' with heq
  · subst heq
    omega
  · exact hp'

theorem Based.count_emptySlot {i : Nat} (h : Based w t) (hi : i < kWindow)
    (hheld : t (w.base + i) ≠ 0) :
    w.count - 1 = (w.slots.set i (UInt32.ofNat 0)).countP (· ≠ 0) := by
  have hcountP := countP_set_slot (h.length ▸ hi) (UInt32.ofNat 0)
  rw [if_pos ((h.slot_ne_zero_iff hi).mpr hheld), if_neg (by simp), ← h.count] at hcountP
  omega

theorem Based.emptiedSlot_ne_zero_iff (h : Based w t) (hbest : w.bestIdx < kWindow) {k : Nat}
    (hk : k < kWindow) :
    (w.slots.set w.bestIdx 0).getD k 0 ≠ 0 ↔ k ≠ w.bestIdx ∧ t (w.base + k) ≠ 0 := by
  rw [getD_set (h.length ▸ hbest)]
  by_cases hk' : k = w.bestIdx
  · simp [hk']
  · rw [if_neg hk', h.slot_ne_zero_iff hk]
    simp [hk']

theorem Based.behind_best (h : Based w t) (hcount : 0 < w.count) {k : Nat} (hk : k < kWindow)
    (hne : k ≠ w.bestIdx ∧ t (w.base + k) ≠ 0) : c.lt (w.base + w.bestIdx) (w.base + k) := by
  obtain ⟨-, -, hmin⟩ := h.best hcount
  rcases trichotomous_of c.lt (w.base + w.bestIdx) (w.base + (k : Int)) with hlt | heq | hlt
  · exact hlt
  · exact absurd (by grind) hne.1
  · exact absurd hlt (hmin k hk hne.2)

/-- With the best slot emptied and another occupied, the walk from it finds the best of what is
left. -/
theorem Based.nextWindowIdx_emptied (h : Based w t) (hheld : t (w.base + w.bestIdx) ≠ 0)
    (hcount : 0 < w.count) (hleft : w.count - 1 ≠ 0) :
    ∃ j < kWindow, ({ w with slots := w.slots.set w.bestIdx 0, count := w.count - 1 } :
        WindowedLevels c).nextWindowIdx w.bestIdx = some (some j) ∧
      (j ≠ w.bestIdx ∧ t (w.base + j) ≠ 0) ∧
      ∀ k < kWindow, k ≠ w.bestIdx ∧ t (w.base + k) ≠ 0 → ¬ c.lt (w.base + k) (w.base + j) := by
  obtain ⟨hbest, -, -⟩ := h.best hcount
  set w₁ : WindowedLevels c := { w with slots := w.slots.set w.bestIdx 0, count := w.count - 1 }
    with hw₁
  have hlen : w₁.slots.length = kWindow := by simpa [hw₁] using h.length
  have hslot : ∀ k < kWindow, w₁.slots.getD k 0 ≠ 0 ↔ k ≠ w.bestIdx ∧ t (w.base + k) ≠ 0 :=
    fun k hk => h.emptiedSlot_ne_zero_iff hbest hk
  rcases nextWindowIdx_cases hlen hbest with ⟨j, hj, hnext, hne, -, hfirst⟩ | ⟨-, hnone⟩
  · refine ⟨j, hj, hnext, (hslot j hj).mp hne, fun k hk hne' => ?_⟩
    exact hfirst k hk ((hslot k hk).mpr hne') (h.behind_best hcount hk hne')
  · -- a slot is still occupied, so the walk cannot come back empty
    exfalso
    have hpos : 0 < w₁.slots.countP (· ≠ 0) := by
      change 0 < (w.slots.set w.bestIdx (UInt32.ofNat 0)).countP (· ≠ 0)
      rw [← h.count_emptySlot hbest hheld]
      exact Nat.pos_of_ne_zero hleft
    obtain ⟨q, hmem, hq⟩ := List.countP_pos_iff.mp hpos
    obtain ⟨k, hk, rfl⟩ := List.mem_iff_getElem.mp hmem
    have hne : w₁.slots.getD k 0 ≠ 0 := by
      simpa [List.getElem?_eq_getElem hk] using hq
    have hk' : k < kWindow := hlen ▸ hk
    exact hnone k hk' hne (h.behind_best hcount hk' ((hslot k hk').mp hne))

theorem Based.rescanBest (h : Based w t) (hcount : 0 < w.count)
    (hheld : t (w.base + w.bestIdx) ≠ 0) :
    ∃ w', ({ w with slots := w.slots.set w.bestIdx 0, count := w.count - 1 } :
        WindowedLevels c).rescanBest = some w' ∧
      Based w' (Function.update t (w.base + w.bestIdx) 0) := by
  obtain ⟨hbest, -, -⟩ := h.best hcount
  have hupdate : ∀ k, Function.update t (w.base + w.bestIdx) 0 (w.base + (k : Nat)) ≠ 0 ↔
      k ≠ w.bestIdx ∧ t (w.base + k) ≠ 0 := by
    intro k
    rw [Function.update_apply]
    by_cases hk' : k = w.bestIdx
    · simp [hk']
    · rw [if_neg (by grind)]
      simp [hk']
  have hcountP := h.count_emptySlot hbest hheld
  unfold WindowedLevels.rescanBest
  by_cases hzero : w.count - 1 = 0
  · rw [if_pos hzero]
    refine ⟨_, rfl, h.setSlot hbest (by norm_num) hcountP fun hlt => ?_⟩
    rw [hzero] at hlt
    exact absurd hlt (lt_irrefl 0)
  · rw [if_neg hzero]
    obtain ⟨j, hj, hnext, hne, hfirst⟩ := h.nextWindowIdx_emptied hheld hcount hzero
    refine ⟨_, by rw [hnext]; rfl, h.setSlot hbest (by norm_num) hcountP fun _ =>
      ⟨hj, (hupdate j).mpr hne, fun k hk hne' => ?_⟩⟩
    exact hfirst k hk ((hupdate k).mp hne')

theorem ofNat_eq_zero_iff {n : Nat} (hn : n < 2 ^ 32) : UInt32.ofNat n = 0 ↔ n = 0 := by
  rw [← UInt32.toNat_inj, UInt32.toNat_ofNat_of_lt' hn]
  rfl

theorem Based.emptySlot {i : Nat} (h : Based w t) (hi : i < kWindow) (hheld : t (w.base + i) ≠ 0)
    (hbest : i ≠ w.bestIdx) :
    Based { w with slots := w.slots.set i (UInt32.ofNat 0), count := w.count - 1 }
      (Function.update t (w.base + i) 0) := by
  refine h.setSlot hi (by norm_num) (h.count_emptySlot hi hheld) fun _ => ?_
  obtain ⟨hbestLt, hbestNe, hmin⟩ := h.best (h.count_pos_iff.mpr ⟨i, hi, hheld⟩)
  have hother : w.base + (w.bestIdx : Int) ≠ w.base + (i : Int) := by grind
  refine ⟨hbestLt, by rwa [Function.update_of_ne hother], fun k hk hne => hmin k hk ?_⟩
  exact dec_ne_zero (t (w.base + i)) (by rwa [Totals.dec, Nat.sub_self])

theorem Based.reduceSlot {i : Nat} (h : Based w t) (hi : i < kWindow)
    (hleft : t (w.base + i) - q.toNat ≠ 0) :
    Based { w with slots := w.slots.set i (UInt32.ofNat (t (w.base + i) - q.toNat)) }
      (t.dec (w.base + i) q.toNat) := by
  have hfit : t (w.base + i) - q.toNat < 2 ^ 32 := (Nat.sub_le _ _).trans_lt (h.fits _)
  have hheld : t (w.base + i) ≠ 0 := fun hzero => hleft (by rw [hzero, Nat.zero_sub])
  have hcountP := countP_set_slot (h.length ▸ hi) (UInt32.ofNat (t (w.base + i) - q.toNat))
  rw [if_pos ((h.slot_ne_zero_iff hi).mpr hheld), ← h.count,
    if_pos (by simpa [ofNat_eq_zero_iff hfit] using hleft)] at hcountP
  refine h.setSlot hi hfit (by omega) fun hpos => ?_
  obtain ⟨hbestLt, hbestNe, hmin⟩ := h.best hpos
  refine ⟨hbestLt, ?_, fun k hk hne => hmin k hk (dec_ne_zero q.toNat hne)⟩
  rw [Function.update_apply]
  split_ifs
  · exact hleft
  · exact hbestNe

theorem Based.dec_inWindow {i : Nat} (h : Based w t) (hi : i < kWindow)
    (hq : q.toNat ≤ t (w.base + i)) :
    ∃ w', w.dec (w.base + i) q = some w' ∧ Based w' (t.dec (w.base + i) q.toNat) := by
  have hfit : t (w.base + i) - q.toNat < 2 ^ 32 := (Nat.sub_le _ _).trans_lt (h.fits _)
  have hsub : UInt32.ofNat (t (w.base + i)) - q = UInt32.ofNat (t (w.base + i) - q.toNat) := by
    rw [UInt32.ofNat_sub hq, UInt32.ofNat_toNat]
  unfold WindowedLevels.dec
  rw [if_pos ((inWindow_iff h.hasBase).mpr ⟨i, hi, rfl⟩), w.index_add hi, h.read hi]
  simp only [hsub, ofNat_eq_zero_iff (h.fits _), ofNat_eq_zero_iff hfit]
  by_cases hheld : t (w.base + i) = 0
  · refine ⟨w, if_pos hheld, ?_⟩
    have hsame : t.dec (w.base + i) q.toNat = t := by
      funext p'
      rw [Totals.dec_apply]
      split_ifs with heq
      · rw [heq, hheld, Nat.zero_sub]
      · rfl
    rwa [hsame]
  · rw [if_neg hheld]
    by_cases hleft : t (w.base + i) - q.toNat = 0
    · have hdec : t.dec (w.base + i) q.toNat = Function.update t (w.base + i) 0 := by
        rw [Totals.dec, hleft]
      rw [if_pos hleft, hdec]
      by_cases hbest : i = w.bestIdx
      · rw [if_pos hbest]
        subst hbest
        exact h.rescanBest (h.count_pos_iff.mpr ⟨_, hi, hheld⟩) hheld
      · rw [if_neg hbest]
        exact ⟨_, rfl, h.emptySlot hi hheld hbest⟩
    · rw [if_neg hleft]
      exact ⟨_, rfl, h.reduceSlot hi hleft⟩

theorem Based.dec_outside (h : Based w t) (hin : ¬ w.InWindow p) (hq : q.toNat ≤ t p) :
    ∃ w', w.dec p q = some w' ∧ Based w' (t.dec p q.toNat) := by
  have hsame : ∀ i < kWindow, t.dec p q.toNat (w.base + (i : Int)) = t (w.base + i) := by
    intro i hi
    rw [Totals.dec_apply, if_neg]
    exact fun heq => hin ((inWindow_iff h.hasBase).mpr ⟨i, hi, heq.symm⟩)
  unfold WindowedLevels.dec
  rw [if_neg hin]
  refine ⟨_, rfl, h.of_outside (h.fits.dec p _) hsame ?_ fun p' hp' =>
    h.worse p' (dec_ne_zero q.toNat hp')⟩
  rw [outside_dec_of_not_inWindow hin]
  exact h.overflow.subAt (by simpa [outside, hin] using hq)

theorem Based.dec (h : Based w t) (hq : q.toNat ≤ t p) :
    ∃ w', w.dec p q = some w' ∧ Based w' (t.dec p q.toNat) := by
  by_cases hin : w.InWindow p
  · obtain ⟨i, hi, rfl⟩ := (inWindow_iff h.hasBase).mp hin
    exact h.dec_inWindow hi hq
  · exact h.dec_outside hin hq

theorem Represents.dec (h : Represents w t) (hq : q.toNat ≤ t p) :
    ∃ w', w.dec p q = some w' ∧ Represents w' (t.dec p q.toNat) := by
  have hnonneg : ∀ p', t.dec p q.toNat p' ≠ 0 → 0 ≤ p' :=
    fun p' hp' => h.nonneg p' (dec_ne_zero q.toNat hp')
  rcases h.state with hbased | ⟨rfl, rfl⟩
  · obtain ⟨w', hw', h'⟩ := hbased.dec hq
    exact ⟨w', hw', hnonneg, Or.inl h'⟩
  · refine ⟨{}, ?_, hnonneg, Or.inr ⟨rfl, ?_⟩⟩
    · unfold WindowedLevels.dec
      rw [if_neg (by simp [InWindow])]
      rfl
    · funext p'
      simp [Totals.dec_apply]

/-! ### Answering from the ladder -/

namespace Based

theorem mem_windowLadder_iff (h : Based w t) :
    (p, q) ∈ w.windowLadder ↔ w.InWindow p ∧ q.toNat = t p ∧ t p ≠ 0 := by
  rw [← w.windowEntries_perm_windowLadder.mem_iff, h.mem_windowEntries_iff]

theorem mem_windowLadder_of_slot (h : Based w t) {i : Nat} (hi : i < kWindow)
    (hne : t (w.base + i) ≠ 0) :
    (w.base + (i : Int), UInt32.ofNat (t (w.base + i))) ∈ w.windowLadder :=
  h.mem_windowLadder_iff.mpr ⟨(inWindow_iff h.hasBase).mpr ⟨i, hi, rfl⟩,
    UInt32.toNat_ofNat_of_lt' (h.fits _), hne⟩

theorem nextWindowIdx_eq (h : Based w t) {pre post : List (Price × Qty)} {i : Nat}
    (hi : i < kWindow) (hsplit : w.windowLadder = pre ++ (w.base + (i : Int), q) :: post) :
    w.nextWindowIdx i = some (post.head?.map fun e => (e.1 - w.base).toNat) := by
  have hsorted := w.windowLadder_sorted
  rw [hsplit, List.pairwise_append, List.pairwise_cons] at hsorted
  obtain ⟨-, ⟨hpost, hpostSorted⟩, hpre⟩ := hsorted
  -- an occupied slot behind `i` is listed after it
  have hbehind : ∀ k < kWindow, t (w.base + k) ≠ 0 → c.lt (w.base + i) (w.base + k) →
      (w.base + (k : Int), UInt32.ofNat (t (w.base + k))) ∈ post := by
    intro k hk hne hlt
    have hmem := h.mem_windowLadder_of_slot hk hne
    rw [hsplit, List.mem_append, List.mem_cons] at hmem
    rcases hmem with hmem | heq | hmem
    · have hlt' := hpre _ hmem _ List.mem_cons_self
      exact absurd (trans_of c.lt hlt hlt') (irrefl _)
    · have hsame := congrArg Prod.fst heq
      simp only at hsame
      exact absurd (hsame ▸ hlt) (irrefl _)
    · exact hmem
  rcases nextWindowIdx_cases h.length hi with ⟨j, hj, hnext, hne, hlt, hfirst⟩ | ⟨hnext, hnone⟩
  · rw [hnext]
    have hmem := hbehind j hj ((h.slot_ne_zero_iff hj).mp hne) hlt
    cases post with
    | nil => simp at hmem
    | cons e rest =>
        have he : e ∈ w.windowLadder := by simp [hsplit]
        obtain ⟨hin, -, hheld⟩ := h.mem_windowLadder_iff.mp he
        obtain ⟨k, hk, heq⟩ := (inWindow_iff h.hasBase).mp hin
        have hkj : k = j := by
          rcases List.mem_cons.mp hmem with hmem | hmem
          · have hsame : w.base + (j : Int) = e.1 := congrArg Prod.fst hmem
            grind
          · have hlt' := (List.pairwise_cons.mp hpostSorted).1 _ hmem
            refine absurd ?_ (hfirst k hk ((h.slot_ne_zero_iff hk).mpr (heq ▸ hheld)) ?_)
            · exact heq ▸ hlt'
            · exact heq ▸ hpost e List.mem_cons_self
        simp only [List.head?_cons, Option.map_some, heq, Option.some.injEq]
        grind
  · rw [hnext]
    cases post with
    | nil => rfl
    | cons e rest =>
        have he : e ∈ w.windowLadder := by simp [hsplit]
        obtain ⟨hin, -, hheld⟩ := h.mem_windowLadder_iff.mp he
        obtain ⟨k, hk, heq⟩ := (inWindow_iff h.hasBase).mp hin
        exact absurd (heq ▸ hpost e List.mem_cons_self)
          (hnone k hk ((h.slot_ne_zero_iff hk).mpr (heq ▸ hheld)))

theorem topLoop_none (w : WindowedLevels c) (n : Nat) (of : List (Price × Qty)) :
    w.topLoop n none of = some (of.take n) := by
  induction n generalizing of with
  | zero => rfl
  | succ n ih =>
      cases of with
      | nil => rfl
      | cons e of => simp [topLoop, ih]

/-- While the window has a level left, the merge takes it: no overflow level is better. -/
theorem topLoop_some (h : Based w t) (n : Nat) {pre post : List (Price × Qty)} {i : Nat}
    (hi : i < kWindow) (hsplit : w.windowLadder = pre ++ (w.base + (i : Int), q) :: post) :
    w.topLoop n (some i) w.overflow.entries =
      some (((w.base + (i : Int), q) :: post ++ w.overflow.entries).take n) := by
  induction n generalizing pre post i q with
  | zero => cases hof : w.overflow.entries <;> rfl
  | succ n ih =>
      have hmem : (w.base + (i : Int), q) ∈ w.windowLadder := by simp [hsplit]
      obtain ⟨-, hq, -⟩ := h.mem_windowLadder_iff.mp hmem
      have hread : w.slots[i]? = some q := by
        rw [h.read hi, ← hq, UInt32.ofNat_toNat]
      have hrest : w.topLoop n (post.head?.map fun e => (e.1 - w.base).toNat) w.overflow.entries =
          some ((post ++ w.overflow.entries).take n) := by
        cases post with
        | nil => exact topLoop_none w n _
        | cons e rest =>
            have he : e ∈ w.windowLadder := by simp [hsplit]
            obtain ⟨k, hk, heq⟩ :=
              (inWindow_iff h.hasBase).mp (h.mem_windowLadder_iff.mp he).1
            have hindex : (e.1 - w.base).toNat = k := by grind
            obtain ⟨_, q'⟩ := e
            obtain rfl : _ = w.base + (k : Int) := heq
            have hsplit' : w.windowLadder =
                (pre ++ [(w.base + (i : Int), q)]) ++ (w.base + (k : Int), q') :: rest := by
              simpa using hsplit
            simp only [List.head?_cons, Option.map_some, hindex]
            exact ih hk hsplit'
      have hstep : w.topLoop (n + 1) (some i) w.overflow.entries =
          (w.topLoop n (post.head?.map fun e => (e.1 - w.base).toNat) w.overflow.entries).map
            ((w.base + (i : Int), q) :: ·) := by
        cases hof : w.overflow.entries with
        | nil => simp [topLoop, hread, h.nextWindowIdx_eq hi hsplit]
        | cons e of =>
            have he : e ∈ w.overflow.entries := by simp [hof]
            obtain ⟨hnotIn, -, hheld⟩ := h.mem_overflow_iff.mp he
            have hlt := h.worse e.1 hheld hnotIn i hi
            have hnotLt : ¬ c.lt e.1 (w.base + i) := fun hlt' =>
              irrefl (r := c.lt) e.1 (trans_of c.lt hlt' hlt)
            simp [topLoop, hnotLt, hread, h.nextWindowIdx_eq hi hsplit]
      rw [hstep, hrest]
      simp

theorem windowLadder_eq_cons (h : Based w t) (hcount : 0 < w.count) :
    ∃ post, w.windowLadder =
      (w.windowBestPrice, UInt32.ofNat (t w.windowBestPrice)) :: post := by
  obtain ⟨hbest, hbestNe, hmin⟩ := h.best hcount
  have hmem := h.mem_windowLadder_of_slot hbest hbestNe
  cases hladder : w.windowLadder with
  | nil => simp [hladder] at hmem
  | cons e post =>
      refine ⟨post, ?_⟩
      have hsorted := w.windowLadder_sorted
      rw [hladder] at hmem hsorted
      rcases List.mem_cons.mp hmem with heq | hmem
      · rw [← heq]
        rfl
      · have hlt := (List.pairwise_cons.mp hsorted).1 _ hmem
        have he : e ∈ w.windowLadder := by simp [hladder]
        obtain ⟨hin, -, hheld⟩ := h.mem_windowLadder_iff.mp he
        obtain ⟨k, hk, heq⟩ := (inWindow_iff h.hasBase).mp hin
        exact absurd (heq ▸ hlt) (hmin k hk (heq ▸ hheld))

theorem windowLadder_eq_nil (h : Based w t) (hcount : w.count = 0) : w.windowLadder = [] := by
  rw [← List.length_eq_zero_iff, ← w.windowEntries_perm_windowLadder.length_eq,
    h.length_windowEntries, hcount]

theorem atPrice (h : Based w t) (p : Price) : w.atPrice p = some (UInt32.ofNat (t p)) := by
  unfold WindowedLevels.atPrice
  split_ifs with hin
  · obtain ⟨i, hi, rfl⟩ := (inWindow_iff h.hasBase).mp hin
    rw [w.index_add hi, h.read hi]
  · rw [h.overflow.find?_getD, outside, if_neg hin]

theorem size (h : Based w t) : w.size = w.ladder.length := by
  rw [WindowedLevels.size, ladder, List.length_append,
    ← w.windowEntries_perm_windowLadder.length_eq, h.length_windowEntries]
  rfl

theorem best_eq_head? (h : Based w t) : w.best = some w.ladder.head? := by
  unfold WindowedLevels.best ladder
  by_cases hcount : w.count = 0
  · rw [if_pos hcount, h.windowLadder_eq_nil hcount, List.nil_append]
  · have hpos := Nat.pos_of_ne_zero hcount
    obtain ⟨hbest, -, -⟩ := h.best hpos
    obtain ⟨post, hpost⟩ := h.windowLadder_eq_cons hpos
    have hread : (w.slots[w.bestIdx]?).map (fun q => some (w.windowBestPrice, q)) =
        some (some (w.windowBestPrice, UInt32.ofNat (t w.windowBestPrice))) := by
      rw [h.read hbest]
      rfl
    rw [if_neg hcount, hpost]
    cases hhead : w.overflow.entries.head? with
    | none => simp [hread]
    | some e =>
        obtain ⟨hnotIn, -, hheld⟩ := h.mem_overflow_iff.mp (List.mem_of_mem_head? hhead)
        have hlt := h.worse e.1 hheld hnotIn _ hbest
        have hnotLt : ¬ c.lt e.1 w.windowBestPrice := fun hlt' =>
          irrefl (r := c.lt) e.1 (trans_of c.lt hlt' hlt)
        simp [hnotLt, hread]

theorem top_eq_take (h : Based w t) (n : Nat) : w.top n = some (w.ladder.take n) := by
  unfold WindowedLevels.top ladder
  by_cases hcount : 0 < w.count
  · obtain ⟨post, hpost⟩ := h.windowLadder_eq_cons hcount
    have hsplit : w.windowLadder =
        [] ++ (w.base + (w.bestIdx : Int), UInt32.ofNat (t w.windowBestPrice)) :: post := hpost
    rw [if_pos hcount, hpost]
    exact h.topLoop_some n (h.best hcount).1 hsplit
  · rw [if_neg hcount, h.windowLadder_eq_nil (by omega), List.nil_append]
    exact topLoop_none w n _

end Based

theorem Represents.answers (h : Represents w t) :
    ∃ l, IsLadder c t l ∧ t.Fits ∧ (∀ p, w.atPrice p = some (UInt32.ofNat (t p))) ∧
      w.size = l.length ∧ w.best = some l.head? ∧ ∀ n, w.top n = some (l.take n) := by
  rcases h.state with hbased | ⟨rfl, rfl⟩
  · exact ⟨w.ladder, hbased.isLadder, hbased.fits, hbased.atPrice, hbased.size,
      hbased.best_eq_head?, hbased.top_eq_take⟩
  · refine ⟨[], LevelMap.represents_empty.isLadder, fun _ => by norm_num, fun p => ?_, rfl, rfl,
      fun n => ?_⟩
    · unfold WindowedLevels.atPrice
      rw [if_neg (by simp [InWindow])]
      rfl
    · exact Based.topLoop_none _ n _

end HftOrderbook.WindowedLevels

namespace HftOrderbook

instance : LawfulLevelStore CheckedWindow WirePrice where
  Represents s t := ∃ w, s = some w ∧ w.Represents t
  empty c := ⟨{}, rfl, WindowedLevels.represents_empty c⟩
  inc := by
    rintro c s t p q ⟨w, rfl, hw⟩ hp hq hfit
    exact hw.inc hp.1 hq hfit
  dec := by
    rintro c s t p q ⟨w, rfl, hw⟩ hq
    exact hw.dec hq
  answers := by
    rintro c s t ⟨w, rfl, hw⟩
    obtain ⟨l, hladder, hfits, hat, hsize, hbest, htop⟩ := hw.answers
    refine ⟨l, hfits, hladder, fun p => ?_, hsize, ?_, fun n => ?_⟩
    · change ((w.atPrice p).getD 0).toNat = t p
      rw [hat]
      exact UInt32.toNat_ofNat_of_lt' (hfits p)
    · change w.best.join = l.head?
      rw [hbest]
      rfl
    · change (w.top n).getD [] = l.take n
      rw [htop]
      rfl

end HftOrderbook
