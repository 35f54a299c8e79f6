import HftOrderbook.Proof.StoreAgreement

/-!
# Every index of the windowed store

That an index stays inside the array needs much less than that the totals are right: the array has
its full size and the tracked index lies in it. `Sized` says just that, so it survives calls that
`Represents` does not, and what can break it is only a price the re-centred window does not reach.
-/

namespace HftOrderbook

namespace WindowedLevels

variable {c : Compare} {w : WindowedLevels c} {t : Totals} {p : Price} {q : Qty}

structure Sized (w : WindowedLevels c) : Prop where
  hasBase : w.hasBase = true
  base_nonneg : 0 ≤ w.base
  length : w.slots.length = kWindow
  bestIdx : w.bestIdx < kWindow

theorem sized_replicate (c : Compare) {base : Price} (hbase : 0 ≤ base) :
    Sized ({ slots := List.replicate kWindow 0, base := base, hasBase := true } :
      WindowedLevels c) :=
  ⟨rfl, hbase, by simp, by simp [kWindow]⟩

/-- Every price reads as the low word of its total. -/
def ReadsAs (w : WindowedLevels c) (t : Totals) : Prop :=
  ∀ p, w.atPrice p = some (UInt32.ofNat (t p))

theorem readsAs_replicate (c : Compare) (base : Price) :
    ReadsAs ({ slots := List.replicate kWindow 0, base := base, hasBase := true } :
      WindowedLevels c) fun _ => 0 := by
  intro p
  unfold atPrice
  split_ifs with hin
  · obtain ⟨i, hi, rfl⟩ := (inWindow_iff rfl).mp hin
    rw [index_add _ hi]
    simp [hi]
  · rfl

namespace Sized

theorem read (h : Sized w) {i : Nat} (hi : i < kWindow) : ∃ q, w.slots[i]? = some q :=
  ⟨_, List.getElem?_eq_getElem (h.length ▸ hi)⟩

/-! ### Writing a slot -/

theorem placeInWindow (h : Sized w) (hreads : ReadsAs w t) (hin : w.InWindow p) (q : Qty) :
    ∃ w', w.placeInWindow p q = some w' ∧ w'.base = w.base ∧ Sized w' ∧
      ReadsAs w' (t.inc p q.toNat) := by
  obtain ⟨i, hi, rfl⟩ := (inWindow_iff h.hasBase).mp hin
  have hlt : i < w.slots.length := h.length ▸ hi
  obtain ⟨old, hold⟩ := h.read hi
  have hvalue : old = UInt32.ofNat (t (w.base + i)) := by
    have hat := hreads (w.base + i)
    rw [atPrice, if_pos hin, w.index_add hi, hold] at hat
    exact Option.some.inj hat
  -- whatever happens to the count and the tracked index, prices read from slots and overflow
  have hset : ∀ bestIdx count : Nat, ReadsAs { w with
      slots := w.slots.set i (old + q), bestIdx := bestIdx, count := count }
      (t.inc (w.base + i) q.toNat) := by
    intro bestIdx count p'
    have hat := hreads p'
    unfold atPrice at hat ⊢
    change (if w.InWindow p' then (w.slots.set i (old + q))[w.index p']?
      else some ((w.overflow.find? p').getD 0)) = _
    split_ifs at hat ⊢ with hin'
    · obtain ⟨k, hk, rfl⟩ := (inWindow_iff h.hasBase).mp hin'
      rw [w.index_add hk] at hat ⊢
      rw [List.getElem?_set, Totals.inc_apply]
      by_cases hki : k = i
      · subst hki
        rw [if_pos rfl, if_pos hlt, if_pos rfl, UInt32.ofNat_add, UInt32.ofNat_toNat, ← hvalue]
      · rw [if_neg (Ne.symm hki), if_neg (by grind)]
        exact hat
    · rw [Totals.inc_apply, if_neg (by rintro rfl; exact hin' hin)]
      exact hat
  unfold WindowedLevels.placeInWindow
  rw [w.index_add hi, hold]
  dsimp only
  split_ifs
  · exact ⟨_, rfl, rfl, ⟨h.hasBase, h.base_nonneg, by simpa using h.length, hi⟩, hset _ _⟩
  · exact ⟨_, rfl, rfl, ⟨h.hasBase, h.base_nonneg, by simpa using h.length, h.bestIdx⟩, hset _ _⟩
  · exact ⟨_, rfl, rfl, ⟨h.hasBase, h.base_nonneg, by simpa using h.length, h.bestIdx⟩, hset _ _⟩

theorem rebucket (h : Sized w) (hreads : ReadsAs w t) (e : Price × Qty) :
    ∃ w', rebucket w e = some w' ∧ w'.base = w.base ∧ Sized w' ∧
      ReadsAs w' (t.inc e.1 e.2.toNat) := by
  unfold WindowedLevels.rebucket
  by_cases hin : w.InWindow e.1
  · rw [if_pos hin]
    exact h.placeInWindow hreads hin e.2
  · rw [if_neg hin]
    refine ⟨_, rfl, rfl, ⟨h.hasBase, h.base_nonneg, h.length, h.bestIdx⟩, fun p' => ?_⟩
    have hat := hreads p'
    unfold atPrice at hat ⊢
    change (if w.InWindow p' then w.slots[w.index p']?
      else some (((w.overflow.addAt e.1 e.2).find? p').getD 0)) = _
    split_ifs at hat ⊢ with hin'
    · rw [Totals.inc_apply, if_neg (by rintro rfl; exact hin hin')]
      exact hat
    · rw [LevelMap.addAt, OrderedMap.find?_insert, Totals.inc_apply]
      by_cases hp : p' = e.1
      · subst hp
        rw [Option.some.injEq] at hat
        simp [hat, UInt32.ofNat_add]
      · simp only [hp, if_false]
        simpa [hp] using hat

theorem foldlM_rebucket (h : Sized w) (hreads : ReadsAs w t) (l : List (Price × Qty)) :
    ∃ w', l.foldlM WindowedLevels.rebucket w = some w' ∧ w'.base = w.base ∧ Sized w' ∧
      ReadsAs w' (l.foldl (fun t e => t.inc e.1 e.2.toNat) t) := by
  induction l generalizing w t with
  | nil => exact ⟨w, rfl, rfl, h, hreads⟩
  | cons e rest ih =>
      obtain ⟨w', hw', hbase, h', hreads'⟩ := h.rebucket hreads e
      obtain ⟨w'', hw'', hbase'', h'', hreads''⟩ := ih h' hreads'
      refine ⟨w'', ?_, hbase''.trans hbase, h'', hreads''⟩
      rw [List.foldlM_cons, hw']
      exact hw''

end Sized

/-! ### Re-centring -/

def recentredBase (center : Price) : Price :=
  if center - (kWindow / 2 : Nat) < 0 then 0 else center - (kWindow / 2 : Nat)

theorem recentredBase_nonneg (center : Price) : 0 ≤ recentredBase center := by
  unfold recentredBase
  split_ifs <;> grind

/-- Any price may be re-centred on: what is collected is put back, in or outside the window. -/
theorem recenterTo_sized (w : WindowedLevels c) (center : Price) :
    ∃ w', w.recenterTo center = some w' ∧ w'.base = recentredBase center ∧ Sized w' ∧
      ReadsAs w' (((if w.hasBase then w.windowEntries else []) ++ w.overflow.entries).foldl
        (fun t e => t.inc e.1 e.2.toNat) fun _ => 0) :=
  (sized_replicate c (recentredBase_nonneg center)).foldlM_rebucket
    (readsAs_replicate c (recentredBase center)) _

theorem Represents.recenterTo (h : Represents w t) (center : Price) :
    ∃ w', w.recenterTo center = some w' ∧ ∀ p, w'.atPrice p = w.atPrice p := by
  obtain ⟨w', hw', -, -, hreads⟩ := w.recenterTo_sized center
  obtain ⟨-, -, -, hat, -⟩ := h.answers
  have hcollects :
      Collects ((if w.hasBase then w.windowEntries else []) ++ w.overflow.entries) t := by
    rcases h.state with hbased | ⟨rfl, rfl⟩
    · exact hbased.collects_hasBase
    · exact ⟨by simp [OrderedMap.empty], by simp [OrderedMap.empty], fun _ => by norm_num⟩
  rw [foldl_inc_eq hcollects.distinct hcollects.mem_iff hcollects.fits] at hreads
  exact ⟨w', hw', fun p => by rw [hreads p, hat p]⟩

theorem recenterAndPlace_of_nonneg (w : WindowedLevels c) (hp : 0 ≤ p) (q : Qty) :
    ∃ w', w.recenterAndPlace p q = some w' ∧ Sized w' := by
  obtain ⟨w', hw', hbase, h', hreads⟩ := w.recenterTo_sized p
  have hin : w'.InWindow p := by
    refine ⟨h'.hasBase, ?_, ?_⟩ <;> rw [hbase] <;> unfold recentredBase kWindow <;>
      split_ifs <;> grind
  obtain ⟨w'', hw'', -, h'', -⟩ := h'.placeInWindow hreads hin q
  exact ⟨w'', by rw [recenterAndPlace, hw']; exact hw'', h''⟩

/-- The base is clamped at zero, so a negative price is not in the window centred on it; its index
comes out as a large unsigned number. -/
theorem recenterAndPlace_of_neg (w : WindowedLevels c) (hp : p < 0) (hmin : -2 ^ 63 ≤ p)
    (q : Qty) : w.recenterAndPlace p q = none := by
  obtain ⟨w', hw', hbase, h', -⟩ := w.recenterTo_sized p
  have hzero : w'.base = 0 := by
    rw [hbase, recentredBase, if_pos]
    grind
  have hword : ∀ x : Int, x < 0 → -2 ^ 63 ≤ x → 65536 ≤ ((x - 0) % 2 ^ 64).toNat := by
    intro x hneg hmin
    omega
  have hindex : w'.slots.length ≤ w'.index p := by
    rw [h'.length, index, hzero]
    exact hword p hp hmin
  rw [recenterAndPlace, hw']
  change w'.placeInWindow p q = none
  rw [WindowedLevels.placeInWindow, List.getElem?_eq_none hindex]

/-! ### Calls and queries -/

namespace Sized

theorem rescanBest (h : Sized w) : ∃ w', w.rescanBest = some w' ∧ Sized w' := by
  have hmove : ∀ i < kWindow, Sized { w with bestIdx := i } :=
    fun i hi => ⟨h.hasBase, h.base_nonneg, h.length, hi⟩
  unfold WindowedLevels.rescanBest
  split_ifs with hcount
  · exact ⟨_, rfl, hmove 0 (by simp [kWindow])⟩
  · rcases nextWindowIdx_cases h.length h.bestIdx with ⟨j, hj, hnext, -⟩ | ⟨hnext, -⟩
    · rw [hnext]
      exact ⟨_, rfl, hmove j hj⟩
    · rw [hnext]
      dsimp only
      unfold fullScan
      split_ifs
      · rcases prevSlot_cases w.slots le_rfl with ⟨j, hj, hlt, -⟩ | ⟨hnone, -⟩
        · rw [hj]
          exact ⟨_, rfl, hmove j (h.length ▸ hlt)⟩
        · rw [hnone]
          exact ⟨_, rfl, hmove _ h.bestIdx⟩
      · refine ⟨_, rfl, hmove _ ?_⟩
        cases hfind : w.slots.findIdx? (· ≠ 0) with
        | none => exact h.bestIdx
        | some j =>
            have hlt := (List.findIdx?_eq_some_iff_getElem.mp hfind).1
            exact h.length ▸ hlt

theorem dec (h : Sized w) (p : Price) (q : Qty) : ∃ w', w.dec p q = some w' ∧ Sized w' := by
  unfold WindowedLevels.dec
  by_cases hin : w.InWindow p
  · rw [if_pos hin]
    obtain ⟨i, hi, rfl⟩ := (inWindow_iff h.hasBase).mp hin
    obtain ⟨old, hold⟩ := h.read hi
    have hset : ∀ (value : Qty) (count : Nat),
        Sized { w with slots := w.slots.set i value, count := count } :=
      fun _ _ => ⟨h.hasBase, h.base_nonneg, by simpa using h.length, h.bestIdx⟩
    rw [w.index_add hi, hold]
    dsimp only
    split_ifs
    · exact ⟨_, rfl, h⟩
    · exact (hset 0 (w.count - 1)).rescanBest
    · exact ⟨_, rfl, hset 0 (w.count - 1)⟩
    · exact ⟨_, rfl, hset (old - q) w.count⟩
  · rw [if_neg hin]
    exact ⟨_, rfl, h.hasBase, h.base_nonneg, h.length, h.bestIdx⟩

theorem atPrice_isSome (h : Sized w) (p : Price) : (w.atPrice p).isSome := by
  unfold atPrice
  split_ifs with hin
  · obtain ⟨i, hi, rfl⟩ := (inWindow_iff h.hasBase).mp hin
    rw [w.index_add hi]
    exact Option.isSome_iff_exists.mpr (h.read hi)
  · rfl

theorem best_isSome (h : Sized w) : w.best.isSome := by
  obtain ⟨q, hq⟩ := h.read h.bestIdx
  unfold best
  rw [hq]
  split_ifs
  · rfl
  · cases w.overflow.entries.head? with
    | none => rfl
    | some e =>
        dsimp only
        split_ifs <;> rfl

theorem topLoop_isSome (h : Sized w) (n : Nat) : ∀ (wi : Option Nat) (of : List (Price × Qty)),
    (∀ i, wi = some i → i < kWindow) → (w.topLoop n wi of).isSome := by
  induction n with
  | zero => exact fun _ _ _ => rfl
  | succ n ih =>
      intro wi of hwi
      -- taking from the window reads the cursor's slot and walks on inside the array
      have htake : ∀ i, wi = some i → ∀ of, (do
          let q ← w.slots[i]?
          let next ← w.nextWindowIdx i
          (w.topLoop n next of).map ((w.base + (i : Int), q) :: ·)).isSome := by
        intro i hi of
        obtain ⟨q, hq⟩ := h.read (hwi i hi)
        rw [hq]
        rcases nextWindowIdx_cases h.length (hwi i hi) with ⟨j, hj, hnext, -⟩ | ⟨hnext, -⟩
        · rw [hnext]
          simpa using ih (some j) of fun k hk => Option.some.inj hk ▸ hj
        · rw [hnext]
          simpa using ih none of fun k hk => absurd hk (by simp)
      cases wi with
      | none =>
          cases of with
          | nil => rfl
          | cons e of =>
              rw [topLoop, Option.isSome_map]
              exact ih none of hwi
      | some i =>
          cases of with
          | nil => exact htake i rfl []
          | cons e of =>
              rw [topLoop]
              split_ifs
              · rw [Option.isSome_map]
                exact ih (some i) of hwi
              · exact htake i rfl (e :: of)

theorem top_isSome (h : Sized w) (n : Nat) : (w.top n).isSome := by
  refine h.topLoop_isSome n _ _ fun i hi => ?_
  split_ifs at hi
  exact Option.some.inj hi ▸ h.bestIdx

end Sized

/-- Before its first level the store has no array; from then on it is `Sized`. -/
def IndexSafe (w : WindowedLevels c) : Prop := Sized w ∨ w = {}

theorem IndexSafe.inBounds (h : IndexSafe w) : InBounds (some w) := by
  rcases h with hsized | rfl
  · exact ⟨w, rfl, hsized.atPrice_isSome, hsized.best_isSome, hsized.top_isSome⟩
  · exact inBounds_of_represents ⟨{}, rfl, represents_empty c⟩

/-- The call does not re-centre on a price below zero: the price is not negative, or the store has a
level that it does not beat. -/
def LandsInside (w : WindowedLevels c) : LevelOp → Prop
  | .inc p q => q = 0 ∨ 0 ≤ p ∨ ∃ best, w.bestPrice = some best ∧ ¬ c.lt p best
  | .dec _ _ => True

theorem bestPrice_isSome (hne : ¬ (w.count = 0 ∧ w.overflow.entries = [])) :
    ∃ best, w.bestPrice = some best := by
  unfold bestPrice
  split_ifs with hcount
  · obtain ⟨e, rest, hentries⟩ := List.exists_cons_of_ne_nil fun hnil => hne ⟨hcount, hnil⟩
    exact ⟨e.1, by rw [hentries]; rfl⟩
  · cases w.overflow.entries.head? with
    | none => exact ⟨_, rfl⟩
    | some e =>
        dsimp only
        split_ifs
        · exact ⟨_, rfl⟩
        · exact ⟨_, rfl⟩

theorem bestPrice_eq_none (h : w.count = 0 ∧ w.overflow.entries = []) : w.bestPrice = none := by
  rw [bestPrice, if_pos h.1, h.2]
  rfl

theorem IndexSafe.inc_of_landsInside (h : IndexSafe w) (hlands : w.LandsInside (.inc p q)) :
    ∃ w', w.inc p q = some w' ∧ IndexSafe w' := by
  by_cases hq : q = 0
  · exact ⟨w, by rw [inc, if_pos hq], h⟩
  replace hlands := hlands.resolve_left hq
  have hplace : 0 ≤ p → ∃ w', w.recenterAndPlace p q = some w' ∧ IndexSafe w' := by
    intro hp
    obtain ⟨w', hw', h'⟩ := w.recenterAndPlace_of_nonneg hp q
    exact ⟨w', hw', Or.inl h'⟩
  unfold inc
  rw [if_neg hq]
  rcases h with hsized | rfl
  · rw [if_neg (by simp [hsized.hasBase])]
    by_cases hin : w.InWindow p
    · rw [if_pos hin]
      obtain ⟨t, hreads⟩ : ∃ t, ReadsAs w t := by
        refine ⟨fun p => ((w.atPrice p).getD 0).toNat, fun p => ?_⟩
        obtain ⟨old, hold⟩ := Option.isSome_iff_exists.mp (hsized.atPrice_isSome p)
        simp only [hold, Option.getD_some, UInt32.ofNat_toNat]
      obtain ⟨w', hw', -, h', -⟩ := hsized.placeInWindow hreads hin q
      exact ⟨w', hw', Or.inl h'⟩
    · rw [if_neg hin]
      by_cases hempty : w.count = 0 ∧ w.overflow.entries = []
      · rw [if_pos hempty]
        rcases hlands with hp | ⟨best, hbest, -⟩
        · exact hplace hp
        · simp [bestPrice_eq_none hempty] at hbest
      · rw [if_neg hempty]
        obtain ⟨best, hbest⟩ := bestPrice_isSome hempty
        rw [hbest]
        by_cases hlt : c.lt p best
        · simp only [if_pos hlt]
          rcases hlands with hp | ⟨best', hbest', hnotLt⟩
          · exact hplace hp
          · obtain rfl := Option.some.inj (hbest.symm.trans hbest')
            exact absurd hlt hnotLt
        · simp only [if_neg hlt]
          exact ⟨_, rfl, Or.inl ⟨hsized.hasBase, hsized.base_nonneg, hsized.length,
            hsized.bestIdx⟩⟩
  · rw [if_pos rfl]
    rcases hlands with hp | ⟨best, hbest, -⟩
    · exact hplace hp
    · rw [bestPrice_eq_none ⟨rfl, rfl⟩] at hbest
      cases hbest

theorem IndexSafe.inc_of_not_landsInside (h : IndexSafe w) (hmin : -2 ^ 63 ≤ p)
    (hlands : ¬ w.LandsInside (.inc p q)) : w.inc p q = none := by
  obtain ⟨hq, hneg, hbeats⟩ : q ≠ 0 ∧ p < 0 ∧ ∀ best, w.bestPrice = some best → c.lt p best := by
    unfold LandsInside at hlands
    push Not at hlands
    exact hlands
  have hnone := w.recenterAndPlace_of_neg hneg hmin q
  unfold inc
  rw [if_neg hq]
  rcases h with hsized | rfl
  · have hin : ¬ w.InWindow p := by
      rintro ⟨-, hlow, -⟩
      exact absurd (le_trans hsized.base_nonneg hlow) (not_le.mpr hneg)
    rw [if_neg (by simp [hsized.hasBase]), if_neg hin]
    by_cases hempty : w.count = 0 ∧ w.overflow.entries = []
    · rw [if_pos hempty, hnone]
    · obtain ⟨best, hbest⟩ := bestPrice_isSome hempty
      rw [if_neg hempty, hbest]
      simp only [if_pos (hbeats best hbest), hnone]
  · rw [if_pos rfl, hnone]

end WindowedLevels

/-! ### Runs -/

def LevelOp.price : LevelOp → Price
  | .inc p _ => p
  | .dec p _ => p

open WindowedLevels

theorem exec_of_landsInside {c : Compare} {w : WindowedLevels c} {op : LevelOp}
    (h : IndexSafe w) (hlands : w.LandsInside op) :
    ∃ w', LevelOp.exec (S := CheckedWindow) (some w) op = some w' ∧ IndexSafe w' := by
  cases op with
  | inc p q => exact h.inc_of_landsInside hlands
  | dec p q =>
      rcases h with hsized | rfl
      · obtain ⟨w', hw', h'⟩ := hsized.dec p q
        exact ⟨w', hw', Or.inl h'⟩
      · refine ⟨{}, ?_, Or.inr rfl⟩
        change WindowedLevels.dec {} p q = some {}
        rw [WindowedLevels.dec, if_neg (by simp [InWindow])]
        rfl

theorem exec_of_not_landsInside {c : Compare} {w : WindowedLevels c} {op : LevelOp}
    (h : IndexSafe w) (hmin : -2 ^ 63 ≤ op.price) (hlands : ¬ w.LandsInside op) :
    LevelOp.exec (S := CheckedWindow) (some w) op = none := by
  cases op with
  | inc p q => exact h.inc_of_not_landsInside hmin hlands
  | dec p q => exact absurd trivial hlands

theorem run_concat (S : Compare → Type) [LevelStore S] (c : Compare) (pre : List LevelOp)
    (op : LevelOp) : LevelOp.run S c (pre ++ [op]) = LevelOp.exec (LevelOp.run S c pre) op := by
  rw [LevelOp.run, List.foldl_append]
  rfl

theorem indexSafe_run {c : Compare} {ops : List LevelOp}
    (hlands : ∀ pre op, pre ++ [op] <+: ops → ∀ w, LevelOp.run CheckedWindow c pre = some w →
      w.LandsInside op) :
    ∀ pre, pre <+: ops → ∃ w, LevelOp.run CheckedWindow c pre = some w ∧ IndexSafe w := by
  refine Histories.forall_prefix ⟨{}, rfl, Or.inr rfl⟩ fun pre op hpre ⟨w, hw, hsafe⟩ => ?_
  rw [run_concat, hw]
  exact exec_of_landsInside hsafe (hlands pre op hpre w hw)

/-- The store stays inside its array along a run exactly when no call of it re-centres on a price
below zero. -/
theorem inBounds_run_iff (c : Compare) (ops : List LevelOp)
    (hrange : ∀ op ∈ ops, |op.price| < 2 ^ 62) :
    (∀ pre, pre <+: ops → InBounds (LevelOp.run CheckedWindow c pre)) ↔
      ∀ pre op, pre ++ [op] <+: ops → ∀ w, LevelOp.run CheckedWindow c pre = some w →
        w.LandsInside op := by
  have hlandsOf : ∀ pre op, pre ++ [op] <+: ops → ∀ w, LevelOp.run CheckedWindow c pre = some w →
      IndexSafe w → InBounds (LevelOp.run CheckedWindow c (pre ++ [op])) → w.LandsInside op := by
    intro pre op hpre w hw hsafe hbounds
    by_contra hlands
    have hmem : op ∈ ops := hpre.subset (by simp)
    have hnone := exec_of_not_landsInside hsafe (by grind [hrange op hmem]) hlands
    rw [run_concat, hw, hnone] at hbounds
    obtain ⟨_, heq, -⟩ := hbounds
    cases heq
  constructor
  · intro hbounds
    -- a call that does not land inside ends the run, so none has come before
    have hsafe : ∀ pre, pre <+: ops →
        ∃ w, LevelOp.run CheckedWindow c pre = some w ∧ IndexSafe w := by
      refine Histories.forall_prefix ⟨{}, rfl, Or.inr rfl⟩ fun pre op hpre ⟨w, hw, hsafe⟩ => ?_
      rw [run_concat, hw]
      exact exec_of_landsInside hsafe (hlandsOf pre op hpre w hw hsafe (hbounds _ hpre))
    intro pre op hpre w hw
    obtain ⟨w', hw', hsafe'⟩ := hsafe pre ((List.prefix_append pre [op]).trans hpre)
    obtain rfl := Option.some.inj (hw.symm.trans hw')
    exact hlandsOf pre op hpre w hw hsafe' (hbounds _ hpre)
  · intro hlands pre hpre
    obtain ⟨w, hw, hsafe⟩ := indexSafe_run hlands pre hpre
    rw [hw]
    exact hsafe.inBounds

def firstNegative : List LevelOp := [.inc (-1) 1]

/-- The first level of a store at price `-1`: the base is clamped at zero, and the price is placed
at the index `-1` wraps around to. -/
theorem firstNegative_escapes :
    (∀ op ∈ firstNegative, |op.price| < 2 ^ 62) ∧
      (∀ pre, pre <+: firstNegative → (LevelOp.totals pre).Fits) ∧
      ¬ InBounds (LevelOp.run CheckedWindow .greater firstNegative) := by
  refine ⟨by decide, fun pre hpre p => ?_, ?_⟩
  · have hcases : pre = [] ++ [LevelOp.inc (-1) 1] ∨ pre <+: [] := List.prefix_concat_iff.mp hpre
    rcases hcases with rfl | hnil
    · change Totals.inc (fun _ => 0) (-1) 1 p < 2 ^ 32
      rw [Totals.inc_apply]
      split_ifs <;> norm_num
    · rw [List.prefix_nil.mp hnil]
      change 0 < 2 ^ 32
      norm_num
  · rintro ⟨w, hw, -⟩
    have hlands : ¬ ({} : WindowedLevels .greater).LandsInside (.inc (-1) 1) := by
      simp [LandsInside, WindowedLevels.bestPrice, OrderedMap.empty]
    have hrun : LevelOp.run CheckedWindow .greater firstNegative =
        LevelOp.exec (LevelOp.run CheckedWindow .greater []) (.inc (-1) 1) := run_concat _ _ [] _
    have hempty : LevelOp.run CheckedWindow .greater [] = some {} := rfl
    rw [hrun, hempty, exec_of_not_landsInside (Or.inr rfl) (by decide) hlands] at hw
    cases hw

theorem inBounds_run_iff_sample :
    InBounds (LevelOp.run CheckedWindow .greater [.inc 70000 5, .inc 0 2, .dec 70000 5]) := by
  refine (inBounds_run_iff .greater [.inc 70000 5, .inc 0 2, .dec 70000 5] (by decide)).mpr ?_ _
    List.prefix_rfl
  intro pre op hpre w _
  have hmem : op ∈ [LevelOp.inc 70000 5, .inc 0 2, .dec 70000 5] := hpre.subset (by simp)
  simp only [List.mem_cons, List.not_mem_nil, or_false] at hmem
  rcases hmem with rfl | rfl | rfl
  · exact Or.inr (Or.inl (by decide))
  · exact Or.inr (Or.inl (by decide))
  · trivial

/-! ### The representation invariant -/

/-- `LevelOp.Allowed` with empty additions: a price the wire can carry, a total that fits, and
nothing taken out of a level that was not put in. -/
def LevelOp.Bounded (t : Totals) : LevelOp → Prop
  | .inc p q => WirePrice p ∧ t p + q.toNat < 2 ^ 32
  | .dec p q => WirePrice p ∧ q.toNat ≤ t p

instance (t : Totals) : DecidablePred (LevelOp.Bounded t)
  | .inc p q => inferInstanceAs (Decidable ((0 ≤ p ∧ p < 2 ^ 32) ∧ t p + q.toNat < 2 ^ 32))
  | .dec p q => inferInstanceAs (Decidable ((0 ≤ p ∧ p < 2 ^ 32) ∧ q.toNat ≤ t p))

theorem windowed_represents_run (c : Compare) {ops : List LevelOp}
    (hbounded : ∀ pre op, pre ++ [op] <+: ops → op.Bounded (LevelOp.totals pre)) :
    ∀ pre, pre <+: ops → ∃ w, LevelOp.run CheckedWindow c pre = some w ∧
      w.Represents (LevelOp.totals pre) := by
  refine Histories.forall_prefix ⟨{}, rfl, represents_empty c⟩ fun pre op hpre ⟨w, hw, h⟩ => ?_
  have hop := hbounded pre op hpre
  have htotals : LevelOp.totals (pre ++ [op]) = LevelOp.execTotals (LevelOp.totals pre) op := by
    rw [LevelOp.totals, List.foldl_append]
    rfl
  rw [run_concat, hw, htotals]
  cases op with
  | inc p q =>
      by_cases hq : q = 0
      · subst hq
        refine ⟨w, by change w.inc p 0 = some w; rw [WindowedLevels.inc, if_pos rfl], ?_⟩
        have hsame : (LevelOp.totals pre).inc p 0 = LevelOp.totals pre := by
          rw [Totals.inc, Nat.add_zero, Function.update_eq_self]
        change w.Represents ((LevelOp.totals pre).inc p 0)
        rwa [hsame]
      · exact h.inc hop.1.1 hq hop.2
  | dec p q => exact h.dec hop.2

namespace WindowedLevels

/-- How the levels are laid out over the array and the overflow map. -/
structure RepOk {c : Compare} (w : WindowedLevels c) : Prop where
  count : w.count = w.slots.countP (· ≠ 0)
  best : 0 < w.count → (∃ q, w.slots[w.bestIdx]? = some q ∧ q ≠ 0) ∧
    ∀ (i : Nat) q, w.slots[i]? = some q → q ≠ 0 → ¬ c.lt (w.base + i) w.windowBestPrice
  overflow : ∀ e ∈ w.overflow.entries, e.2 ≠ 0 ∧ ¬ w.InWindow e.1 ∧
    ∀ p, w.base ≤ p → p < w.base + kWindow → c.lt p e.1
  recentre : ∀ center, ∃ w', w.recenterTo center = some w' ∧ ∀ p, w'.atPrice p = w.atPrice p

/-- A `dec` of `q` at `p` empties the best slot, other slots are occupied, and the walk from the
emptied one comes back with nothing. -/
def ReachesFullScan {c : Compare} (w : WindowedLevels c) (p : Price) (q : Qty) : Prop :=
  w.InWindow p ∧ ∃ old, w.slots[w.index p]? = some old ∧ old ≠ 0 ∧ old - q = 0 ∧
    w.index p = w.bestIdx ∧ w.count - 1 ≠ 0 ∧
    ({ w with slots := w.slots.set (w.index p) 0, count := w.count - 1 } :
      WindowedLevels c).nextWindowIdx w.bestIdx = some none

theorem Based.repOk {c : Compare} {w : WindowedLevels c} {t : Totals} (h : Based w t)
    (hnonneg : ∀ p, t p ≠ 0 → 0 ≤ p) : RepOk w where
  count := h.count
  best hpos := by
    obtain ⟨hbest, hbestNe, hmin⟩ := h.best hpos
    have hslot : ∀ i < kWindow, UInt32.ofNat (t (w.base + i)) ≠ 0 ↔ t (w.base + i) ≠ 0 :=
      fun i _ => (ofNat_eq_zero_iff (h.fits _)).not
    refine ⟨⟨_, h.read hbest, (hslot _ hbest).mpr hbestNe⟩, fun i q hread hq => ?_⟩
    have hi : i < kWindow := h.length ▸ (List.getElem?_eq_some_iff.mp hread).1
    rw [h.read hi] at hread
    exact hmin i hi ((hslot i hi).mp (Option.some.inj hread ▸ hq))
  overflow e he := by
    obtain ⟨hnotIn, hq, hne⟩ := h.mem_overflow_iff.mp he
    refine ⟨fun hzero => hne (by rw [← hq, hzero]; rfl), hnotIn, fun p hlow hhigh => ?_⟩
    have hlt := h.worse e.1 hne hnotIn (p - w.base).toNat (by grind)
    have hp : w.base + ((p - w.base).toNat : Int) = p := by grind
    rwa [hp] at hlt
  recentre := Represents.recenterTo ⟨hnonneg, Or.inl h⟩

theorem Represents.repOk {c : Compare} {w : WindowedLevels c} {t : Totals} (h : Represents w t) :
    RepOk w := by
  rcases h.state with hbased | ⟨rfl, rfl⟩
  · exact hbased.repOk h.nonneg
  · exact ⟨rfl, fun hpos => absurd hpos (lt_irrefl 0), fun e he => by simp [OrderedMap.empty] at he,
      h.recenterTo⟩

theorem Represents.not_reachesFullScan {c : Compare} {w : WindowedLevels c} {t : Totals}
    (h : Represents w t) (p : Price) (q : Qty) : ¬ w.ReachesFullScan p q := by
  rintro ⟨hin, old, hold, hne, -, hindex, hcount, hnext⟩
  rcases h.state with hbased | ⟨rfl, rfl⟩
  · obtain ⟨i, hi, rfl⟩ := (inWindow_iff hbased.hasBase).mp hin
    rw [w.index_add hi] at hold hindex hnext
    subst hindex
    have hheld : t (w.base + w.bestIdx) ≠ 0 := by
      rw [hbased.read hi] at hold
      exact (ofNat_eq_zero_iff (hbased.fits _)).not.mp (Option.some.inj hold ▸ hne)
    obtain ⟨j, -, hfound, -⟩ := hbased.nextWindowIdx_emptied hheld (by omega) hcount
    rw [hnext] at hfound
    cases hfound
  · simp [InWindow] at hin

end WindowedLevels

/-- Along any run of bounded calls the levels stay laid out as `RepOk` says, no access leaves the
array, and the scan over every slot is never needed. -/
theorem windowed_representation (c : Compare) (ops : List LevelOp)
    (hbounded : ∀ pre op, pre ++ [op] <+: ops → op.Bounded (LevelOp.totals pre)) :
    ∀ pre, pre <+: ops → ∃ w : WindowedLevels c, LevelOp.run CheckedWindow c pre = some w ∧
      InBounds (some w) ∧ w.RepOk ∧ ∀ p q, ¬ w.ReachesFullScan p q := by
  intro pre hpre
  obtain ⟨w, hw, h⟩ := windowed_represents_run c hbounded pre hpre
  exact ⟨w, hw, inBounds_of_represents ⟨w, rfl, h⟩, h.repOk, h.not_reachesFullScan⟩

theorem windowed_representation_farApart :
    ∃ w : WindowedLevels .greater, LevelOp.run CheckedWindow .greater farApartOps = some w ∧
      InBounds (some w) ∧ w.RepOk ∧ ∀ p q, ¬ w.ReachesFullScan p q := by
  refine windowed_representation .greater farApartOps ?_ farApartOps List.prefix_rfl
  rw [Histories.forall_concat_prefix_iff]
  decide

end HftOrderbook
