import HftOrderbook.Proof.SyntheticRuns

/-!
# The book feed never crosses

The generator prices a new order against its own list of live orders. That list may hold orders that
are gone from the book, fully executed ones, but every order in the book is in it at the same side
and price; so keeping the list uncrossed keeps the book uncrossed.
-/

namespace HftOrderbook

open RandomSource

/-! ### The best of the list -/

namespace BookFeed

/-- `y` does not beat `x` on its side. -/
def NotBetter (side : Side) (y x : Int) : Prop := if side = Side.buy then y ≤ x else x ≤ y

theorem notBetter_refl (side : Side) (x : Int) : NotBetter side x x := by
  unfold NotBetter
  split_ifs <;> exact le_rfl

theorem notBetter_trans {side : Side} {x y z : Int} (h : NotBetter side z y)
    (h' : NotBetter side y x) : NotBetter side z x := by
  unfold NotBetter at *
  split_ifs at * <;> omega

/-- One round of the scan keeps the better of what it has and what it sees. -/
theorem bestStep_cases (side : Side) (v : Option Int) (o : Resting) :
    (o.side ≠ side ∧ bestStep side v o = v) ∨
      (o.side = side ∧ ∃ x, bestStep side v o = some x ∧ (v = some x ∨ o.px = x) ∧
        NotBetter side o.px x ∧ ∀ y, v = some y → NotBetter side y x) := by
  unfold bestStep
  by_cases hside : o.side = side
  · refine Or.inr ⟨hside, ?_⟩
    rw [if_pos hside]
    cases v with
    | none => exact ⟨o.px, rfl, Or.inr rfl, notBetter_refl side _, fun y hy => by cases hy⟩
    | some v =>
        unfold NotBetter
        by_cases hbuy : side = Side.buy
        · simp only [if_pos hbuy]
          split_ifs with hlt
          · exact ⟨o.px, rfl, Or.inr rfl, le_rfl, fun y hy => by cases hy; exact hlt.le⟩
          · exact ⟨v, rfl, Or.inl rfl, not_lt.mp hlt, fun y hy => by cases hy; exact le_rfl⟩
        · simp only [if_neg hbuy]
          split_ifs with hlt
          · exact ⟨o.px, rfl, Or.inr rfl, le_rfl, fun y hy => by cases hy; exact hlt.le⟩
          · exact ⟨v, rfl, Or.inl rfl, not_lt.mp hlt, fun y hy => by cases hy; exact le_rfl⟩
  · exact Or.inl ⟨hside, if_neg hside⟩

theorem foldl_bestStep (side : Side) (live : List Resting) (v : Option Int) :
    (∀ x, live.foldl (bestStep side) v = some x →
      (v = some x ∨ ∃ o ∈ live, o.side = side ∧ o.px = x) ∧
        (∀ y, v = some y → NotBetter side y x) ∧
        ∀ o ∈ live, o.side = side → NotBetter side o.px x) ∧
    (live.foldl (bestStep side) v = none → v = none ∧ ∀ o ∈ live, o.side ≠ side) := by
  induction live generalizing v with
  | nil =>
      refine ⟨fun x hx => ⟨Or.inl hx, fun y hy => ?_, by simp⟩, fun hnone => ⟨hnone, by simp⟩⟩
      obtain rfl := Option.some.inj (hy.symm.trans hx)
      exact notBetter_refl side _
  | cons o live ih =>
      rw [List.foldl_cons]
      obtain ⟨ihSome, ihNone⟩ := ih (bestStep side v o)
      rcases bestStep_cases side v o with ⟨hside, hstep⟩ | ⟨hside, x₀, hstep, hfrom, hseen, hkept⟩
      · rw [hstep] at ihSome ihNone ⊢
        constructor
        · intro x hx
          obtain ⟨hattained, hstart, hall⟩ := ihSome x hx
          refine ⟨hattained.imp_right ?_, hstart, ?_⟩
          · rintro ⟨o', ho', h⟩
            exact ⟨o', List.mem_cons_of_mem _ ho', h⟩
          · intro o' ho' hside'
            rcases List.mem_cons.mp ho' with rfl | ho'
            · exact absurd hside' hside
            · exact hall o' ho' hside'
        · intro hnone
          obtain ⟨hv, hall⟩ := ihNone hnone
          refine ⟨hv, fun o' ho' => ?_⟩
          rcases List.mem_cons.mp ho' with rfl | ho'
          · exact hside
          · exact hall o' ho'
      · rw [hstep] at ihSome ihNone ⊢
        constructor
        · intro x hx
          obtain ⟨hattained, hstart, hall⟩ := ihSome x hx
          have hbest := hstart x₀ rfl
          refine ⟨?_, fun y hy => notBetter_trans (hkept y hy) hbest, fun o' ho' hside' => ?_⟩
          · rcases hattained with heq | ⟨o', ho', h⟩
            · obtain rfl := Option.some.inj heq
              rcases hfrom with hfrom | hfrom
              · exact Or.inl hfrom
              · exact Or.inr ⟨o, List.mem_cons_self, hside, hfrom⟩
            · exact Or.inr ⟨o', List.mem_cons_of_mem _ ho', h⟩
          · rcases List.mem_cons.mp ho' with rfl | ho'
            · exact notBetter_trans hseen hbest
            · exact hall o' ho' hside'
        · intro hnone
          obtain ⟨hv, -⟩ := ihNone hnone
          cases hv

/-- The best of a side is one of its prices, or the seed quote where it has none. -/
theorem best_spec (f : BookFeed) (side : Side) :
    (∀ o ∈ f.live, o.side = side → NotBetter side o.px (f.best side)) ∧
      (f.best side = (if side = Side.buy then seedBid else seedAsk) ∨
        ∃ o ∈ f.live, o.side = side ∧ o.px = f.best side) := by
  unfold best
  obtain ⟨hsome, hnone⟩ := foldl_bestStep side f.live none
  cases hfold : f.live.foldl (bestStep side) none with
  | none => exact ⟨fun o ho hside => absurd hside ((hnone hfold).2 o ho), Or.inl rfl⟩
  | some x =>
      obtain ⟨hattained, -, hall⟩ := hsome x hfold
      refine ⟨hall, Or.inr ?_⟩
      rcases hattained with hnone | hex
      · cases hnone
      · exact hex

end BookFeed

/-! ### The orders behind a stream -/

namespace LiveOrders

variable {m : LiveOrders} {ref ref' : OrderRef} {o : Order}

theorem lookup_of_lookup_add {side : Side} {price : Price} {shares : Qty}
    (h : (m.add ref side price shares).lookup ref' = some o) :
    m.lookup ref' = some o ∨ ref' = ref ∧ o.side = side ∧ o.price = price := by
  rcases m.add_cases ref side price shares with heq | ⟨-, heq⟩
  · exact Or.inl (heq ▸ h)
  · rw [heq] at h
    rcases Finmap.of_lookup_insert h with ⟨rfl, rfl⟩ | ⟨-, hlookup⟩
    · exact Or.inr ⟨rfl, rfl, rfl⟩
    · exact Or.inl hlookup

theorem lookup_of_lookup_reduce {qty : Qty} (h : (m.reduce ref qty).1.lookup ref' = some o) :
    ∃ o₀, m.lookup ref' = some o₀ ∧ o₀.side = o.side ∧ o₀.price = o.price := by
  rcases m.reduce_cases ref qty with heq | heq | ⟨o₀, hlookup₀, heq⟩
  · exact ⟨o, heq ▸ h, rfl, rfl⟩
  · rw [heq] at h
    exact ⟨o, (Finmap.of_lookup_erase h).2, rfl, rfl⟩
  · rw [heq] at h
    rcases Finmap.of_lookup_insert h with ⟨rfl, rfl⟩ | ⟨-, hlookup⟩
    · exact ⟨o₀, hlookup₀, rfl, rfl⟩
    · exact ⟨o, hlookup, rfl, rfl⟩

theorem lookup_of_lookup_remove (h : (m.remove ref).1.lookup ref' = some o) :
    m.lookup ref' = some o ∧ ref' ≠ ref := by
  rw [remove_eq_erase] at h
  exact (Finmap.of_lookup_erase h).symm

def Uncrossed (m : LiveOrders) : Prop :=
  ∀ bid ask, m.Rests Side.buy bid → m.Rests Side.sell ask → bid < ask

end LiveOrders

/-- The live orders after the messages have been replayed. -/
def liveAfter (written : List Chosen) : LiveOrders :=
  LiveOrders.run ((written.map fun c => c.record.message).filterMap Message.bookOp?)

theorem liveAfter_concat (written : List Chosen) (c : Chosen) :
    liveAfter (written ++ [c]) =
      c.record.message.bookOp?.elim (liveAfter written)
        fun op => ((liveAfter written).exec op).1 := by
  unfold liveAfter
  rw [List.map_append, List.filterMap_append]
  cases hop : c.record.message.bookOp? with
  | none => simp [hop]
  | some op =>
      have hlast : ([c].map fun c => c.record.message).filterMap Message.bookOp? = [op] := by
        simp [hop]
      rw [hlast, LiveOrders.run_concat]
      rfl

theorem mem_swapPop {α : Type} {v : List α} {i : Nat} {a d : α} (hi : i < v.length) (ha : a ∈ v)
    (hne : a ≠ v.getD i d) : a ∈ swapPop v i := by
  obtain ⟨init, back, rfl⟩ := (List.eq_nil_or_concat' v).resolve_left (List.ne_nil_of_mem ha)
  have hlast : (init ++ [back]).getLast? = some back := by simp
  unfold swapPop
  rw [hlast]
  dsimp only
  rw [List.length_append, List.length_singleton] at hi
  rcases Nat.lt_succ_iff_lt_or_eq.mp hi with hlt | rfl
  · rw [List.set_append_left _ _ hlt, List.dropLast_concat]
    rcases List.mem_append.mp ha with ha | ha
    · obtain ⟨j, hj, rfl⟩ := List.mem_iff_getElem.mp ha
      have hij : i ≠ j := by
        rintro rfl
        rw [List.getD, List.getElem?_append_left hj, List.getElem?_eq_getElem hj] at hne
        exact hne rfl
      refine List.mem_iff_getElem.mpr ⟨j, by rwa [List.length_set], ?_⟩
      rw [List.getElem_set_ne hij]
    · rw [List.mem_singleton.mp ha]
      exact List.mem_set hlt back
  · rw [List.set_append_right _ _ le_rfl, Nat.sub_self, List.set_cons_zero, List.dropLast_concat]
    rcases List.mem_append.mp ha with ha | ha
    · exact ha
    · rw [List.mem_singleton.mp ha] at hne
      exact absurd (by simp) hne

/-! ### The generator keeps its list uncrossed and above the book -/

namespace BookFeed

/-- The list stands for the book: sides known, prices bounded, no bid at or above an ask, and every
live order listed at its side and price. -/
structure Ok (f : BookFeed) (top : Int) : Prop where
  ref_lt : ∀ o ∈ f.live, o.ref < f.out.nextRef
  px_le : ∀ o ∈ f.live, o.px ≤ top
  bid_ge : ∀ o ∈ f.live, o.side = Side.buy → 100 ≤ o.px
  ask_ge : ∀ o ∈ f.live, o.side = Side.sell → 200 ≤ o.px
  uncrossed : ∀ b ∈ f.live, ∀ a ∈ f.live, b.side = Side.buy → a.side = Side.sell → b.px < a.px
  listed : ∀ ref o, (liveAfter f.out.written).lookup ref = some o →
    ∃ e ∈ f.live, UInt64.ofNat e.ref = ref ∧ e.side = o.side ∧ e.px = o.price

variable {f : BookFeed} {top : Int}

theorem Ok.liveAfter_uncrossed (h : f.Ok top) : (liveAfter f.out.written).Uncrossed := by
  rintro bid ask ⟨ref, o, hlookup, hside, rfl⟩ ⟨ref', o', hlookup', hside', rfl⟩
  obtain ⟨b, hb, -, hbside, hbpx⟩ := h.listed ref o hlookup
  obtain ⟨a, ha, -, haside, hapx⟩ := h.listed ref' o' hlookup'
  rw [← hbpx, ← hapx]
  exact h.uncrossed b hb a ha (hbside.trans hside) (haside.trans hside')

theorem Ok.bestBid (h : f.Ok top) (htop : 1001100 ≤ top) :
    (100 ≤ f.best Side.buy ∧ f.best Side.buy ≤ top) ∧
      ∀ o ∈ f.live, o.side = Side.buy → o.px ≤ f.best Side.buy := by
  obtain ⟨hall, hfrom⟩ := f.best_spec Side.buy
  refine ⟨?_, hall⟩
  rcases hfrom with hseed | ⟨o, ho, hside, hpx⟩
  · rw [hseed, if_pos rfl]
    unfold seedBid
    omega
  · rw [← hpx]
    exact ⟨h.bid_ge o ho hside, h.px_le o ho⟩

theorem Ok.bestAsk (h : f.Ok top) (htop : 1001100 ≤ top) :
    (200 ≤ f.best Side.sell ∧ f.best Side.sell ≤ top) ∧
      ∀ o ∈ f.live, o.side = Side.sell → f.best Side.sell ≤ o.px := by
  obtain ⟨hall, hfrom⟩ := f.best_spec Side.sell
  refine ⟨?_, hall⟩
  rcases hfrom with hseed | ⟨o, ho, hside, hpx⟩
  · rw [hseed, if_neg (by decide)]
    unfold seedAsk
    omega
  · rw [← hpx]
    exact ⟨h.ask_ge o ho hside, h.px_le o ho⟩

def Emitted (f : BookFeed) (top : Int) (f' : BookFeed) : Prop := f'.Ok top ∧ f.out.Wrote f'.out

theorem Ok.mono {top' : Int} (h : f.Ok top) (htop : top ≤ top') : f.Ok top' :=
  { h with px_le := fun o ho => (h.px_le o ho).trans htop }

/-- A message that changes no order, or only takes shares from one, leaves the list as good. -/
theorem Ok.write (h : f.Ok top) {body : ChosenBody}
    (hkeeps : ∀ ref o, (liveAfter (f.out.write 1 body).written).lookup ref = some o →
      ∃ o₀, (liveAfter f.out.written).lookup ref = some o₀ ∧ o₀.side = o.side ∧
        o₀.price = o.price) :
    Ok { f with out := f.out.write 1 body } top := by
  refine ⟨h.ref_lt, h.px_le, h.bid_ge, h.ask_ge, h.uncrossed, fun ref o hlookup => ?_⟩
  obtain ⟨o₀, hlookup₀, hside, hprice⟩ := hkeeps ref o hlookup
  obtain ⟨e, he, href, heside, hepx⟩ := h.listed ref o₀ hlookup₀
  exact ⟨e, he, href, heside.trans hside, hepx.trans hprice⟩

theorem Ok.delete (h : f.Ok top) {i : Nat} (hi : i < f.live.length) (d : Resting) :
    Ok { f with
      out := f.out.write 1 (.delete (f.live.getD i d).ref), live := swapPop f.live i } top := by
  refine ⟨fun o ho => h.ref_lt o (mem_of_mem_swapPop ho), fun o ho =>
    h.px_le o (mem_of_mem_swapPop ho), fun o ho => h.bid_ge o (mem_of_mem_swapPop ho), fun o ho =>
    h.ask_ge o (mem_of_mem_swapPop ho), fun b hb a ha =>
    h.uncrossed b (mem_of_mem_swapPop hb) a (mem_of_mem_swapPop ha), fun ref o hlookup => ?_⟩
  change (liveAfter (f.out.written ++ [_])).lookup ref = some o at hlookup
  rw [liveAfter_concat] at hlookup
  obtain ⟨hlookup, hne⟩ := LiveOrders.lookup_of_lookup_remove hlookup
  obtain ⟨e, he, rfl, hside, hpx⟩ := h.listed ref o hlookup
  refine ⟨e, mem_swapPop (d := d) hi he ?_, rfl, hside, hpx⟩
  rintro rfl
  exact hne rfl

/-- The new order goes on the list at the price it has in the book. -/
theorem Ok.addOrder (h : f.Ok top) {side : Side} {shares : Nat} {price : Int}
    (hlow : 0 ≤ price) (hhigh : price < 2 ^ 32) (hprice : price ≤ top)
    (hbid : side = Side.buy → 100 ≤ price ∧ ∀ a ∈ f.live, a.side = Side.sell → price < a.px)
    (hask : side = Side.sell → 200 ≤ price ∧ ∀ b ∈ f.live, b.side = Side.buy → b.px < price) :
    Ok { f with
      out := f.out.takeRef.write 1 (.add f.out.nextRef side shares stock8 price)
      live := f.live ++ [⟨f.out.nextRef, side, price⟩] } top := by
  have hsplit : ∀ {o : Resting}, o ∈ f.live ++ [⟨f.out.nextRef, side, price⟩] →
      o ∈ f.live ∨ o = ⟨f.out.nextRef, side, price⟩ := by
    intro o ho
    simpa using ho
  refine ⟨fun o ho => ?_, fun o ho => ?_, fun o ho hside => ?_, fun o ho hside => ?_,
    fun b hb a ha hbside haside => ?_, fun ref o hlookup => ?_⟩
  · rcases hsplit ho with ho | rfl
    · exact (h.ref_lt o ho).trans (Nat.lt_succ_self _)
    · exact Nat.lt_succ_self _
  · rcases hsplit ho with ho | rfl
    · exact h.px_le o ho
    · exact hprice
  · rcases hsplit ho with ho | rfl
    · exact h.bid_ge o ho hside
    · exact (hbid hside).1
  · rcases hsplit ho with ho | rfl
    · exact h.ask_ge o ho hside
    · exact (hask hside).1
  · rcases hsplit hb with hb | rfl
    · rcases hsplit ha with ha | rfl
      · exact h.uncrossed b hb a ha hbside haside
      · exact (hask haside).2 b hb hbside
    · rcases hsplit ha with ha | rfl
      · exact (hbid hbside).2 a ha haside
      · exact absurd (hbside.symm.trans haside) (by decide)
  · change (liveAfter (f.out.written ++ [_])).lookup ref = some o at hlookup
    rw [liveAfter_concat] at hlookup
    rcases LiveOrders.lookup_of_lookup_add hlookup with hlookup | ⟨rfl, hside, hpx⟩
    · obtain ⟨e, he, h'⟩ := h.listed ref o hlookup
      exact ⟨e, List.mem_append_left _ he, h'⟩
    · refine ⟨⟨f.out.nextRef, side, price⟩, by simp, rfl, hside.symm, ?_⟩
      rw [hpx]
      exact (toNat_ofInt_of_fits hlow hhigh).symm

theorem always_add (h : f.Ok top) (hready : f.out.Ready) (hseed : 1001100 ≤ top)
    (htop : top ≤ 2 ^ 31) {side : Side} (hside : side.Real) :
    Always (f.add side) (f.Emitted (top + 1000)) := by
  refine always_bind (always_below (by norm_num)) fun k hk => ?_
  refine always_bind (always_below (by norm_num)) fun j hj => always_pure ?_
  obtain ⟨⟨hbbLow, hbbHigh⟩, hbb⟩ := h.bestBid hseed
  obtain ⟨⟨hbaLow, hbaHigh⟩, hba⟩ := h.bestAsk hseed
  set bb := f.best Side.buy
  set ba := f.best Side.sell
  set price : Int :=
    if (if side = Side.buy then ba - 100 - k * 100 else bb + 100 + k * 100) < 100 then 100
    else if side = Side.buy then ba - 100 - k * 100 else bb + 100 + k * 100 with hprice
  have hbounds : 100 ≤ price ∧ price ≤ top + 1000 := by
    rw [hprice]
    split_ifs <;> omega
  refine ⟨(h.mono (by omega)).addOrder (by omega) (by omega) hbounds.2 (fun hbuy => ?_)
    fun hsell => ?_, hready.ok.writeNew hready.room (by norm_num)
      ⟨hready.ref_lt le_rfl, by omega, by omega, by omega⟩ ⟨hside, by omega⟩ rfl⟩
  · -- a bid is a cent or more below the best ask, and asks stand above one cent
    refine ⟨hbounds.1, fun a ha haside => ?_⟩
    have hle := hba a ha haside
    rw [hprice, if_pos hbuy]
    split_ifs <;> omega
  · have hnot : side ≠ Side.buy := by
      rw [hsell]
      decide
    refine ⟨?_, fun b hb hbside => ?_⟩
    · rw [hprice, if_neg hnot]
      split_ifs <;> omega
    · have hle := hbb b hb hbside
      rw [hprice, if_neg hnot]
      split_ifs <;> omega

theorem always_emit (h : f.Ok top) (hready : f.out.Ready) (hseed : 1001100 ≤ top)
    (htop : top ≤ 2 ^ 31) (roll : Nat) : Always (f.emit roll) (f.Emitted (top + 1000)) := by
  have hraised := h.mono (by omega : top ≤ top + 1000)
  have hemitted : f.out.emitted < 2 ^ 64 := hready.room.trans (by norm_num)
  unfold emit
  by_cases hadd : roll < 42 ∨ f.live.length < 10
  · rw [if_pos hadd]
    exact always_bind always_drawSide fun side hside => always_add h hready hseed htop hside
  rw [if_neg hadd]
  have hpool : 0 < f.live.length := by omega
  split_ifs
  · refine always_bind (always_below hpool) fun i hi => ?_
    refine always_bind (always_below (by norm_num)) fun k hk => always_pure ⟨?_, ?_⟩
    · refine hraised.write fun ref o hlookup => ?_
      change (liveAfter (f.out.written ++ [_])).lookup ref = some o at hlookup
      rw [liveAfter_concat] at hlookup
      exact LiveOrders.lookup_of_lookup_reduce hlookup
    · exact hready.ok.write hready.room (by norm_num)
        ⟨hready.ref_lt (h.ref_lt _ (getD_mem_of_lt hi _)).le, by omega, hemitted⟩ trivial rfl
  · refine always_bind (always_below hpool) fun i hi => always_pure ⟨hraised.delete hi _, ?_⟩
    exact hready.ok.write hready.room (by norm_num)
      (hready.ref_lt (h.ref_lt _ (getD_mem_of_lt hi _)).le) trivial rfl
  · refine always_bind always_drawSide fun side _ => ?_
    refine always_bind (always_below (by norm_num)) fun k hk => always_pure ⟨?_, ?_⟩
    · refine hraised.write fun ref o hlookup => ?_
      change (liveAfter (f.out.written ++ [_])).lookup ref = some o at hlookup
      rw [liveAfter_concat] at hlookup
      exact ⟨o, hlookup, rfl, rfl⟩
    · obtain ⟨⟨hbbLow, hbbHigh⟩, -⟩ := h.bestBid hseed
      obtain ⟨⟨hbaLow, hbaHigh⟩, -⟩ := h.bestAsk hseed
      have hmid : 0 ≤ (f.best Side.buy + f.best Side.sell).tdiv 2 ∧
          (f.best Side.buy + f.best Side.sell).tdiv 2 < 2 ^ 32 := by
        rw [Int.tdiv_eq_ediv_of_nonneg (by omega)]
        omega
      exact hready.ok.write hready.room (by norm_num) ⟨by norm_num, by omega, hmid, hemitted⟩
        trivial rfl

/-- At the head of every round: the list is sound, and the book has not been crossed so far. -/
structure Inv (n : Nat) (f : BookFeed) : Prop where
  out : f.out.Ok
  feed : f.Ok (1001100 + 1000 * f.out.emitted)
  history : ∀ pre, pre <+: f.out.written → (liveAfter pre).Uncrossed
  length : f.out.written.length = f.out.emitted
  emitted_le : f.out.emitted ≤ n

theorem Inv.start (n : Nat) : Inv n {} := by
  have hfeed : Ok {} (1001100 + 1000 * ((0 : Nat) : Int)) :=
    ⟨by simp, by simp, by simp, by simp, by simp, fun ref o hlookup => by
      change (∅ : LiveOrders).lookup ref = some o at hlookup
      simp at hlookup⟩
  refine ⟨FeedWriter.Ok.empty, hfeed, fun pre hpre => ?_, rfl, Nat.zero_le n⟩
  rw [List.prefix_nil.mp hpre]
  exact hfeed.liveAfter_uncrossed

theorem Inv.advance {n : Nat} {f' : BookFeed} (h : Inv n f) (hlt : f.out.emitted < n)
    (hemitted : f.Emitted (1001100 + 1000 * f.out.emitted + 1000) f') {elapsed : Nat}
    (helapsed : elapsed ≤ 1000) :
    Inv n { f' with out := f'.out.advance elapsed } ∧
      (f'.out.advance elapsed).emitted = f.out.emitted + 1 := by
  obtain ⟨hok, hwrote⟩ := hemitted
  have hcount := hwrote.advance_emitted elapsed
  refine ⟨⟨hwrote.ok.advance helapsed, ?_, fun pre hpre => ?_,
    hwrote.advance_length h.length elapsed, ?_⟩, hcount⟩
  · have hraised : f'.Ok (1001100 + 1000 * (f'.out.advance elapsed).emitted) := by
      refine hok.mono ?_
      rw [hcount]
      push_cast
      omega
    exact ⟨hraised.ref_lt, hraised.px_le, hraised.bid_ge, hraised.ask_ge, hraised.uncrossed,
      hraised.listed⟩
  · obtain ⟨c, hwritten⟩ := hwrote.written
    change pre <+: f'.out.written at hpre
    rw [hwritten] at hpre
    rcases List.prefix_concat_iff.mp hpre with rfl | hpre
    · exact hwritten ▸ hok.liveAfter_uncrossed
    · exact h.history pre hpre
  · rw [hcount]
    exact hlt

theorem Inv.ready {n : Nat} (h : Inv n f) (hn : n ≤ 1000000) (hlt : f.out.emitted < n) :
    f.out.Ready := ⟨h.out, hlt.trans_le hn, h.length⟩

theorem always_seed {n : Nat} (hn : n ≤ 1000000) :
    Always (seed n) fun state => Inv n state.2 := by
  refine (always_loopWhile (fun state => Inv n state.2) (fun state => 20 - state.1) ?_ 21 (0, {})
    (Inv.start n) (by norm_num)).mono fun _ h => h.1
  rintro ⟨i, f⟩ (h : Inv n f) hcond
  obtain ⟨hi, hlt⟩ : i < 20 ∧ f.out.emitted < n := of_decide_eq_true hcond
  have hside : (if i % 2 = 1 then Side.sell else Side.buy).Real := by
    split_ifs
    · exact Or.inr rfl
    · exact Or.inl rfl
  refine always_bind (always_add h.feed (h.ready hn hlt) (by omega) (by omega) hside)
    fun f' hf' => always_pure ?_
  exact ⟨(h.advance hlt hf' (by norm_num)).1, by change 20 - (i + 1) < 20 - i; omega⟩

theorem always_step {n : Nat} (hn : n ≤ 1000000) (h : Inv n f) (hlt : f.out.emitted < n) :
    Always f.step fun f' => Inv n f' ∧ f'.out.emitted = f.out.emitted + 1 := by
  refine always_bind (always_below (by norm_num)) fun roll _ => ?_
  refine always_bind (always_emit h.feed (h.ready hn hlt) (by omega) (by omega) roll)
    fun f' hf' => ?_
  refine always_bind (always_below (by norm_num)) fun k hk => always_pure ?_
  exact h.advance hlt hf' (by omega : 1 + k ≤ 1000)

end BookFeed

theorem always_makeSyntheticBook {n : Nat} (hn : n ≤ 1000000) :
    Always (makeSyntheticBook n) fun t =>
      (t.Ok ∧ t.written.length = n) ∧ ∀ pre, pre <+: t.written → (liveAfter pre).Uncrossed := by
  refine always_bind (BookFeed.always_seed hn) fun ⟨_, f⟩ hf => ?_
  refine always_bind (always_loopWhile_count (BookFeed.Inv n) (fun _ h => h.emitted_le)
    (fun _ h hlt => BookFeed.always_step hn h hlt) hf) fun f' hf' => always_pure ?_
  obtain ⟨hinv, hcount⟩ := hf'
  exact ⟨⟨hinv.out, hinv.length.trans hcount⟩, hinv.history⟩

/-! ### What the feeds promise -/

/-- Every feed decodes to the values its generator chose and keeps its books consistent, whatever
the random source returns. -/
theorem synthetic_feeds_lossless (nMessages : Nat) (hn : nMessages ≤ 1000000) (nSymbols : Nat)
    (hsymbols : nSymbols ≤ 65535) (rng : Stream' UInt32) :
    LosslessFeed (makeSyntheticItch nMessages rng).1.written
        (makeSyntheticItch nMessages rng).1.output nMessages ∧
      LosslessFeed (makeSyntheticMulti nMessages nSymbols rng).1.written
        (makeSyntheticMulti nMessages nSymbols rng).1.output nMessages ∧
      LosslessFeed (makeSyntheticBook nMessages rng).1.written
        (makeSyntheticBook nMessages rng).1.output nMessages := by
  obtain ⟨hitch, hitchLength⟩ := always_makeSyntheticItch hn rng
  obtain ⟨hmulti, hmultiLength⟩ := always_makeSyntheticMulti hn hsymbols rng
  obtain ⟨⟨hbook, hbookLength⟩, -⟩ := always_makeSyntheticBook hn rng
  exact ⟨hitch.losslessFeed hitchLength hn, hmulti.losslessFeed hmultiLength hn,
    hbook.losslessFeed hbookLength hn⟩

theorem synthetic_feeds_lossless_small :
    LosslessFeed (makeSyntheticMulti 30 7 fun k => UInt32.ofNat (k * k)).1.written
      (makeSyntheticMulti 30 7 fun k => UInt32.ofNat (k * k)).1.output 30 :=
  (synthetic_feeds_lossless 30 (by norm_num) 7 (by norm_num) fun k => UInt32.ofNat (k * k)).2.1

/-- Replayed into an empty book, the book feed leaves the best bid below the best ask after every
message. -/
theorem synthetic_book_uncrossed (nMessages : Nat) (hn : nMessages ≤ 1000000)
    (rng : Stream' UInt32) :
    ∃ messages, forEachFramedMessage (makeSyntheticBook nMessages rng).1.output =
        some (messages, (makeSyntheticBook nMessages rng).1.output.length) ∧
      messages.length = nMessages ∧
      ∀ pre, pre <+: messages → ∀ bid ask,
        (pre.foldl BasicOrderBook.apply BasicOrderBook.empty : OrderBook).bestBid = some bid →
        (pre.foldl BasicOrderBook.apply BasicOrderBook.empty : OrderBook).bestAsk = some ask →
        bid.1 < ask.1 := by
  obtain ⟨⟨hok, hlength⟩, huncrossed⟩ := always_makeSyntheticBook hn rng
  refine ⟨_, FeedWriter.forEachFramedMessage_output hok.fits, by rw [List.length_map, hlength], ?_⟩
  rintro pre hpre ⟨bid, bidQty⟩ ⟨ask, askQty⟩ hbid hask
  obtain ⟨written, hwritten, rfl⟩ := List.prefix_map_iff.mp hpre
  have hfresh := hok.freshFeed (hlength.trans_le hn)
  have hanswers := hfresh.answersAs _ (hpre.filterMap Message.bookOp?)
  rw [foldl_apply_eq_run] at hbid hask
  exact huncrossed written hwritten bid ask ((hanswers.bestBid_eq_some bid bidQty).mp hbid).1.1
    ((hanswers.bestAsk_eq_some ask askQty).mp hask).1.1

theorem synthetic_book_uncrossed_small :
    ∃ messages, forEachFramedMessage (makeSyntheticBook 25 fun k => UInt32.ofNat (k * k)).1.output =
        some (messages, (makeSyntheticBook 25 fun k => UInt32.ofNat (k * k)).1.output.length) ∧
      messages.length = 25 ∧
      ∀ pre, pre <+: messages → ∀ bid ask,
        (pre.foldl BasicOrderBook.apply BasicOrderBook.empty : OrderBook).bestBid = some bid →
        (pre.foldl BasicOrderBook.apply BasicOrderBook.empty : OrderBook).bestAsk = some ask →
        bid.1 < ask.1 :=
  synthetic_book_uncrossed 25 (by norm_num) fun k => UInt32.ofNat (k * k)

end HftOrderbook
