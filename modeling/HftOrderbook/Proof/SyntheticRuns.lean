import HftOrderbook.Proof.SyntheticFeeds

/-!
# The stress feeds along their runs

The single-symbol and the many-symbol generator differ in where a live pool and a mid price are
kept. Both move the mid by a cent at most, price orders within fifty cents of it, and name only
references they have handed out.
-/

namespace HftOrderbook

open RandomSource

/-! ### Draws -/

theorem always_drawSide : Always drawSide Side.Real := by
  refine always_bind (always_below (by norm_num)) fun k _ => always_pure ?_
  split_ifs
  · exact Or.inl rfl
  · exact Or.inr rfl

theorem always_walkMid {mid top : Int} (hlow : 1000 ≤ mid) (hhigh : mid ≤ top) :
    Always (walkMid mid) fun mid' => 1000 ≤ mid' ∧ mid' ≤ top + 100 := by
  refine always_bind (always_below (by norm_num)) fun k _ => ?_
  split_ifs
  · refine always_bind (always_below (by norm_num)) fun up _ => always_pure ?_
    split_ifs <;> omega
  · exact always_pure (by omega)

theorem always_addPx {mid top : Int} (side : Side) (hlow : 1000 ≤ mid) (hhigh : mid ≤ top) :
    Always (addPx mid side) fun px => 0 ≤ px ∧ px ≤ top + 5000 := by
  refine always_bind (always_below (by norm_num)) fun k hk => always_pure ?_
  split_ifs <;> omega

theorem mem_of_mem_swapPop {α : Type} {v : List α} {i : Nat} {a : α} (h : a ∈ swapPop v i) :
    a ∈ v := by
  unfold swapPop at h
  cases hlast : v.getLast? with
  | none => simpa [hlast] using h
  | some back =>
      simp only [hlast] at h
      rcases List.mem_or_eq_of_mem_set (List.dropLast_subset _ h) with hmem | rfl
      · exact hmem
      · exact List.mem_of_getLast? hlast

/-- At the head of a round: one message written for each counted, and room for one more. -/
structure FeedWriter.Ready (t : FeedWriter) : Prop where
  ok : t.Ok
  room : t.emitted < 1000000
  length : t.written.length = t.emitted

theorem FeedWriter.Ready.ref_lt {t : FeedWriter} (h : t.Ready) {ref : Nat}
    (href : ref ≤ t.nextRef) : ref < 2 ^ 64 := by
  have hnext := h.ok.nextRef_le
  have hlength := h.length
  have hroom := h.room
  omega

theorem getD_mem_of_lt {α : Type} {v : List α} {i : Nat} (hi : i < v.length) (d : α) :
    v.getD i d ∈ v := by
  rw [List.getD, List.getElem?_eq_getElem hi]
  exact List.getElem_mem hi

/-- A live pool names references handed out before, and its mid has not walked past `top`. -/
structure PoolOk (nextRef : Nat) (top : Int) (live : List (Nat × Side)) (mid : Int) : Prop where
  live : ∀ e ∈ live, e.1 < nextRef
  mid_ge : 1000 ≤ mid
  mid_le : mid ≤ top

namespace PoolOk

variable {nextRef : Nat} {top mid : Int} {live : List (Nat × Side)}

theorem mono {nextRef' : Nat} {top' : Int} (h : PoolOk nextRef top live mid)
    (href : nextRef ≤ nextRef') (htop : top ≤ top') : PoolOk nextRef' top' live mid :=
  ⟨fun e he => (h.live e he).trans_le href, h.mid_ge, h.mid_le.trans htop⟩

theorem append (h : PoolOk nextRef top live mid) (side : Side) :
    PoolOk (nextRef + 1) top (live ++ [(nextRef, side)]) mid := by
  refine ⟨fun e he => ?_, h.mid_ge, h.mid_le⟩
  rcases List.mem_append.mp he with he | he
  · exact (h.live e he).trans (Nat.lt_succ_self _)
  · rw [List.mem_singleton.mp he]
    exact Nat.lt_succ_self _

theorem set (h : PoolOk nextRef top live mid) (i : Nat) (side : Side) :
    PoolOk (nextRef + 1) top (live.set i (nextRef, side)) mid := by
  refine ⟨fun e he => ?_, h.mid_ge, h.mid_le⟩
  rcases List.mem_or_eq_of_mem_set he with he | rfl
  · exact (h.live e he).trans (Nat.lt_succ_self _)
  · exact Nat.lt_succ_self _

theorem swapPop (h : PoolOk nextRef top live mid) (i : Nat) :
    PoolOk nextRef top (swapPop live i) mid :=
  ⟨fun e he => h.live e (mem_of_mem_swapPop he), h.mid_ge, h.mid_le⟩

theorem ref_lt (h : PoolOk nextRef top live mid) {i : Nat} (hi : i < live.length)
    (d : Nat × Side) : (live.getD i d).1 < nextRef :=
  h.live _ (getD_mem_of_lt hi d)

end PoolOk

/-! ### One symbol -/

namespace ItchFeed

def Ok (f : ItchFeed) (top : Int) : Prop := PoolOk f.out.nextRef top f.live f.mid

variable {f : ItchFeed} {top : Int}

def Emitted (f : ItchFeed) (top : Int) (f' : ItchFeed) : Prop := f'.Ok top ∧ f.out.Wrote f'.out

theorem always_emitAdd (h : f.Ok top) (hready : f.out.Ready) (htop : top ≤ 2 ^ 31) :
    Always f.emitAdd (f.Emitted top) := by
  refine always_bind always_drawSide fun side hside => ?_
  refine always_bind (always_below (by norm_num)) fun k hk => ?_
  refine always_bind (always_addPx side h.mid_ge h.mid_le) fun px hpx => always_pure ?_
  exact ⟨h.append side, hready.ok.writeNew hready.room (by norm_num)
    ⟨hready.ref_lt le_rfl, by omega, by omega, by omega⟩ ⟨hside, by omega⟩ rfl⟩

theorem always_pick (h : f.Ok top) (hpool : 0 < f.live.length) :
    Always f.pick fun picked => picked.2.1 < f.out.nextRef := by
  refine always_bind (always_below hpool) fun i hi => always_pure ?_
  exact h.ref_lt hi _

theorem always_emit (h : f.Ok top) (hready : f.out.Ready) (htop : top ≤ 2 ^ 31) (roll : Nat) :
    Always (f.emit roll) (f.Emitted top) := by
  unfold emit
  by_cases hadd : f.live.length < 8 ∨ roll < 50
  · rw [if_pos hadd]
    exact always_emitAdd h hready htop
  rw [if_neg hadd]
  have hpool : 0 < f.live.length := by omega
  have hemitted : f.out.emitted < 2 ^ 64 := hready.room.trans (by norm_num)
  split_ifs
  · refine always_bind (always_pick h hpool) fun ⟨i, ref, side⟩ href => ?_
    refine always_bind (always_below (by norm_num)) fun k hk => always_pure ?_
    exact ⟨h, hready.ok.write hready.room (by norm_num)
      ⟨hready.ref_lt href.le, by omega, hemitted⟩ trivial rfl⟩
  · refine always_bind (always_pick h hpool) fun ⟨i, ref, side⟩ href => ?_
    refine always_bind (always_below (by norm_num)) fun k hk => always_pure ?_
    exact ⟨h, hready.ok.write hready.room (by norm_num)
      ⟨hready.ref_lt href.le, by omega⟩ trivial rfl⟩
  · refine always_bind (always_pick h hpool) fun ⟨i, ref, side⟩ href => always_pure ?_
    exact ⟨h.swapPop i,
      hready.ok.write hready.room (by norm_num) (hready.ref_lt href.le) trivial rfl⟩
  · refine always_bind (always_pick h hpool) fun ⟨i, ref, side⟩ href => ?_
    refine always_bind (always_below (by norm_num)) fun k hk => ?_
    refine always_bind (always_addPx side h.mid_ge h.mid_le) fun px hpx => always_pure ?_
    have hmodest : 10 + k ≤ 2549 := by omega
    exact ⟨h.set i side, hready.ok.writeNew hready.room (by norm_num)
      ⟨hready.ref_lt href.le, hready.ref_lt le_rfl, by omega, by omega, by omega⟩ hmodest rfl⟩
  · refine always_bind always_drawSide fun side _ => ?_
    refine always_bind (always_below (by norm_num)) fun k hk => always_pure ?_
    have hlow := h.mid_ge
    have hhigh := h.mid_le
    exact ⟨h, hready.ok.write hready.room (by norm_num)
      ⟨by norm_num, by omega, ⟨by omega, by omega⟩, hemitted⟩ trivial rfl⟩

/-- What holds at the head of every round of the loops, after `n` messages at most. -/
structure Inv (n : Nat) (f : ItchFeed) : Prop where
  out : f.out.Ok
  feed : f.Ok (1000000 + 100 * f.out.emitted)
  length : f.out.written.length = f.out.emitted
  emitted_le : f.out.emitted ≤ n

theorem Inv.start (n : Nat) : Inv n {} :=
  ⟨FeedWriter.Ok.empty, ⟨by simp, by norm_num, by norm_num⟩, rfl, Nat.zero_le n⟩

theorem Inv.ready {n : Nat} (h : Inv n f) (hn : n ≤ 1000000) (hlt : f.out.emitted < n) :
    f.out.Ready := ⟨h.out, hlt.trans_le hn, h.length⟩

theorem Inv.advance {n : Nat} {f' : ItchFeed} (hlt : f.out.emitted < n)
    (hlength : f.out.written.length = f.out.emitted)
    (hemitted : f.Emitted (1000000 + 100 * (f.out.emitted + 1)) f') {elapsed : Nat}
    (helapsed : elapsed ≤ 1000) :
    Inv n { f' with out := f'.out.advance elapsed } ∧
      (f'.out.advance elapsed).emitted = f.out.emitted + 1 := by
  obtain ⟨hok, hwrote⟩ := hemitted
  have hcount := hwrote.advance_emitted elapsed
  refine ⟨⟨hwrote.ok.advance helapsed, hok.mono le_rfl ?_, hwrote.advance_length hlength elapsed,
    ?_⟩, hcount⟩
  · rw [hcount]
    exact le_rfl
  · rw [hcount]
    exact hlt

theorem always_seed {n : Nat} (hn : n ≤ 1000000) :
    Always (seed n) fun state => Inv n state.2 := by
  refine (always_loopWhile (fun state => Inv n state.2) (fun state => 16 - state.1) ?_ 17 (0, {})
    (Inv.start n) (by norm_num)).mono fun _ h => h.1
  rintro ⟨i, f⟩ (h : Inv n f) hcond
  obtain ⟨hi, hlt⟩ : i < 16 ∧ f.out.emitted < n := of_decide_eq_true hcond
  have hready := h.ready hn hlt
  have hfeed : f.Ok (1000000 + 100 * (f.out.emitted + 1)) := h.feed.mono le_rfl (by omega)
  refine always_bind (always_emitAdd hfeed hready (by omega)) fun f' hf' => always_pure ?_
  exact ⟨(Inv.advance hlt h.length hf' (by norm_num)).1, by change 16 - (i + 1) < 16 - i; omega⟩

theorem always_step {n : Nat} (hn : n ≤ 1000000) (h : Inv n f) (hlt : f.out.emitted < n) :
    Always f.step fun f' => Inv n f' ∧ f'.out.emitted = f.out.emitted + 1 := by
  refine always_bind (always_walkMid h.feed.mid_ge h.feed.mid_le) fun mid hmid => ?_
  refine always_bind (always_below (by norm_num)) fun roll _ => ?_
  have hready : ({ f with mid } : ItchFeed).out.Ready := h.ready hn hlt
  have hfeed : ({ f with mid } : ItchFeed).Ok (1000000 + 100 * (f.out.emitted + 1)) :=
    ⟨h.feed.live, hmid.1, hmid.2.trans (by omega)⟩
  refine always_bind (always_emit hfeed hready (by omega) roll) fun f' hf' => ?_
  refine always_bind (always_below (by norm_num)) fun k hk => always_pure ?_
  exact Inv.advance hlt h.length hf' (by omega : 1 + k ≤ 1000)

end ItchFeed

theorem always_makeSyntheticItch {n : Nat} (hn : n ≤ 1000000) :
    Always (makeSyntheticItch n) fun t => t.Ok ∧ t.written.length = n := by
  refine always_bind (ItchFeed.always_seed hn) fun ⟨_, f⟩ hf => ?_
  refine always_bind (always_loopWhile_count (ItchFeed.Inv n) (fun _ h => h.emitted_le)
    (fun _ h hlt => ItchFeed.always_step hn h hlt) hf) fun f' hf' => always_pure ?_
  obtain ⟨hinv, hcount⟩ := hf'
  exact ⟨hinv.out, hinv.length.trans hcount⟩

/-! ### Many symbols -/

namespace MultiFeed

def SymOk (nextRef : Nat) (top : Int) (sym : Sym) : Prop := PoolOk nextRef top sym.live sym.mid

variable {nSymbols n : Nat}

theorem always_emit {t : FeedWriter} {sym : Sym} {top : Int} {locate : Nat}
    (h : SymOk t.nextRef top sym) (hready : t.Ready) (hlocate : locate < 2 ^ 16)
    (htop : top ≤ 2 ^ 31) (roll : Nat) :
    Always (emit t locate sym roll) fun next =>
      t.Wrote next.1 ∧ SymOk next.1.nextRef top next.2 := by
  unfold emit
  by_cases hadd : sym.live.length < 4 ∨ roll < 55
  · rw [if_pos hadd]
    refine always_bind always_drawSide fun side hside => ?_
    refine always_bind (always_below (by norm_num)) fun k hk => ?_
    refine always_bind (always_addPx side h.mid_ge h.mid_le) fun px hpx => always_pure ?_
    exact ⟨hready.ok.writeNew hready.room hlocate
      ⟨hready.ref_lt le_rfl, by omega, by omega, by omega⟩ ⟨hside, by omega⟩ rfl, h.append side⟩
  rw [if_neg hadd]
  have hpool : 0 < sym.live.length := by omega
  split_ifs
  · refine always_bind (always_below hpool) fun i hi => ?_
    refine always_bind (always_below (by norm_num)) fun k hk => always_pure ?_
    exact ⟨hready.ok.write hready.room hlocate ⟨hready.ref_lt (h.ref_lt hi _).le, by omega,
      hready.room.trans (by norm_num)⟩ trivial rfl, h⟩
  · refine always_bind (always_below hpool) fun i hi => ?_
    refine always_bind (always_below (by norm_num)) fun k hk => always_pure ?_
    exact ⟨hready.ok.write hready.room hlocate ⟨hready.ref_lt (h.ref_lt hi _).le, by omega⟩
      trivial rfl, h⟩
  · refine always_bind (always_below hpool) fun i hi => always_pure ?_
    exact ⟨hready.ok.write hready.room hlocate (hready.ref_lt (h.ref_lt hi _).le) trivial rfl,
      h.swapPop i⟩

structure Inv (nSymbols n : Nat) (f : MultiFeed) : Prop where
  out : f.out.Ok
  symCount : f.syms.length = nSymbols
  syms : ∀ sym ∈ f.syms, SymOk f.out.nextRef (330000000 + 100 * f.out.emitted) sym
  length : f.out.written.length = f.out.emitted
  emitted_le : f.out.emitted ≤ n

theorem Inv.start (hsymbols : nSymbols ≤ 65535) (n : Nat) : Inv nSymbols n (start nSymbols) := by
  refine ⟨FeedWriter.Ok.empty, by simp [MultiFeed.start], fun sym hsym => ?_, rfl, Nat.zero_le n⟩
  obtain ⟨s, hs, rfl⟩ := List.mem_map.mp hsym
  have hlt := List.mem_range.mp hs
  refine ⟨by simp, ?_, ?_⟩
  · change (1000 : Int) ≤ 1000000 + (s : Int) * 5000
    omega
  · change 1000000 + (s : Int) * 5000 ≤ 330000000 + 100 * ((0 : Nat) : Int)
    omega

/-- One message written and the symbol it was drawn for put back. -/
theorem Inv.advance {f : MultiFeed} {t : FeedWriter} {syms : List Sym} {elapsed : Nat}
    (h : Inv nSymbols n f) (hlt : f.out.emitted < n) (hwrote : f.out.Wrote t)
    (helapsed : elapsed ≤ 1000) (hcount : syms.length = nSymbols)
    (hsyms : ∀ sym ∈ syms, sym ∈ f.syms ∨
      SymOk t.nextRef (330000000 + 100 * (f.out.emitted + 1)) sym) :
    Inv nSymbols n { out := t.advance elapsed, syms } ∧
      (t.advance elapsed).emitted = f.out.emitted + 1 := by
  have hemitted := hwrote.advance_emitted elapsed
  refine ⟨⟨hwrote.ok.advance helapsed, hcount, fun sym hsym => ?_,
    hwrote.advance_length h.length elapsed, ?_⟩, hemitted⟩
  · rw [hemitted, Nat.cast_add, Nat.cast_one]
    rcases hsyms sym hsym with hmem | hok
    · exact (h.syms sym hmem).mono hwrote.nextRef (by omega)
    · exact hok
  · rw [hemitted]
    exact hlt

theorem always_directories (hsymbols : nSymbols ≤ 65535) (hn : n ≤ 1000000) :
    Always (directories nSymbols n) fun state => Inv nSymbols n state.2 := by
  refine (always_loopWhile (fun state => Inv nSymbols n state.2) (fun state => nSymbols - state.1)
    ?_ (nSymbols + 1) (0, start nSymbols) (Inv.start hsymbols n) (by omega)).mono fun _ h => h.1
  rintro ⟨s, f⟩ (h : Inv nSymbols n f) hcond
  obtain ⟨hs, hlt⟩ : s < nSymbols ∧ f.out.emitted < n := of_decide_eq_true hcond
  refine always_pure ⟨?_, by change nSymbols - (s + 1) < nSymbols - s; omega⟩
  have hwrote : f.out.Wrote (f.out.write (s + 1) (.directory (symbolName s))) :=
    h.out.write (hlt.trans_le hn) (by omega) trivial trivial rfl
  exact (h.advance hlt hwrote (Nat.zero_le _) h.symCount fun sym hsym => Or.inl hsym).1

theorem always_step (hpos : 0 < nSymbols) (hsymbols : nSymbols ≤ 65535) (hn : n ≤ 1000000)
    {f : MultiFeed} (h : Inv nSymbols n f) (hlt : f.out.emitted < n) :
    Always (step nSymbols f) fun f' =>
      Inv nSymbols n f' ∧ f'.out.emitted = f.out.emitted + 1 := by
  refine always_bind (always_below hpos) fun s hs => ?_
  have hsym := h.syms _ (getD_mem_of_lt (h.symCount ▸ hs) { mid := 0 })
  refine always_bind (always_walkMid hsym.mid_ge hsym.mid_le) fun mid hmid => ?_
  refine always_bind (always_below (by norm_num)) fun roll _ => ?_
  have hready : f.out.Ready := ⟨h.out, hlt.trans_le hn, h.length⟩
  have hmoved : SymOk f.out.nextRef (330000000 + 100 * (f.out.emitted + 1))
      { f.syms.getD s { mid := 0 } with mid } :=
    ⟨hsym.live, hmid.1, hmid.2.trans (by omega)⟩
  refine always_bind (always_emit hmoved hready (by omega) (by omega) roll) fun ⟨t, sym⟩ hnext => ?_
  refine always_bind (always_below (by norm_num)) fun k hk => always_pure ?_
  refine h.advance hlt hnext.1 (by omega : 1 + k ≤ 1000)
    ((List.length_set ..).trans h.symCount) fun sym' hmem => ?_
  rcases List.mem_or_eq_of_mem_set hmem with hmem | rfl
  · exact Or.inl hmem
  · exact Or.inr hnext.2

end MultiFeed

theorem always_makeSyntheticMulti {n nSymbols : Nat} (hn : n ≤ 1000000)
    (hsymbols : nSymbols ≤ 65535) :
    Always (makeSyntheticMulti n nSymbols) fun t => t.Ok ∧ t.written.length = n := by
  unfold makeSyntheticMulti
  set count := if nSymbols < 1 then 1 else nSymbols with hcount
  have hpos : 0 < count := by
    rw [hcount]
    split_ifs <;> omega
  have hle : count ≤ 65535 := by
    rw [hcount]
    split_ifs <;> omega
  refine always_bind (MultiFeed.always_directories hle hn) fun ⟨_, f⟩ hf => ?_
  refine always_bind (always_loopWhile_count (MultiFeed.Inv count n) (fun _ h => h.emitted_le)
    (fun _ h hlt => MultiFeed.always_step hpos hle hn h hlt) hf) fun f' hf' => always_pure ?_
  obtain ⟨hinv, hstop⟩ := hf'
  exact ⟨hinv.out, hinv.length.trans hstop⟩

end HftOrderbook
