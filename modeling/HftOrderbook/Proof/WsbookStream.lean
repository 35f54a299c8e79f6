import HftOrderbook.Feed.Wsbook

/-!
# Snapshots sample the replay

What a viewer is sent are the states of the plain replay after every so many records, for which
there is a book to show, in their order and numbered from zero. Where every record decodes, there
are never more of them than were asked for, so that they reach to the end of the stream.
-/

namespace HftOrderbook

open LengthPrefix

variable {F : Type} [TapeFloat F]

/-- The books and the tape after some records. -/
def viewedAfter (bodies : List (List UInt8)) : Viewed F :=
  bodies.foldl (fun v body => v.onMessage (decoded body)) .start

/-- Everything up to the first that is refused, and that one. -/
def sendWhile {α : Type} (emit : α → Bool) : List α → List α
  | [] => []
  | text :: texts => text :: if emit text then sendWhile emit texts else []

section Samples

variable (focus : Focus) (every : Nat)

/-- What is shown from a state on, when so many records have been applied. -/
def samplesFrom : Nat → Viewed F → List (List UInt8) → List (List UInt8 × OrderBook × TradeTape F)
  | _, _, [] => []
  | applied, v, body :: bodies =>
      let v := v.onMessage (decoded body)
      (if (applied + 1) % every = 0 then (v.shown focus).toList else []) ++
        samplesFrom (applied + 1) v bodies

theorem samplesFrom_append (bodies later : List (List UInt8)) (applied : Nat) (v : Viewed F) :
    samplesFrom focus every applied v (bodies ++ later) =
      samplesFrom focus every applied v bodies ++
        samplesFrom focus every (applied + bodies.length)
          (bodies.foldl (fun v body => v.onMessage (decoded body)) v) later := by
  induction bodies generalizing applied v with
  | nil => rfl
  | cons body bodies ih =>
      rw [List.cons_append, samplesFrom, ih, samplesFrom, List.append_assoc, List.length_cons,
        List.foldl_cons, Nat.add_comm bodies.length, Nat.add_assoc]

/-- The states shown are those after the multiples of `every`. -/
theorem samplesFrom_eq (bodies : List (List UInt8)) :
    samplesFrom (F := F) focus every 0 .start bodies =
      (List.range (bodies.length / every)).filterMap fun k =>
        (viewedAfter (bodies.take ((k + 1) * every))).shown focus := by
  induction bodies using List.reverseRecOn with
  | nil =>
      rw [List.length_nil, Nat.zero_div]
      rfl
  | append_singleton bodies body ih =>
      have hbefore : ∀ k ∈ List.range (bodies.length / every),
          ((viewedAfter ((bodies ++ [body]).take ((k + 1) * every)) : Viewed F).shown focus) =
            (viewedAfter (bodies.take ((k + 1) * every))).shown focus := by
        intro k hk
        have hle : (k + 1) * every ≤ bodies.length :=
          (Nat.mul_le_mul_right every (List.mem_range.mp hk)).trans (Nat.div_mul_le_self _ _)
        rw [List.take_append_of_le_length hle]
      have hlast : viewedAfter (F := F) (bodies ++ [body]) =
          (viewedAfter bodies).onMessage (decoded body) := by
        rw [viewedAfter, List.foldl_append]
        rfl
      rw [samplesFrom_append, ih, Nat.zero_add, List.length_append, List.length_singleton,
        Nat.succ_div]
      change _ ++ ((if (bodies.length + 1) % every = 0 then
        (((viewedAfter bodies).onMessage (decoded body)).shown focus).toList else []) ++ []) = _
      rw [← hlast, List.append_nil]
      by_cases hevery : every ∣ bodies.length + 1
      · have hwhole : (bodies.length / every + 1) * every = (bodies ++ [body]).length := by
          rw [← Nat.succ_div_of_dvd hevery, Nat.div_mul_cancel hevery, List.length_append]
          rfl
        rw [if_pos (Nat.mod_eq_zero_of_dvd hevery), if_pos hevery, List.range_succ,
          List.filterMap_append, List.filterMap_congr hbefore, List.filterMap_cons, hwhole,
          List.take_length]
        cases (viewedAfter (F := F) (bodies ++ [body])).shown focus <;> rfl
      · rw [if_neg fun hmod => hevery (Nat.dvd_of_mod_eq_zero hmod), if_neg hevery,
          List.append_nil, Nat.add_zero, List.filterMap_congr hbefore]

end Samples

section Walk

variable {α : Type} (focus : Focus) (render : List UInt8 × OrderBook × TradeTape F → Nat → α)
  (emit : α → Bool) (every target : Nat)

/-- The texts of some snapshots, numbered from `sent` on. -/
def textsFrom (sent : Nat) (shown : List (List UInt8 × OrderBook × TradeTape F)) : List α :=
  (shown.zipIdx sent).map fun e => render e.1 e.2

theorem streamFrom_encodeAll {bodies : List (List UInt8)} {rest : List UInt8}
    (hbodies : ∀ body ∈ bodies, Body body) (hrest : next rest = none) :
    ∀ (pre : List UInt8) (fuel applied sent : Nat) (v : Viewed F), bodies.length < fuel →
      streamFrom focus render emit (pre ++ (encodeAll bodies ++ rest)) every target fuel pre.length
          applied sent v =
        some (sendWhile emit (textsFrom render sent
          ((samplesFrom focus every applied v bodies).take (target - sent)))) := by
  induction bodies with
  | nil =>
      intro pre fuel applied sent v hfuel
      obtain ⟨fuel, rfl⟩ : ∃ n, fuel = n + 1 := ⟨fuel - 1, by simp at hfuel; omega⟩
      change streamFrom _ _ _ (pre ++ rest) _ _ (fuel + 1) pre.length _ _ _ =
        some (sendWhile emit (textsFrom render sent (([] : List _).take _)))
      rw [List.take_nil]
      unfold streamFrom
      rcases residue_cases pre hrest with hshort | ⟨n, hlength, hstop⟩
      · rw [if_neg (by omega)]
        rfl
      · by_cases hmore : pre.length + 2 ≤ (pre ++ rest).length ∧ sent < target
        · rw [if_pos hmore, hlength]
          simp only [Option.bind_eq_bind, Option.bind_some, if_pos hstop]
          rfl
        · rw [if_neg hmore]
          rfl
  | cons body bodies ih =>
      intro pre fuel applied sent v hfuel
      obtain ⟨fuel, rfl⟩ : ∃ n, fuel = n + 1 := ⟨fuel - 1, by simp at hfuel; omega⟩
      have hbody := hbodies body List.mem_cons_self
      have hsplit : encodeAll (body :: bodies) ++ rest =
          encode body ++ (encodeAll bodies ++ rest) := by
        rw [encodeAll_cons, List.append_assoc]
      have hpos : body.length ≠ 0 := fun hzero => hbody.1 (List.length_eq_zero_iff.mp hzero)
      have hfits := le_length_append_encode body pre (encodeAll bodies ++ rest)
      have hstop : ¬ (body.length = 0 ∨ (pre ++ (encode body ++ (encodeAll bodies ++ rest))).length <
          pre.length + 2 + body.length) := by
        rw [not_or]
        exact ⟨hpos, not_lt.mpr hfits⟩
      -- the rest of the walk goes over the remaining records, behind a longer prefix
      have hwalk := fun sent v => ih (fun body' h => hbodies body' (List.mem_cons_of_mem _ h))
        (pre ++ encode body) fuel (applied + 1) sent v (by simpa using hfuel)
      simp only [List.append_assoc, List.length_append, length_encode] at hwalk
      have hoff : pre.length + (body.length + 2) = pre.length + 2 + body.length := by omega
      rw [hoff] at hwalk
      rw [hsplit]
      unfold streamFrom
      by_cases hsent : sent < target
      · rw [if_pos ⟨by omega, hsent⟩, lengthAt_encode hbody]
        simp only [Option.bind_eq_bind, Option.bind_some, if_neg hstop, slice_encode, decode_eq_some,
          hwalk, samplesFrom]
        by_cases hevery : (applied + 1) % every = 0
        · rw [if_pos hevery, if_pos hevery]
          cases hshown : (v.onMessage (decoded body)).shown focus with
          | none => rfl
          | some shown =>
              obtain ⟨room, hroom⟩ : ∃ n, target - sent = n + 1 := ⟨target - sent - 1, by omega⟩
              have hnext : target - (sent + 1) = room := by omega
              rw [hroom, hnext]
              change (if emit (render shown sent) = true then some (render shown sent :: _)
                else some [render shown sent]) =
                some (render shown sent :: if emit (render shown sent) = true then _ else [])
              split_ifs
              · rfl
              · rfl
        · rw [if_neg hevery, if_neg hevery]
          rfl
      · have hnone : target - sent = 0 := by omega
        rw [if_neg fun hand => hsent hand.2, hnone, List.take_zero]
        rfl

end Walk

theorem viewedAfter_book (bodies : List (List UInt8)) :
    (viewedAfter bodies : Viewed F).book = (bodies.filterMap decoded).foldl BookSet.apply {} := by
  induction bodies using List.reverseRecOn with
  | nil => rfl
  | append_singleton bodies body ih =>
      rw [viewedAfter, List.foldl_append, List.filterMap_append, List.foldl_append, ← ih,
        List.filterMap_cons]
      change ((viewedAfter bodies).onMessage (decoded body)).book = _
      cases decoded body <;> rfl

/-- Among the records of a stream there are no more sampling points than were asked for. -/
theorem div_snapshotEvery_le {data : List UInt8}
    (hdecodes : ∀ body ∈ frames data, (decoded body).isSome) (target : Nat) :
    (frames data).length / snapshotEvery data target ≤ target := by
  have htotal : (framedMessages data).length = (frames data).length := by
    rw [framedMessages_eq, List.filterMap_length_eq_length]
    exact hdecodes
  have hlt := Nat.lt_mul_div_succ (frames data).length (Nat.succ_pos target)
  rw [snapshotEvery, htotal]
  rw [Nat.mul_comm] at hlt
  exact Nat.lt_succ_iff.mp ((Nat.div_lt_iff_lt_mul (Nat.succ_pos _)).mpr (by
    rw [Nat.mul_comm]
    exact hlt))

/-- `stream` hands out the states of the plain replay after the multiples of `every`, numbered from
zero and up to the number asked for; where every record decodes it does not have to cut any off. -/
theorem stream_samples_replay {α : Type} (focus : Focus)
    (render : List UInt8 × OrderBook × TradeTape F → Nat → α) (emit : α → Bool) (data : List UInt8)
    (target : Nat) :
    let every := snapshotEvery data target
    let shown := (List.range ((frames data).length / every)).filterMap fun k =>
      (viewedAfter ((frames data).take ((k + 1) * every)) : Viewed F).shown focus
    stream focus render emit data target =
        some (sendWhile emit (textsFrom render 0 (shown.take target))) ∧
      ((∀ body ∈ frames data, (decoded body).isSome) → shown.length ≤ target) ∧
      ∀ n, (viewedAfter ((frames data).take n) : Viewed F).book =
        (((frames data).take n).filterMap decoded).foldl BookSet.apply {} := by
  intro every shown
  refine ⟨?_, fun hdecodes => ?_, fun n => viewedAfter_book _⟩
  · obtain ⟨bodies, rest, hbodies, hrest, hdata⟩ := exists_records data
    have hframes : frames data = bodies := by rw [hdata, frames_encodeAll hbodies hrest]
    have hfuel : bodies.length < data.length + 1 := by
      have hle := length_le_encodeAll bodies
      rw [hdata, List.length_append]
      omega
    have hwalk := streamFrom_encodeAll focus render emit every target hbodies hrest []
      (data.length + 1) 0 0 .start hfuel
    rw [List.nil_append, ← hdata, samplesFrom_eq, ← hframes] at hwalk
    exact hwalk
  · exact ((List.length_filterMap_le _ _).trans (List.length_range.le)).trans
      (div_snapshotEvery_le hdecodes target)

/-- An Add of ten shares at 100 for the instrument with locate 1. -/
def addBody (ref : UInt8) : List UInt8 :=
  [0x41, 0, 1, 0, 0, 0, 0, 0, 0, 0, 1, 0, 0, 0, 0, 0, 0, 0, ref, 0x42, 0, 0, 0, 10,
    0x41, 0x42, 0x43, 0x20, 0x20, 0x20, 0x20, 0x20, 0, 0, 0, 100]

/-- Three snapshots are asked for, and there are two records to be shown. -/
theorem stream_samples_replay_adds :
    let data := encodeAll [addBody 5, addBody 6]
    let every := snapshotEvery data 3
    stream (F := ℚ) ⟨[], fun _ => []⟩ (fun _ n => n) (fun _ => true) data 3 = some [0, 1] ∧
      (∀ body ∈ frames data, (decoded body).isSome) ∧
      ((List.range ((frames data).length / every)).filterMap fun k =>
        (viewedAfter ((frames data).take ((k + 1) * every)) : Viewed ℚ).shown
          ⟨[], fun _ => []⟩).length ≤ 3 := by
  intro data every
  have hbodies : ∀ body ∈ [addBody 5, addBody 6], Body body := by
    intro body hbody
    rcases List.mem_pair.mp hbody with rfl | rfl
    · exact ⟨List.cons_ne_nil _ _, by decide⟩
    · exact ⟨List.cons_ne_nil _ _, by decide⟩
  have hframes : frames data = [addBody 5, addBody 6] := by
    have hall := frames_encodeAll hbodies (rfl : next [] = none)
    rwa [List.append_nil] at hall
  have hdecodes : ∀ body ∈ frames data, (decoded body).isSome := by
    rw [hframes]
    decide
  exact ⟨by decide, hdecodes, (stream_samples_replay (F := ℚ) (α := Nat) ⟨[], fun _ => []⟩
    (fun _ n => n) (fun _ => true) data 3).2.1 hdecodes⟩

end HftOrderbook
