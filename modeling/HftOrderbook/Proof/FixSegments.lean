import HftOrderbook.Fix.Message

/-!
# Messages as segments

A text is cut into segments by the bytes that end a field. `parse` takes one field for each segment
with an equals sign, but it looks for that sign beyond the end of a segment. A segment without one
gives its number to the field that follows, in place of the tag that stands there.
-/

namespace HftOrderbook.Fix

open ByteText Decimal

/-- Whether a segment is a field. -/
abbrev HasEquals (seg : List UInt8) : Prop := (0x3D : UInt8) ∈ seg

def keyOf (seg : List UInt8) : List UInt8 := seg.takeWhile (· != 0x3D)

def textOf (seg : List UInt8) : List UInt8 := (seg.dropWhile (· != 0x3D)).tail

/-- The field of a segment on its own. -/
def fieldOf (seg : List UInt8) : Option (Int32 × List UInt8) :=
  if HasEquals seg then some (atoi (keyOf seg), textOf seg) else none

/-- The fields that are taken from segments behind a bare one. -/
def taken : Option (List UInt8) → List (List UInt8) → List (Int32 × List UInt8)
  | _, [] => []
  | bare, seg :: segs =>
      if HasEquals seg then (atoi (bare.getD (keyOf seg)), textOf seg) :: taken none segs
      else taken (bare.or (some seg)) segs

theorem exists_of_hasEquals {seg : List UInt8} (h : HasEquals seg) :
    seg = keyOf seg ++ 0x3D :: textOf seg ∧ (0x3D : UInt8) ∉ keyOf seg := by
  induction seg with
  | nil => cases h
  | cons b seg ih =>
      by_cases hb : b = 0x3D
      · subst hb
        exact ⟨rfl, List.not_mem_nil⟩
      · have hbne : (b != 0x3D) = true := bne_iff_ne.mpr hb
        have hkey : keyOf (b :: seg) = b :: keyOf seg := List.takeWhile_cons_of_pos hbne
        have htext : textOf (b :: seg) = textOf seg :=
          congrArg List.tail (List.dropWhile_cons_of_pos hbne)
        obtain ⟨hseg, hnot⟩ := ih ((List.mem_cons.mp h).resolve_left (Ne.symm hb))
        rw [hkey, htext, List.cons_append, ← hseg]
        exact ⟨rfl, by simp [Ne.symm hb, hnot]⟩

theorem soh_not_mem_textOf {seg : List UInt8} (hequals : HasEquals seg) (hseg : SOH ∉ seg) :
    SOH ∉ textOf seg := by
  intro hmem
  apply hseg
  rw [(exists_of_hasEquals hequals).1]
  exact List.mem_append_right _ (List.mem_cons_of_mem _ hmem)

/-! ### The loop -/

/-- The first of some bare segments is all that is read of them and of the tag behind them. -/
theorem atoi_bares (bares : List (List UInt8)) (key : List UInt8) :
    atoi (bares.flatMap (· ++ [SOH]) ++ key) = atoi (bares.head?.getD key) := by
  cases bares with
  | nil => rfl
  | cons bare bares =>
      rw [List.flatMap_cons, List.append_assoc, List.append_assoc, List.singleton_append]
      exact atoi_append (by decide) (by decide) (by decide) _ _

theorem equals_not_mem_bares {bares : List (List UInt8)}
    (hbares : ∀ bare ∈ bares, ¬ HasEquals bare) :
    (0x3D : UInt8) ∉ bares.flatMap (· ++ [SOH]) := by
  intro hmem
  obtain ⟨bare, hbare, hmem⟩ := List.mem_flatMap.mp hmem
  rcases List.mem_append.mp hmem with hmem | hmem
  · exact hbares bare hbare hmem
  · exact absurd (List.mem_singleton.mp hmem) (by decide)

/-- The loop ends where no equals sign is left, or nothing behind it that ends a field. -/
theorem parseFrom_end {front tail : List UInt8} (hfront : (0x3D : UInt8) ∉ front)
    (htail : SOH ∉ tail) (pre : List UInt8) (fuel : Nat) :
    parseFrom (pre ++ (front ++ tail)) (fuel + 1) pre.length = some [] := by
  rw [parseFrom]
  split_ifs with hmore
  · by_cases hequals : HasEquals tail
    · obtain ⟨hsplit, hkey⟩ := exists_of_hasEquals hequals
      have hback := soh_not_mem_textOf hequals htail
      have hbefore : (0x3D : UInt8) ∉ front ++ keyOf tail := by
        rw [List.mem_append, not_or]
        exact ⟨hfront, hkey⟩
      have hshift : pre ++ (front ++ tail) =
          (pre ++ (front ++ keyOf tail ++ [0x3D])) ++ textOf tail := by
        nth_rewrite 1 [hsplit]
        simp
      have hfind : find (pre ++ (front ++ tail)) (ascii "=") pre.length =
          some (pre.length + (front ++ keyOf tail).length) := by
        nth_rewrite 1 [hsplit]
        rw [← List.append_assoc front]
        exact find_singleton hbefore _ _
      have hlength : pre.length + (front ++ keyOf tail).length + 1 =
          (pre ++ (front ++ keyOf tail ++ [0x3D])).length := by
        simp only [List.length_append, List.length_singleton]
        omega
      rw [hfind]
      dsimp only
      rw [hlength, hshift, find_singleton_none hback]
    · have hnone : (0x3D : UInt8) ∉ front ++ tail := by
        rw [List.mem_append, not_or]
        exact ⟨hfront, hequals⟩
      rw [show ascii "=" = [0x3D] from rfl, find_singleton_none hnone]
  · rfl

theorem parseFrom_segments {segs : List (List UInt8)} {tail : List UInt8}
    (hsegs : ∀ seg ∈ segs, SOH ∉ seg) (htail : SOH ∉ tail) :
    ∀ (pre : List UInt8) (bares : List (List UInt8)) (fuel : Nat),
      (∀ bare ∈ bares, ¬ HasEquals bare) → segs.length < fuel →
      parseFrom (pre ++ (bares.flatMap (· ++ [SOH]) ++ (segs.flatMap (· ++ [SOH]) ++ tail))) fuel
        pre.length = some (taken bares.head? segs) := by
  induction segs with
  | nil =>
      intro pre bares fuel hbares hfuel
      obtain ⟨fuel, rfl⟩ : ∃ n, fuel = n + 1 := ⟨fuel - 1, by simp at hfuel; omega⟩
      exact parseFrom_end (equals_not_mem_bares hbares) htail pre fuel
  | cons seg segs ih =>
      intro pre bares fuel hbares hfuel
      obtain ⟨hseg, hsegs⟩ := List.forall_mem_cons.mp hsegs
      rw [List.length_cons] at hfuel
      rw [taken]
      split_ifs with hequals
      · obtain ⟨fuel, rfl⟩ : ∃ n, fuel = n + 1 := ⟨fuel - 1, by omega⟩
        obtain ⟨hsplit, hkey⟩ := exists_of_hasEquals hequals
        have htext := soh_not_mem_textOf hequals hseg
        have hbefore : (0x3D : UInt8) ∉ bares.flatMap (· ++ [SOH]) ++ keyOf seg := by
          rw [List.mem_append, not_or]
          exact ⟨equals_not_mem_bares hbares, hkey⟩
        have hround := parseFrom_round pre hbefore htext
          (segs.flatMap (· ++ [SOH]) ++ tail) fuel
        have hnext := ih hsegs (pre ++ (bares.flatMap (· ++ [SOH]) ++ keyOf seg ++
          0x3D :: (textOf seg ++ [SOH]))) [] fuel (by simp) (by omega)
        rw [List.flatMap_nil, List.nil_append] at hnext
        rw [hnext, atoi_bares, Option.map_some] at hround
        rw [← List.head?_nil, ← hround]
        nth_rewrite 1 [List.flatMap_cons, hsplit]
        simp only [List.append_assoc, List.cons_append, List.nil_append]
      · have hnext := ih hsegs pre (bares ++ [seg]) fuel
          (List.forall_mem_append.mpr ⟨hbares, by simpa using hequals⟩) (by omega)
        rw [List.head?_append, List.flatMap_append, List.flatMap_singleton] at hnext
        rw [List.head?_singleton] at hnext
        rw [← hnext, List.flatMap_cons]
        simp only [List.append_assoc]

/-- `parse` takes the fields of the segments, each with the first bare segment before it. -/
theorem parse_eq_taken (s : List UInt8) :
    parse s = some (!(taken none (segments SOH s)).isEmpty, ⟨taken none (segments SOH s)⟩) := by
  obtain ⟨segs, tail, hsegs, htail, hs⟩ := exists_segments SOH s
  have hlength : segs.length ≤ s.length := by
    rw [hs, List.length_append]
    exact (length_le_flatMap SOH segs).trans (Nat.le_add_right _ _)
  have hparse := parseFrom_segments hsegs htail [] [] (s.length + 1) (by simp) (by omega)
  rw [List.flatMap_nil, List.nil_append, List.nil_append, ← hs] at hparse
  have hsegments : segments SOH s = segs := by
    rw [hs, segments_flatMap hsegs htail]
  rw [hsegments, parse]
  exact congrArg (Option.map _) hparse

/-! ### Segments that keep their tags -/

/-- Where bare segments stand in front of a field, the first of them is read as the tag of the
field. -/
def Unmixed (segs : List (List UInt8)) : Prop :=
  ∀ (front bares : List (List UInt8)) (field : List UInt8) (back : List (List UInt8)),
    segs = front ++ (bares ++ field :: back) → (∀ seg ∈ front.getLast?, HasEquals seg) →
    (∀ bare ∈ bares, ¬ HasEquals bare) → HasEquals field →
      ∀ bare ∈ bares.head?, atoi bare = atoi (keyOf field)

theorem exists_field (segs : List (List UInt8)) :
    (∀ seg ∈ segs, ¬ HasEquals seg) ∨ ∃ bares field back, segs = bares ++ field :: back ∧
      (∀ bare ∈ bares, ¬ HasEquals bare) ∧ HasEquals field := by
  induction segs with
  | nil => exact Or.inl (by simp)
  | cons seg segs ih =>
      by_cases hequals : HasEquals seg
      · exact Or.inr ⟨[], seg, segs, rfl, by simp, hequals⟩
      · rcases ih with hnone | ⟨bares, field, back, rfl, hbares, hfield⟩
        · exact Or.inl (List.forall_mem_cons.mpr ⟨hequals, hnone⟩)
        · exact Or.inr ⟨seg :: bares, field, back, rfl,
            List.forall_mem_cons.mpr ⟨hequals, hbares⟩, hfield⟩

theorem taken_field {bares : List (List UInt8)} {field : List UInt8}
    (hbares : ∀ bare ∈ bares, ¬ HasEquals bare) (hfield : HasEquals field)
    (bare : Option (List UInt8)) (back : List (List UInt8)) :
    taken bare (bares ++ field :: back) =
      (atoi ((bare.or bares.head?).getD (keyOf field)), textOf field) :: taken none back := by
  induction bares generalizing bare with
  | nil => rw [List.nil_append, taken, if_pos hfield, List.head?_nil, Option.or_none]
  | cons seg bares ih =>
      obtain ⟨hseg, hbares⟩ := List.forall_mem_cons.mp hbares
      rw [List.cons_append, taken, if_neg hseg, ih hbares, List.head?_cons, Option.or_assoc,
        Option.some_or]

theorem taken_bares {bares : List (List UInt8)} (hbares : ∀ bare ∈ bares, ¬ HasEquals bare)
    (bare : Option (List UInt8)) : taken bare bares = [] := by
  induction bares generalizing bare with
  | nil => rfl
  | cons seg bares ih =>
      obtain ⟨hseg, hbares⟩ := List.forall_mem_cons.mp hbares
      rw [taken, if_neg hseg, ih hbares]

theorem filterMap_bares {bares : List (List UInt8)} (hbares : ∀ bare ∈ bares, ¬ HasEquals bare) :
    bares.filterMap fieldOf = [] :=
  List.filterMap_eq_nil_iff.mpr fun bare hbare => if_neg (hbares bare hbare)

theorem Unmixed.field {bares back : List (List UInt8)} {field : List UInt8}
    (h : Unmixed (bares ++ field :: back)) (hbares : ∀ bare ∈ bares, ¬ HasEquals bare)
    (hfield : HasEquals field) :
    (∀ bare ∈ bares.head?, atoi bare = atoi (keyOf field)) ∧ Unmixed back := by
  refine ⟨h [] bares field back rfl (by simp) hbares hfield, ?_⟩
  rintro front bares' field' back' rfl hfront hbares' hfield'
  refine h (bares ++ field :: front) bares' field' back' (by simp) ?_ hbares' hfield'
  rcases List.eq_nil_or_concat' front with rfl | ⟨front, last, rfl⟩
  · simpa using hfield
  · rw [← List.cons_append, ← List.append_assoc, List.getLast?_concat]
    rwa [List.getLast?_concat] at hfront

/-- Two ways to single out a segment of one list, where the second is not in front of the first. -/
theorem split_eq_split {left right left' right' : List (List UInt8)} {seg seg' : List UInt8}
    (h : left ++ seg :: right = left' ++ seg' :: right') (hnot : seg' ∉ left) :
    (left = left' ∧ seg = seg' ∧ right = right') ∨
      ∃ middle, left' = left ++ seg :: middle ∧ right = middle ++ seg' :: right' := by
  rcases List.append_eq_append_iff.mp h with ⟨middle, rfl, hmiddle⟩ | ⟨middle, rfl, hmiddle⟩
  · cases middle with
    | nil =>
        obtain ⟨rfl, rfl⟩ := List.cons.inj hmiddle
        exact Or.inl ⟨(List.append_nil _).symm, rfl, rfl⟩
    | cons seg middle =>
        obtain ⟨rfl, rfl⟩ := List.cons.inj hmiddle
        exact Or.inr ⟨middle, rfl, rfl⟩
  · cases middle with
    | nil =>
        obtain ⟨rfl, rfl⟩ := List.cons.inj hmiddle
        exact Or.inl ⟨List.append_nil _, rfl, rfl⟩
    | cons seg middle =>
        obtain ⟨rfl, -⟩ := List.cons.inj hmiddle
        exact absurd (by simp) hnot

theorem first_field_unique {bares bares' back back' : List (List UInt8)} {field field' : List UInt8}
    (hbares : ∀ bare ∈ bares, ¬ HasEquals bare) (hfield : HasEquals field)
    (hbares' : ∀ bare ∈ bares', ¬ HasEquals bare) (hfield' : HasEquals field')
    (h : bares ++ field :: back = bares' ++ field' :: back') : bares = bares' ∧ field = field' := by
  rcases split_eq_split h (fun hmem => hbares field' hmem hfield') with
    ⟨hleft, hseg, -⟩ | ⟨middle, rfl, -⟩
  · exact ⟨hleft, hseg⟩
  · exact absurd hfield (hbares' field (by simp))

theorem unmixed_field {bares back : List (List UInt8)} {field : List UInt8}
    (hbares : ∀ bare ∈ bares, ¬ HasEquals bare) (hfield : HasEquals field)
    (hhead : ∀ bare ∈ bares.head?, atoi bare = atoi (keyOf field)) (hback : Unmixed back) :
    Unmixed (bares ++ field :: back) := by
  intro front bares' field' back' hsegs hfront hbares' hfield'
  rcases List.eq_nil_or_concat' front with rfl | ⟨front, last, rfl⟩
  · obtain ⟨rfl, rfl⟩ := first_field_unique hbares hfield hbares' hfield' hsegs
    exact hhead
  · -- the segment before the bare ones is a field, so it is this field or stands behind it
    have hlast : HasEquals last := hfront last (by rw [List.getLast?_concat]; rfl)
    rw [List.append_assoc, List.singleton_append] at hsegs
    rcases split_eq_split hsegs (fun hmem => hbares last hmem hlast) with
      ⟨-, -, hrest⟩ | ⟨middle, -, hrest⟩
    · exact hback [] bares' field' back' hrest (by simp) hbares' hfield'
    · refine hback (middle ++ [last]) bares' field' back' (by simpa using hrest) ?_ hbares' hfield'
      rwa [List.getLast?_concat] at hfront ⊢

theorem taken_eq_filterMap_iff (segs : List (List UInt8)) :
    taken none segs = segs.filterMap fieldOf ↔ Unmixed segs := by
  induction hn : segs.length using Nat.strong_induction_on generalizing segs with
  | _ n ih =>
      rcases exists_field segs with hbares | ⟨bares, field, back, rfl, hbares, hfield⟩
      · rw [taken_bares hbares, filterMap_bares hbares, iff_true_left rfl]
        rintro front bares field back rfl - - hfield
        exact absurd hfield (hbares field (by simp))
      · have hlt : back.length < n := by
          rw [← hn, List.length_append, List.length_cons]
          omega
        have hspec : (bares ++ field :: back).filterMap fieldOf =
            (atoi (keyOf field), textOf field) :: back.filterMap fieldOf := by
          rw [List.filterMap_append, filterMap_bares hbares, List.nil_append, List.filterMap_cons,
            fieldOf, if_pos hfield]
        rw [taken_field hbares hfield, hspec, List.cons.injEq, ih _ hlt back rfl, Prod.mk.injEq,
          Option.none_or, and_iff_left rfl]
        constructor
        · rintro ⟨htag, hback⟩
          refine unmixed_field hbares hfield (fun bare hbare => ?_) hback
          rwa [Option.mem_def.mp hbare] at htag
        · intro h
          obtain ⟨hhead, hback⟩ := h.field hbares hfield
          refine ⟨?_, hback⟩
          cases hbare : bares.head? with
          | none => rfl
          | some bare => exact hhead bare hbare

/-- `parse` takes the fields of a text segment by segment exactly where no bare segment changes the
tag of the field behind it. -/
theorem parse_segments_iff (s : List UInt8) :
    parse s = some (!((segments SOH s).filterMap fieldOf).isEmpty,
        ⟨(segments SOH s).filterMap fieldOf⟩) ↔ Unmixed (segments SOH s) := by
  rw [parse_eq_taken, ← taken_eq_filterMap_iff, Option.some.injEq, Prod.mk.injEq, Message.mk.injEq]
  exact ⟨fun h => h.2, fun h => ⟨by rw [h], h⟩⟩

/-- A bare number in front of the type of a message. -/
def bareNumber : List UInt8 := ascii "12" ++ SOH :: (ascii "35=D" ++ [SOH])

theorem bareNumber_tag_lost :
    (segments SOH bareNumber).filterMap fieldOf = [(35, ascii "D")] ∧
      parse bareNumber = some (true, ⟨[(12, ascii "D")]⟩) := by
  decide

end HftOrderbook.Fix
