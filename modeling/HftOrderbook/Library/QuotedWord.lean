import HftOrderbook.Library.ByteText
import HftOrderbook.Library.FlatJson

/-!
# The first place of a quoted word

A quoted word stands exactly where two quotes that follow each other have the word between them. So
a text is cut at its quotes, and the search passes over every piece that is not the word. Of an
escaped string only the last piece can be one, since all others end with a backslash.
-/

namespace QuotedWord

open ByteText FlatJson

/-- Pieces without quotes, each behind a quote. -/
def pieces (segs : List (List UInt8)) : List UInt8 := segs.flatMap (0x22 :: ·)

theorem findIn_quote_append {word w : List UInt8} (hw : (0x22 : UInt8) ∉ w) (rest : List UInt8) :
    findIn (quoted word) (w ++ rest) = (findIn (quoted word) rest).map (w.length + ·) := by
  induction w with
  | nil =>
      rw [List.nil_append]
      simp
  | cons b w ih =>
      rw [List.mem_cons, not_or] at hw
      have hno : ¬ quoted word <+: b :: (w ++ rest) := by
        rw [quoted, List.cons_prefix_cons]
        exact fun h => hw.1 h.1
      rw [List.cons_append, findIn_cons_of_miss hno, ih hw.2, map_add_map, List.length_cons,
        Nat.add_comm 1]

theorem findIn_quoted (word rest : List UInt8) :
    findIn (quoted word) (quoted word ++ rest) = some 0 := by
  change findIn (quoted word) (0x22 :: ((word ++ [0x22]) ++ rest)) = _
  rw [findIn, if_pos]
  exact List.prefix_append (quoted word) rest

section Word

variable {word : List UInt8} (hword : (0x22 : UInt8) ∉ word)

include hword

theorem findIn_piece {seg : List UInt8} (hseg : (0x22 : UInt8) ∉ seg) (hne : seg ≠ word)
    (rest : List UInt8) :
    findIn (quoted word) (0x22 :: (seg ++ 0x22 :: rest)) =
      (findIn (quoted word) (0x22 :: rest)).map ((0x22 :: seg).length + ·) := by
  have hno : ¬ quoted word <+: 0x22 :: (seg ++ 0x22 :: rest) := by
    intro hprefix
    have htext : 0x22 :: (seg ++ 0x22 :: rest) = quoted seg ++ rest := by
      rw [quoted, List.cons_append, List.append_assoc, List.singleton_append]
    exact hne (quoted_key_unique hword hseg (htext ▸ hprefix)).symm
  rw [findIn_cons_of_miss hno, findIn_quote_append hseg, map_add_map, List.length_cons,
    Nat.add_comm 1]

theorem findIn_pieces {segs : List (List UInt8)} (hsegs : ∀ seg ∈ segs, (0x22 : UInt8) ∉ seg)
    (hne : word ∉ segs) (rest : List UInt8) :
    findIn (quoted word) (pieces segs ++ 0x22 :: rest) =
      (findIn (quoted word) (0x22 :: rest)).map ((pieces segs).length + ·) := by
  induction segs with
  | nil =>
      rw [pieces, List.flatMap_nil, List.nil_append]
      simp
  | cons seg segs ih =>
      rw [List.mem_cons, not_or] at hne
      have hpieces : ∃ tail, pieces segs ++ 0x22 :: rest = 0x22 :: tail := by
        cases segs with
        | nil => exact ⟨rest, rfl⟩
        | cons seg' segs => exact ⟨_, rfl⟩
      obtain ⟨tail, htail⟩ := hpieces
      have hnext := ih (fun seg' h => hsegs seg' (List.mem_cons_of_mem _ h)) hne.2
      have htext : pieces (seg :: segs) ++ 0x22 :: rest = 0x22 :: (seg ++ 0x22 :: tail) := by
        rw [← htail]
        simp only [pieces, List.flatMap_cons, List.cons_append, List.append_assoc]
      rw [htext, findIn_piece hword (hsegs seg List.mem_cons_self) (Ne.symm hne.1), ← htail, hnext,
        map_add_map, ← List.length_append]
      rfl

/-- The search passes over a text none of whose pieces is the word. -/
theorem findIn_word {w : List UInt8} (hw : (0x22 : UInt8) ∉ w) {segs : List (List UInt8)}
    (hsegs : ∀ seg ∈ segs, (0x22 : UInt8) ∉ seg) (hne : word ∉ segs) (rest : List UInt8) :
    findIn (quoted word) (w ++ pieces segs ++ (quoted word ++ rest)) =
      some (w ++ pieces segs).length := by
  have hpass := findIn_pieces hword hsegs hne (word ++ [0x22] ++ rest)
  have hhere := findIn_quoted word rest
  change findIn (quoted word) (0x22 :: (word ++ [0x22] ++ rest)) = some 0 at hhere
  rw [hhere] at hpass
  change findIn (quoted word) (pieces segs ++ (quoted word ++ rest)) = _ at hpass
  rw [List.append_assoc, findIn_quote_append hw, hpass, List.length_append]
  rfl

end Word

/-! ### Escaped strings -/

theorem exists_pieces {text : List UInt8} (h : Escaped text) :
    ∃ init last, 0x22 :: text = pieces init ++ 0x22 :: last ∧ (0x22 : UInt8) ∉ last ∧
      ∀ seg ∈ init, (0x22 : UInt8) ∉ seg ∧ (0x5C : UInt8) ∈ seg := by
  have hpush : ∀ (b : UInt8) (text : List UInt8), b ≠ 0x22 →
      (∃ init last, 0x22 :: text = pieces init ++ 0x22 :: last ∧ (0x22 : UInt8) ∉ last ∧
        ∀ seg ∈ init, (0x22 : UInt8) ∉ seg ∧ (0x5C : UInt8) ∈ seg) →
      ∃ init last, 0x22 :: b :: text = pieces init ++ 0x22 :: last ∧ (0x22 : UInt8) ∉ last ∧
        ∀ seg ∈ init, (0x22 : UInt8) ∉ seg ∧ (0x5C : UInt8) ∈ seg := by
    rintro b text hb ⟨init, last, htext, hlast, hinit⟩
    cases init with
    | nil =>
        obtain rfl := (List.cons.inj htext).2
        refine ⟨[], b :: text, rfl, ?_, by simp⟩
        rw [List.mem_cons, not_or]
        exact ⟨hb.symm, hlast⟩
    | cons seg init =>
        rw [List.forall_mem_cons] at hinit
        refine ⟨(b :: seg) :: init, last, ?_, hlast, List.forall_mem_cons.mpr ⟨⟨?_, ?_⟩, hinit.2⟩⟩
        · exact congrArg (fun t => 0x22 :: b :: t) (List.cons.inj htext).2
        · rw [List.mem_cons, not_or]
          exact ⟨hb.symm, hinit.1.1⟩
        · exact List.mem_cons_of_mem _ hinit.1.2
  induction h with
  | nil => exact ⟨[], [], rfl, List.not_mem_nil, by simp⟩
  | plain hquote _ _ ih => exact hpush _ _ hquote ih
  | @escape b text _ ih =>
      by_cases hb : b = 0x22
      · subst hb
        obtain ⟨init, last, htext, hlast, hinit⟩ := ih
        refine ⟨[0x5C] :: init, last, congrArg (fun t => 0x22 :: 0x5C :: t) htext, hlast,
          List.forall_mem_cons.mpr ⟨⟨by decide, by decide⟩, hinit⟩⟩
      · exact hpush _ _ (by decide) (hpush _ _ hb ih)

/-- What stands before and behind the last quote is determined. -/
theorem last_unique {a b x y : List UInt8} (hx : (0x22 : UInt8) ∉ x) (hy : (0x22 : UInt8) ∉ y)
    (h : a ++ 0x22 :: x = b ++ 0x22 :: y) : a = b ∧ x = y := by
  rcases List.append_eq_append_iff.mp h with ⟨w, rfl, hw⟩ | ⟨w, rfl, hw⟩
  · cases w with
    | nil => exact ⟨(List.append_nil a).symm, (List.cons.inj hw).2⟩
    | cons c w => exact absurd ((List.cons.inj hw).2 ▸ by simp) hx
  · cases w with
    | nil => exact ⟨List.append_nil b, (List.cons.inj hw).2.symm⟩
    | cons c w => exact absurd ((List.cons.inj hw).2 ▸ by simp) hy

section String

variable {word text w : List UInt8} {segs : List (List UInt8)} (hquote : (0x22 : UInt8) ∉ word)
  (hslash : (0x5C : UInt8) ∉ word) (htext : Escaped text) (hw : (0x22 : UInt8) ∉ w)
  (hsegs : ∀ seg ∈ segs, (0x22 : UInt8) ∉ seg) (hne : word ∉ segs)

include hquote hslash htext hw hsegs hne

/-- A string that ends with the word behind a quote holds its first place. -/
theorem findIn_in_string {front : List UInt8} (hfront : 0x22 :: text = front ++ 0x22 :: word)
    (rest : List UInt8) :
    findIn (quoted word) (w ++ pieces segs ++ (0x22 :: (text ++ 0x22 :: rest))) =
      some (w ++ pieces segs ++ front).length := by
  obtain ⟨init, last, hsplit, hlast, hinit⟩ := exists_pieces htext
  obtain ⟨rfl, rfl⟩ := last_unique hlast hquote (hsplit.symm.trans hfront)
  have hpieces : w ++ pieces segs ++ pieces init = w ++ pieces (segs ++ init) := by
    rw [pieces, pieces, pieces, List.flatMap_append, List.append_assoc]
  have hwhole : w ++ pieces segs ++ (0x22 :: (text ++ 0x22 :: rest)) =
      w ++ pieces (segs ++ init) ++ (quoted last ++ rest) := by
    rw [← List.cons_append, hsplit, ← hpieces, quoted]
    simp only [List.append_assoc, List.cons_append, List.nil_append]
  rw [hwhole, hpieces]
  refine findIn_word hquote hw (List.forall_mem_append.mpr ⟨hsegs, fun seg h => (hinit seg h).1⟩)
    ?_ rest
  rw [List.mem_append, not_or]
  exact ⟨hne, fun hmem => hslash (hinit last hmem).2⟩

/-- Any other string is passed over. -/
theorem findIn_behind_string (hnot : ¬ 0x22 :: word <:+ 0x22 :: text) {behind : List (List UInt8)}
    (hbehind : ∀ seg ∈ behind, (0x22 : UInt8) ∉ seg) (hne' : word ∉ behind) (rest : List UInt8) :
    findIn (quoted word)
        (w ++ pieces segs ++ (0x22 :: (text ++ (pieces behind ++ (quoted word ++ rest))))) =
      some (w ++ pieces segs ++ (0x22 :: (text ++ pieces behind))).length := by
  obtain ⟨init, last, hsplit, hlast, hinit⟩ := exists_pieces htext
  have hpieces : w ++ pieces segs ++ (0x22 :: (text ++ pieces behind)) =
      w ++ pieces (segs ++ (init ++ last :: behind)) := by
    rw [← List.cons_append, hsplit]
    simp only [pieces, List.flatMap_append, List.flatMap_cons, List.append_assoc, List.cons_append]
  have hwhole : w ++ pieces segs ++ (0x22 :: (text ++ (pieces behind ++ (quoted word ++ rest)))) =
      w ++ pieces (segs ++ (init ++ last :: behind)) ++ (quoted word ++ rest) := by
    rw [← hpieces]
    simp only [List.append_assoc, List.cons_append]
  rw [hwhole, hpieces]
  refine findIn_word hquote hw ?_ ?_ rest
  · rw [List.forall_mem_append, List.forall_mem_append, List.forall_mem_cons]
    exact ⟨hsegs, fun seg h => (hinit seg h).1, hlast, hbehind⟩
  · rw [List.mem_append, List.mem_append, List.mem_cons, not_or, not_or, not_or]
    refine ⟨hne, fun hmem => hslash (hinit word hmem).2, ?_, hne'⟩
    rintro rfl
    exact hnot ⟨pieces init, hsplit.symm⟩

end String

end QuotedWord
