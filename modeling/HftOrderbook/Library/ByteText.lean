import Mathlib.Tactic

/-!
# Text as bytes

Byte strings with the operations of `std::string` that look for a text and cut one out.
-/

namespace ByteText

/-- The bytes of a string literal. -/
def ascii (s : String) : List UInt8 := s.toByteArray.data.toList

def findIn (pat : List UInt8) : List UInt8 → Option Nat
  | [] => if pat = [] then some 0 else none
  | b :: rest => if pat <+: b :: rest then some 0 else (findIn pat rest).map (· + 1)

/-- `s.find(pat, start)`, `none` for `npos`. -/
def find (s pat : List UInt8) (start : Nat) : Option Nat :=
  if start ≤ s.length then (findIn pat (s.drop start)).map (start + ·) else none

/-- `s.substr(pos, count)` for a position inside. -/
def substr (s : List UInt8) (pos count : Nat) : List UInt8 := (s.drop pos).take count

/-- `s.rfind(pat)`, `none` for `npos`. -/
def rfind (pat : List UInt8) : List UInt8 → Option Nat
  | [] => if pat = [] then some 0 else none
  | b :: rest =>
      ((rfind pat rest).map (· + 1)).or (if pat <+: b :: rest then some 0 else none)

theorem map_add_map (found : Option Nat) (m n : Nat) :
    (found.map (n + ·)).map (m + ·) = found.map (m + n + ·) := by
  rw [Option.map_map]
  refine congrArg (fun f => found.map f) (funext fun k => ?_)
  simp only [Function.comp_apply]
  omega

theorem findIn_cons_of_miss {pat rest : List UInt8} {b : UInt8} (h : ¬ pat <+: b :: rest) :
    findIn pat (b :: rest) = (findIn pat rest).map (1 + ·) := by
  rw [findIn, if_neg h]
  refine congrArg (fun f => (findIn pat rest).map f) (funext fun k => ?_)
  omega

theorem find_append (pre rest pat : List UInt8) :
    find (pre ++ rest) pat pre.length = (findIn pat rest).map (pre.length + ·) := by
  rw [find, if_pos (by simp), List.drop_left]

theorem substr_append {pre text : List UInt8} (rest : List UInt8) :
    substr (pre ++ (text ++ rest)) pre.length text.length = text := by
  rw [substr, List.drop_left, List.take_left]

/-! ### Looking for one byte -/

theorem findIn_singleton {b : UInt8} {text : List UInt8} (htext : b ∉ text) (rest : List UInt8) :
    findIn [b] (text ++ b :: rest) = some text.length := by
  induction text with
  | nil =>
      rw [List.nil_append, findIn, if_pos (by simp)]
      rfl
  | cons c text ih =>
      rw [List.mem_cons, not_or] at htext
      rw [List.cons_append, findIn, if_neg (by simpa using htext.1), ih htext.2]
      rfl

theorem exists_of_findIn_singleton {b : UInt8} {s : List UInt8} {k : Nat}
    (h : findIn [b] s = some k) :
    ∃ front back, s = front ++ b :: back ∧ b ∉ front ∧ front.length = k := by
  induction s generalizing k with
  | nil => cases h
  | cons c s ih =>
      rw [findIn] at h
      split_ifs at h with hhere
      · obtain rfl : b = c := by simpa using hhere
        exact ⟨[], s, rfl, List.not_mem_nil, Option.some.inj h⟩
      · obtain ⟨k, hk, rfl⟩ := Option.map_eq_some_iff.mp h
        obtain ⟨front, back, rfl, hfront, rfl⟩ := ih hk
        refine ⟨c :: front, back, rfl, ?_, rfl⟩
        rw [List.mem_cons, not_or]
        exact ⟨by simpa using hhere, hfront⟩

theorem find_singleton {b : UInt8} {text : List UInt8} (htext : b ∉ text) (pre rest : List UInt8) :
    find (pre ++ (text ++ b :: rest)) [b] pre.length = some (pre.length + text.length) := by
  rw [find_append, findIn_singleton htext]
  rfl

theorem findIn_singleton_none {b : UInt8} {text : List UInt8} (htext : b ∉ text) :
    findIn [b] text = none := by
  induction text with
  | nil => rfl
  | cons c text ih =>
      rw [List.mem_cons, not_or] at htext
      rw [findIn, if_neg (by simpa using htext.1), ih htext.2]
      rfl

theorem find_singleton_none {b : UInt8} {text : List UInt8} (htext : b ∉ text) (pre : List UInt8) :
    find (pre ++ text) [b] pre.length = none := by
  rw [find_append, findIn_singleton_none htext]
  rfl

theorem findIn_isSome {pat : List UInt8} (s : List UInt8) :
    (findIn pat s).isSome = true ↔ pat <:+: s := by
  induction s with
  | nil =>
      rw [findIn, List.infix_nil]
      split_ifs with hpat
      · exact iff_of_true rfl hpat
      · exact iff_of_false (by decide) hpat
  | cons b s ih =>
      rw [findIn, List.infix_cons_iff]
      split_ifs with hhere
      · exact iff_of_true rfl (Or.inl hhere)
      · rw [Option.isSome_map, ih, or_iff_right hhere]

/-! ### The last place of a text -/

theorem rfind_eq_none {pat : List UInt8} (hpat : pat ≠ []) (s : List UInt8) :
    rfind pat s = none ↔ ¬ pat <:+: s := by
  induction s with
  | nil =>
      rw [rfind, if_neg hpat, List.infix_nil]
      exact iff_of_true rfl hpat
  | cons b s ih =>
      rw [rfind, Option.or_eq_none_iff, Option.map_eq_none_iff, ih, List.infix_cons_iff, not_or,
        and_comm]
      exact and_congr_left fun _ => ⟨fun h hpre => by simp [hpre] at h, fun hpre => if_neg hpre⟩

theorem rfind_append {pat rest : List UInt8} {k : Nat} (h : rfind pat rest = some k)
    (front : List UInt8) : rfind pat (front ++ rest) = some (front.length + k) := by
  induction front with
  | nil => rw [List.nil_append, h, List.length_nil, Nat.zero_add]
  | cons b front ih =>
      rw [List.cons_append, rfind, ih, List.length_cons, Option.map_some, Option.some_or,
        Nat.add_right_comm]

/-- The last place is one behind which the text does not stand again. -/
theorem rfind_eq_some {pat : List UInt8} (hpat : pat ≠ []) {front tail : List UInt8}
    (hlast : ¬ pat <:+: (pat ++ tail).tail) :
    rfind pat (front ++ (pat ++ tail)) = some front.length := by
  refine rfind_append (k := 0) ?_ front
  obtain ⟨b, rest, hrest⟩ : ∃ b rest, pat ++ tail = b :: rest :=
    List.exists_cons_of_ne_nil (List.append_ne_nil_of_left_ne_nil hpat tail)
  rw [hrest, List.tail_cons, ← rfind_eq_none hpat] at hlast
  rw [hrest, rfind, hlast, Option.map_none, Option.none_or]
  exact if_pos (hrest ▸ List.prefix_append pat tail)

theorem exists_of_infix {pat s : List UInt8} (hpat : pat ≠ []) (h : pat <:+: s) :
    ∃ front tail, s = front ++ (pat ++ tail) ∧ ¬ pat <:+: (pat ++ tail).tail := by
  induction s with
  | nil => exact absurd (List.infix_nil.mp h) hpat
  | cons b s ih =>
      by_cases hlater : pat <:+: s
      · obtain ⟨front, tail, rfl, hlast⟩ := ih hlater
        exact ⟨b :: front, tail, rfl, hlast⟩
      · obtain ⟨tail, htail⟩ := (List.infix_cons_iff.mp h).resolve_right hlater
        refine ⟨[], tail, htail.symm, ?_⟩
        rw [htail]
        exact hlater

/-! ### Lines -/

/-- The parts between the newlines, without an empty one behind the last. -/
def splitLines (s : List UInt8) : List (List UInt8) :=
  let parts := s.splitOn 0x0A
  if parts.getLast? = some [] then parts.dropLast else parts

theorem splitLines_append {line : List UInt8} (hline : (0x0A : UInt8) ∉ line) (rest : List UInt8) :
    splitLines (line ++ 0x0A :: rest) = line :: splitLines rest := by
  have hparts : (line ++ 0x0A :: rest).splitOn 0x0A = line :: rest.splitOn 0x0A := by
    rw [List.splitOn_append_cons_self, List.splitOn_eq_singleton hline, List.singleton_append]
  have hne := List.splitOn_ne_nil (0x0A : UInt8) rest
  rw [splitLines, splitLines, hparts, List.getLast?_cons_of_ne_nil hne,
    List.dropLast_cons_of_ne_nil hne]
  split_ifs
  · rfl
  · rfl

theorem splitLines_eq_singleton {line : List UInt8} (hline : (0x0A : UInt8) ∉ line)
    (hne : line ≠ []) : splitLines line = [line] := by
  rw [splitLines, List.splitOn_eq_singleton hline]
  exact if_neg fun h => hne (Option.some.inj h)

/-! ### Segments -/

/-- The parts that end with a separator. -/
def segments (sep : UInt8) (s : List UInt8) : List (List UInt8) := (s.splitOn sep).dropLast

theorem splitOn_flatMap {sep : UInt8} {segs : List (List UInt8)} {tail : List UInt8}
    (hsegs : ∀ seg ∈ segs, sep ∉ seg) (htail : sep ∉ tail) :
    (segs.flatMap (· ++ [sep]) ++ tail).splitOn sep = segs ++ [tail] := by
  induction segs with
  | nil => exact List.splitOn_eq_singleton htail
  | cons seg segs ih =>
      rw [List.flatMap_cons, List.append_assoc, List.append_assoc, List.singleton_append,
        List.splitOn_append_cons_self, List.splitOn_eq_singleton (hsegs seg List.mem_cons_self),
        ih fun seg' h => hsegs seg' (List.mem_cons_of_mem _ h)]
      rfl

theorem exists_segments (sep : UInt8) (s : List UInt8) :
    ∃ (segs : List (List UInt8)) (tail : List UInt8), (∀ seg ∈ segs, sep ∉ seg) ∧ sep ∉ tail ∧
      s = segs.flatMap (· ++ [sep]) ++ tail := by
  induction s with
  | nil => exact ⟨[], [], by simp, by simp, rfl⟩
  | cons b s ih =>
      obtain ⟨segs, tail, hsegs, htail, rfl⟩ := ih
      by_cases hb : b = sep
      · refine ⟨[] :: segs, tail, ?_, htail, by rw [hb]; rfl⟩
        exact List.forall_mem_cons.mpr ⟨List.not_mem_nil, hsegs⟩
      · cases segs with
        | nil => exact ⟨[], b :: tail, hsegs, by simp [Ne.symm hb, htail], rfl⟩
        | cons seg segs =>
            obtain ⟨hseg, hsegs⟩ := List.forall_mem_cons.mp hsegs
            refine ⟨(b :: seg) :: segs, tail, ?_, htail, rfl⟩
            exact List.forall_mem_cons.mpr ⟨by simp [Ne.symm hb, hseg], hsegs⟩

theorem length_le_flatMap (sep : UInt8) (segs : List (List UInt8)) :
    segs.length ≤ (segs.flatMap (· ++ [sep])).length := by
  induction segs with
  | nil => exact le_rfl
  | cons seg segs ih =>
      rw [List.flatMap_cons, List.length_append, List.length_append, List.length_cons,
        List.length_singleton]
      omega

theorem segments_flatMap {sep : UInt8} {segs : List (List UInt8)} {tail : List UInt8}
    (hsegs : ∀ seg ∈ segs, sep ∉ seg) (htail : sep ∉ tail) :
    segments sep (segs.flatMap (· ++ [sep]) ++ tail) = segs := by
  rw [segments, splitOn_flatMap hsegs htail, List.dropLast_concat]

end ByteText
