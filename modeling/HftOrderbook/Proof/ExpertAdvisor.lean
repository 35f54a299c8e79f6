import HftOrderbook.Library.QuotedWord
import HftOrderbook.Mt5.ExpertAdvisor
import HftOrderbook.Proof.Mt5Lookup

/-!
# Two readers of one order

The engine looks for a field where a key can stand, and the expert advisor where its quoted name
stands first. In an order the symbol is the only string before the fields that are read, and its
closing quote can be the second quote of a name: `"side"` found there leads to the right colon all
the same, while `"volume"` leads to the colon of the side.
-/

namespace HftOrderbook.Mt5.ExpertAdvisor

open ByteText Decimal FlatJson QuotedWord

/-- The readers of the expert advisor take the fields of an order from where the engine's stand. -/
structure SameReads (l : List UInt8) : Prop where
  id : ∃ i, valuePos l (ascii "id") = some i ∧ numPos l (ascii "id") = some i
  side : ∃ i j, valuePos l (ascii "side") = some i ∧ strPos l (ascii "side") = some (i, j) ∧
    jsonStr l (ascii "side") = jsonGetStr l (ascii "side")
  volume : ∃ i, valuePos l (ascii "volume") = some i ∧ numPos l (ascii "volume") = some i

/-! ### The colon behind a match -/

theorem find_key (s key : List UInt8) :
    find s (ascii "\"" ++ key ++ ascii "\"") 0 = findIn (quoted key) s := by
  have hfind := find_append [] s (quoted key)
  rw [List.nil_append, List.length_nil] at hfind
  exact hfind.trans (by simp)

/-- The first place of the quoted key leads to the colon at the end of a text. -/
def LeadsTo (s key before : List UInt8) : Prop :=
  ∃ pre gap, before = pre ++ (gap ++ [0x3A]) ∧ (0x3A : UInt8) ∉ gap ∧
    findIn (quoted key) s = some pre.length

section Leads

variable {s key before rest : List UInt8} (hlead : LeadsTo s key before)

include hlead

theorem LeadsTo.find_colon (hs : s = before ++ rest) :
    ∃ k c, find s (ascii "\"" ++ key ++ ascii "\"") 0 = some k ∧ find s (ascii ":") k = some c ∧
      c + 1 = before.length := by
  obtain ⟨pre, gap, rfl, hgap, hfind⟩ := hlead
  refine ⟨pre.length, pre.length + gap.length, (find_key s key).trans hfind, ?_, ?_⟩
  · rw [hs, List.append_assoc, List.append_assoc]
    exact find_singleton hgap pre rest
  · rw [List.length_append, List.length_append]
    rfl

theorem LeadsTo.numPos (hs : s = before ++ rest) : numPos s key = some before.length := by
  obtain ⟨k, c, hkey, hcolon, hlength⟩ := hlead.find_colon hs
  rw [ExpertAdvisor.numPos, hkey, Option.bind_eq_bind, Option.bind_some, hcolon, Option.bind_some,
    hlength]

theorem LeadsTo.strPos {text : List UInt8} (hs : s = before ++ (quoted text ++ rest))
    (htext : (0x22 : UInt8) ∉ text) :
    strPos s key = some (before.length, before.length + 1 + text.length) ∧
      jsonStr s key = some text := by
  obtain ⟨k, c, hkey, hcolon, hlength⟩ := hlead.find_colon hs
  have hinside : s = before ++ [0x22] ++ (text ++ 0x22 :: rest) := by
    rw [hs, quoted]
    simp only [List.append_assoc, List.cons_append, List.nil_append]
  have hopen : find s (ascii "\"") (c + 1) = some before.length := by
    rw [hs, hlength]
    exact find_singleton List.not_mem_nil before _
  have hclose : find s (ascii "\"") (before.length + 1) =
      some (before.length + 1 + text.length) := by
    rw [hinside]
    have hfind := find_singleton htext (before ++ [0x22]) rest
    rwa [List.length_append] at hfind
  have hquotes : ExpertAdvisor.strPos s key =
      some (before.length, before.length + 1 + text.length) := by
    rw [ExpertAdvisor.strPos, hkey, Option.bind_eq_bind, Option.bind_some, hcolon,
      Option.bind_some, hopen, Option.bind_some, hclose]
    rfl
  refine ⟨hquotes, ?_⟩
  have hcount : before.length + 1 + text.length - before.length - 1 = text.length := by omega
  rw [jsonStr, hquotes, Option.map_some]
  dsimp only
  have hcut : substr (before ++ [0x22] ++ (text ++ 0x22 :: rest)) (before ++ [0x22]).length
      text.length = text := substr_append _
  rw [List.length_append] at hcut
  rw [hcount, hinside]
  exact congrArg some hcut

end Leads

/-! ### The text of an order -/

variable {Double : Type} [FloatText Double]

/-- The pieces between the quotes up to the symbol. -/
def headPieces (o : Order Double) : List (List UInt8) :=
  [ascii "t", ascii ":", ascii "order", ascii ",", ascii "v", ascii ":1,"] ++
    [ascii "id", 0x3A :: (numeral o.id.toNat ++ [0x2C]), ascii "symbol", ascii ":"]

def sideByte (o : Order Double) : UInt8 := if o.side = Side.buy then 0x42 else 0x53

theorem sideByte_induction {p : UInt8 → Prop} (hbuy : p 0x42) (hsell : p 0x53) (o : Order Double) :
    p (sideByte o) := by
  unfold sideByte
  split_ifs
  · exact hbuy
  · exact hsell

theorem member_side (o : Order Double) :
    member (ascii "side", (Field.text [sideByte o] : Field Double)) =
      { key := ascii "side", value := .str [sideByte o] } := by
  have hside : esc [sideByte o] = [sideByte o] :=
    sideByte_induction (p := fun b => esc [b] = [b]) rfl rfl o
  rw [member, Field.value, hside]

/-- The members of an order, with the letter of the side as it is. -/
def orderMembers (o : Order Double) : List Member :=
  [member (ascii "t", (Field.text (ascii "order") : Field Double)),
    member (ascii "v", (Field.int kProtocolVersion.toInt : Field Double)),
    member (ascii "id", (Field.int o.id.toNat : Field Double)),
    member (ascii "symbol", (Field.text o.symbol : Field Double)),
    { key := ascii "side", value := .str [sideByte o] },
    member (ascii "volume", Field.double o.volume), member (ascii "price", Field.double o.price),
    member (ascii "kind", (Field.text o.kind : Field Double))]

theorem map_member_orderFields (o : Order Double) :
    (orderFields o).map member = orderMembers o := by
  rw [orderMembers, ← member_side]
  rfl

/-- The line of an order and what follows it. -/
def orderDocument (trail : List UInt8) (o : Order Double) : Document :=
  { members := orderMembers o, trail }

theorem line_eq_text (trail : List UInt8) (o : Order Double) :
    line trail (orderFields o) = (orderDocument trail o).text := by
  rw [line, map_member_orderFields]
  rfl

def beforeId (o : Order Double) : List UInt8 :=
  0x7B :: (pieces ((headPieces o).take 6) ++ (quoted (ascii "id") ++ [0x3A]))

def beforeSide (o : Order Double) : List UInt8 :=
  0x7B :: (pieces (headPieces o) ++ (0x22 :: (esc o.symbol ++ 0x22 :: (0x2C ::
    (quoted (ascii "side") ++ [0x3A])))))

def beforeVolume (o : Order Double) : List UInt8 :=
  beforeSide o ++ (quoted [sideByte o] ++ 0x2C :: (quoted (ascii "volume") ++ [0x3A]))

theorem before_id (trail : List UInt8) (o : Order Double) :
    (orderDocument trail o).before ((orderMembers o).take 2)
      (member (ascii "id", (Field.int o.id.toNat : Field Double))) = beforeId o := rfl

theorem before_side (trail : List UInt8) (o : Order Double) :
    (orderDocument trail o).before ((orderMembers o).take 4)
      { key := ascii "side", value := .str [sideByte o] } = beforeSide o := by
  simp only [Document.before, orderDocument, orderMembers, beforeSide, headPieces, pieces, member,
    Member.text, Field.value, Value.text, quoted, signedNumeral_natCast, List.take_succ_cons,
    List.take_zero, List.flatMap_cons, List.flatMap_nil, List.append_assoc, List.cons_append,
    List.nil_append]
  rfl

theorem before_volume (trail : List UInt8) (o : Order Double) :
    (orderDocument trail o).before ((orderMembers o).take 5)
      (member (ascii "volume", Field.double o.volume)) = beforeVolume o := by
  rw [beforeVolume, ← before_side trail o]
  simp only [Document.before, orderDocument, orderMembers, member, Member.text, Field.value,
    Value.text, quoted, signedNumeral_natCast, List.take_succ_cons, List.take_zero,
    List.flatMap_cons, List.flatMap_nil, List.append_assoc, List.cons_append, List.nil_append]

/-! ### Where the engine reads -/

section Engine

variable (hfloat : FloatText.Lawful Double) {trail : List UInt8} (htrail : (0x22 : UInt8) ∉ trail)
  (o : Order Double)

include hfloat htrail

theorem orderDocument_ok : (orderDocument trail o).Ok := by
  refine ⟨fun m hm => ?_, by simp [orderDocument], by simp [orderDocument], htrail⟩
  rw [orderDocument, ← map_member_orderFields] at hm
  obtain ⟨f, hf, rfl⟩ := List.mem_map.mp hm
  exact member_ok hfloat (isKey_orderFields o _ (List.mem_map_of_mem hf))

theorem valuePos_orderDocument (front : List Member) (m : Member) (back : List Member)
    (hmembers : orderMembers o = front ++ m :: back) (hfront : m.key ∉ front.map Member.key)
    (hkey : IsKey m.key) :
    valuePos (orderDocument trail o).text m.key =
        some ((orderDocument trail o).before front m).length ∧
      ∃ rest, (orderDocument trail o).text =
        (orderDocument trail o).before front m ++ (m.value.text ++ rest) := by
  have hother : ∀ m' ∈ front, m'.key ≠ m.key := fun m' hm' hsame =>
    hfront (hsame ▸ List.mem_map_of_mem hm')
  exact ⟨valuePos_document (orderDocument_ok hfloat htrail o) hkey hmembers hother rfl,
    _, Document.text_eq_before hmembers⟩

theorem engine_id :
    valuePos (orderDocument trail o).text (ascii "id") = some (beforeId o).length ∧
      ∃ rest, (orderDocument trail o).text = beforeId o ++ rest := by
  obtain ⟨hpos, rest, htext⟩ := valuePos_orderDocument hfloat htrail o ((orderMembers o).take 2) _ _
    rfl (show ascii "id" ∉ [ascii "t", ascii "v"] by decide) (show IsKey (ascii "id") by decide)
  rw [before_id] at hpos htext
  exact ⟨hpos, _, htext⟩

theorem engine_side :
    valuePos (orderDocument trail o).text (ascii "side") = some (beforeSide o).length ∧
      ∃ rest, (orderDocument trail o).text = beforeSide o ++ (quoted [sideByte o] ++ rest) := by
  obtain ⟨hpos, rest, htext⟩ := valuePos_orderDocument hfloat htrail o ((orderMembers o).take 4) _ _
    rfl (show ascii "side" ∉ [ascii "t", ascii "v", ascii "id", ascii "symbol"] by decide)
    (show IsKey (ascii "side") by decide)
  rw [before_side] at hpos htext
  exact ⟨hpos, rest, htext⟩

theorem engine_volume :
    valuePos (orderDocument trail o).text (ascii "volume") = some (beforeVolume o).length ∧
      ∃ rest, (orderDocument trail o).text = beforeVolume o ++ rest := by
  obtain ⟨hpos, rest, htext⟩ := valuePos_orderDocument hfloat htrail o ((orderMembers o).take 5) _ _
    rfl (show ascii "volume" ∉ [ascii "t", ascii "v", ascii "id", ascii "symbol", ascii "side"]
      by decide) (show IsKey (ascii "volume") by decide)
  rw [before_volume] at hpos htext
  exact ⟨hpos, _, htext⟩

end Engine

/-! ### Where the expert advisor reads -/

theorem quote_not_mem_headPieces (o : Order Double) :
    ∀ seg ∈ headPieces o, (0x22 : UInt8) ∉ seg := by
  have hnumeral : (0x22 : UInt8) ∉ numeral o.id.toNat := fun hmem =>
    absurd (isDigit_of_mem_numeral hmem) (by decide)
  have hid : (0x22 : UInt8) ∉ 0x3A :: (numeral o.id.toNat ++ [0x2C]) := by
    simp [hnumeral]
  simp only [headPieces, List.forall_mem_append, List.forall_mem_cons]
  exact ⟨⟨by decide, by decide, by decide, by decide, by decide, by decide, by simp⟩, by decide,
    hid, by decide, by decide, by simp⟩

theorem not_mem_headPieces {word : List UInt8} (hword : word ∉ [ascii "t", ascii ":",
    ascii "order", ascii ",", ascii "v", ascii ":1,", ascii "id", ascii "symbol"])
    (hcolon : word.head? ≠ some 0x3A) (o : Order Double) : word ∉ headPieces o := by
  have hid : word ≠ 0x3A :: (numeral o.id.toNat ++ [0x2C]) := by
    rintro rfl
    exact hcolon rfl
  simp only [headPieces, List.mem_append, List.mem_cons, List.not_mem_nil, or_false, not_or]
    at hword ⊢
  tauto

theorem leadsTo_id {s rest : List UInt8} {o : Order Double} (hs : s = beforeId o ++ rest) :
    LeadsTo s (ascii "id") (beforeId o) := by
  have htext : s = [0x7B] ++ pieces ((headPieces o).take 6) ++
      (quoted (ascii "id") ++ 0x3A :: rest) := by
    rw [hs, beforeId]
    simp only [List.append_assoc, List.cons_append, List.nil_append]
  refine ⟨[0x7B] ++ pieces ((headPieces o).take 6), quoted (ascii "id"), rfl, by decide, ?_⟩
  rw [htext]
  exact findIn_word (by decide) (by decide)
    (fun seg h => quote_not_mem_headPieces o seg (List.mem_of_mem_take h))
    (show ascii "id" ∉ [ascii "t", ascii ":", ascii "order", ascii ",", ascii "v", ascii ":1,"]
      by decide) _

theorem beforeSide_append (o : Order Double) (rest : List UInt8) :
    beforeSide o ++ rest = [0x7B] ++ pieces (headPieces o) ++ (0x22 :: (esc o.symbol ++ 0x22 ::
      (0x2C :: (quoted (ascii "side") ++ 0x3A :: rest)))) := by
  simp only [beforeSide, List.append_assoc, List.cons_append, List.nil_append]

/-- A word that the symbol ends with is found there, and the next colon is that of the side. -/
theorem leadsTo_of_symbol {s rest word : List UInt8} {o : Order Double}
    (hs : s = beforeSide o ++ rest) (hword : word ∉ headPieces o)
    (hbytes : (0x22 : UInt8) ∉ word ∧ (0x5C : UInt8) ∉ word ∧ (0x3A : UInt8) ∉ word)
    (hends : 0x22 :: word <:+ 0x22 :: esc o.symbol) : LeadsTo s word (beforeSide o) := by
  obtain ⟨front, hfront⟩ := hends
  have hcolons : (0x3A : UInt8) ∉ quoted word ++ 0x2C :: quoted (ascii "side") := by
    have hside : (0x3A : UInt8) ∉ 0x2C :: quoted (ascii "side") := by decide
    rw [List.mem_append, not_or, quoted]
    exact ⟨by simp [hbytes.2.2], hside⟩
  refine ⟨[0x7B] ++ pieces (headPieces o) ++ front, quoted word ++ 0x2C :: quoted (ascii "side"),
    ?_, hcolons, ?_⟩
  · have hbefore := beforeSide_append o []
    rw [List.append_nil, ← List.cons_append, ← hfront] at hbefore
    rw [hbefore, quoted, quoted]
    simp only [List.append_assoc, List.cons_append, List.nil_append]
  · rw [hs, beforeSide_append]
    exact findIn_in_string hbytes.1 hbytes.2.1 (escaped_esc _) (by decide)
      (quote_not_mem_headPieces o) hword hfront.symm _

theorem leadsTo_side {s rest : List UInt8} {o : Order Double} (hs : s = beforeSide o ++ rest) :
    LeadsTo s (ascii "side") (beforeSide o) := by
  have hword : ascii "side" ∉ headPieces o := not_mem_headPieces (by decide) (by decide) o
  by_cases hends : 0x22 :: ascii "side" <:+ 0x22 :: esc o.symbol
  · exact leadsTo_of_symbol hs hword (by decide) hends
  · refine ⟨[0x7B] ++ pieces (headPieces o) ++ (0x22 :: (esc o.symbol ++ pieces [ascii ","])),
      quoted (ascii "side"), ?_, by decide, ?_⟩
    · have hbefore := beforeSide_append o []
      rw [List.append_nil] at hbefore
      rw [hbefore]
      simp only [List.append_assoc, List.cons_append, List.nil_append]
      rfl
    · rw [hs, beforeSide_append]
      exact findIn_behind_string (by decide) (by decide) (escaped_esc _) (by decide)
        (quote_not_mem_headPieces o) hword hends (show ∀ seg ∈ [ascii ","], _ by decide)
        (by decide) _

theorem leadsTo_volume {s rest : List UInt8} {o : Order Double} (hs : s = beforeVolume o ++ rest)
    (hends : ¬ 0x22 :: ascii "volume" <:+ 0x22 :: esc o.symbol) :
    LeadsTo s (ascii "volume") (beforeVolume o) := by
  have hword : ascii "volume" ∉ headPieces o := not_mem_headPieces (by decide) (by decide) o
  refine ⟨[0x7B] ++ pieces (headPieces o) ++ (0x22 :: (esc o.symbol ++ pieces [ascii ",",
    ascii "side", ascii ":", [sideByte o], ascii ","])), quoted (ascii "volume"), ?_, by decide, ?_⟩
  · rw [beforeVolume, beforeSide_append]
    simp only [List.append_assoc, List.cons_append, List.nil_append]
    rfl
  · have hbehind : (∀ seg ∈ [ascii ",", ascii "side", ascii ":", [sideByte o], ascii ","],
        (0x22 : UInt8) ∉ seg) ∧ ascii "volume" ∉ [ascii ",", ascii "side", ascii ":", [sideByte o],
          ascii ","] := by
      apply sideByte_induction (p := fun b =>
        (∀ seg ∈ [ascii ",", ascii "side", ascii ":", [b], ascii ","], (0x22 : UInt8) ∉ seg) ∧
          ascii "volume" ∉ [ascii ",", ascii "side", ascii ":", [b], ascii ","])
      · decide
      · decide
    have hfind := findIn_behind_string (by decide) (by decide) (escaped_esc o.symbol)
      (by decide : (0x22 : UInt8) ∉ [0x7B]) (quote_not_mem_headPieces o) hword hends hbehind.1
      hbehind.2 (0x3A :: rest)
    rw [hs, beforeVolume, List.append_assoc, beforeSide_append, ← hfind]
    simp only [List.append_assoc, List.cons_append, List.nil_append]
    rfl

/-! ### The symbols that mislead -/

theorem esc_append (text text' : List UInt8) : esc (text ++ text') = esc text ++ esc text' :=
  List.flatMap_append

theorem quote_not_mem_esc {text : List UInt8} (htext : (0x22 : UInt8) ∉ text) :
    (0x22 : UInt8) ∉ esc text := by
  intro hmem
  obtain ⟨b, hb, hesc⟩ := List.mem_flatMap.mp hmem
  have hne : b ≠ 0x22 := fun h => htext (h ▸ hb)
  split_ifs at hesc with hspecial hnewline htab
  · rcases hspecial with rfl | rfl
    · exact hne rfl
    · exact absurd hesc (by decide)
  · exact absurd hesc (by decide)
  · exact absurd hesc (by decide)
  · exact hne (List.mem_singleton.mp hesc).symm

theorem exists_last_quote (text : List UInt8) :
    ∃ front last, 0x22 :: text = front ++ 0x22 :: last ∧ (0x22 : UInt8) ∉ last := by
  have hmem : (0x22 : UInt8) ∈ (0x22 :: text).reverse := by simp
  obtain ⟨behind, before, hsplit, hbehind⟩ := List.eq_append_cons_of_mem hmem
  refine ⟨before.reverse, behind.reverse, ?_, by rwa [List.mem_reverse]⟩
  rw [List.reverse_eq_iff] at hsplit
  rw [hsplit]
  simp

/-- Escaping does not change whether a symbol ends with a word behind a quote. -/
theorem suffix_esc_iff {word : List UInt8} (hquote : (0x22 : UInt8) ∉ word)
    (hplain : esc word = word) (symbol : List UInt8) :
    0x22 :: word <:+ 0x22 :: esc symbol ↔ 0x22 :: word <:+ 0x22 :: symbol := by
  obtain ⟨front, last, hsplit, hlast⟩ := exists_last_quote symbol
  have hesc : ∃ front', 0x22 :: esc symbol = front' ++ 0x22 :: esc last := by
    cases front with
    | nil =>
        obtain rfl := (List.cons.inj hsplit).2
        exact ⟨[], rfl⟩
    | cons b front =>
        have hsymbol : symbol = front ++ 0x22 :: last := (List.cons.inj hsplit).2
        refine ⟨0x22 :: (esc front ++ [0x5C]), ?_⟩
        rw [hsymbol, esc_append, List.cons_append, List.append_assoc]
        rfl
  obtain ⟨front', hesc⟩ := hesc
  constructor
  · rintro ⟨pre, hpre⟩
    have hsame := (last_unique hquote (quote_not_mem_esc hlast) (hpre.trans hesc)).2
    have hword : word = last := by
      calc word = unescape (esc word) := (unescape_esc word).symm
        _ = unescape (esc last) := by rw [hplain, ← hsame]
        _ = last := unescape_esc last
    exact ⟨front, by rw [hsplit, hword]⟩
  · rintro ⟨pre, hpre⟩
    obtain rfl := (last_unique hquote hlast (hpre.trans hsplit)).2
    exact ⟨front', by rw [hesc, hplain]⟩

theorem exists_orderDocument {o : Order Double} {l : List UInt8}
    (hl : l = encodeOrder o ∨ l ++ ascii "\n" = encodeOrder o) :
    ∃ trail, (0x22 : UInt8) ∉ trail ∧ l = (orderDocument trail o).text := by
  rw [encodeOrder_eq_line] at hl
  rcases hl with rfl | hl
  · exact ⟨ascii "\n", by decide, line_eq_text _ o⟩
  · refine ⟨[], List.not_mem_nil, ?_⟩
    rw [line, object_eq_append] at hl
    rw [List.append_cancel_right hl, ← line_eq_text, line]

theorem volume_ne_side (o : Order Double) : (beforeVolume o).length ≠ (beforeSide o).length := by
  rw [beforeVolume, List.length_append, quoted]
  simp

/-- The readers take the fields of every order from the same places, unless the symbol is `volume`
or ends with it behind a quote. -/
theorem sameReads_iff (Double : Type) [FloatText Double] (hfloat : FloatText.Lawful Double)
    (o : Order Double) (l : List UInt8) (hl : l = encodeOrder o ∨ l ++ ascii "\n" = encodeOrder o) :
    SameReads l ↔ ¬ ascii "\"volume" <:+ 0x22 :: o.symbol := by
  obtain ⟨trail, htrail, rfl⟩ := exists_orderDocument hl
  obtain ⟨hid, _, hidText⟩ := engine_id hfloat htrail o
  obtain ⟨hside, _, hsideText⟩ := engine_side hfloat htrail o
  obtain ⟨hvolume, _, hvolumeText⟩ := engine_volume hfloat htrail o
  have hends := suffix_esc_iff (by decide) (by decide : esc (ascii "volume") = ascii "volume")
    o.symbol
  change SameReads _ ↔ ¬ 0x22 :: ascii "volume" <:+ _
  rw [← hends]
  constructor
  · rintro ⟨-, -, i, hi, hnum⟩ hsuffix
    have hword : ascii "volume" ∉ headPieces o := not_mem_headPieces (by decide) (by decide) o
    have hlead := leadsTo_of_symbol hsideText hword (by decide) hsuffix
    rw [hlead.numPos hsideText] at hnum
    rw [hvolume, ← hnum] at hi
    exact volume_ne_side o (Option.some.inj hi)
  · intro hnot
    have hbyte : (0x22 : UInt8) ∉ [sideByte o] :=
      sideByte_induction (p := fun b => (0x22 : UInt8) ∉ [b]) (by decide) (by decide) o
    obtain ⟨hquotes, hread⟩ := (leadsTo_side hsideText).strPos hsideText hbyte
    refine ⟨⟨_, hid, (leadsTo_id hidText).numPos hidText⟩, ⟨_, _, hside, hquotes, ?_⟩,
      ⟨_, hvolume, (leadsTo_volume hvolumeText hnot).numPos hvolumeText⟩⟩
    rw [hread, ← line_eq_text, jsonGetStr_line hfloat htrail (isKey_orderFields o) rfl]
    rfl

/-- An order for the instrument `volume`. -/
def volumeOrder : Order Int := { id := 7, symbol := ascii "volume", side := Side.buy, volume := 5 }

theorem sameReads_iff_sample :
    SameReads (encodeOrder { volumeOrder with symbol := ascii "side" }) :=
  (sameReads_iff Int wholeNumbers_lawful { volumeOrder with symbol := ascii "side" } _
    (Or.inl rfl)).mpr (by decide)

/-- The volume is taken from where the side stands. -/
theorem volumeOrder_misread :
    valuePos (encodeOrder volumeOrder) (ascii "side") = some 51 ∧
      valuePos (encodeOrder volumeOrder) (ascii "volume") = some 64 ∧
      numPos (encodeOrder volumeOrder) (ascii "volume") = some 51 ∧
      ¬ SameReads (encodeOrder volumeOrder) := by
  have hengine : valuePos (encodeOrder volumeOrder) (ascii "volume") = some 64 := by decide
  have hadvisor : numPos (encodeOrder volumeOrder) (ascii "volume") = some 51 := by decide
  refine ⟨by decide, hengine, hadvisor, ?_⟩
  rintro ⟨-, -, i, hi, hnum⟩
  rw [hengine] at hi
  rw [hadvisor, ← hi] at hnum
  exact absurd hnum (by decide)

end HftOrderbook.Mt5.ExpertAdvisor
