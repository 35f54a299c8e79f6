import HftOrderbook.Library.LineStream
import HftOrderbook.Mt5.Advisor
import HftOrderbook.Proof.ExpertAdvisor

/-!
# The lines of the expert advisor

Every line is plain text up to its newline. Its kind stands in its first field, which the bridge
finds whatever follows; a line that was cut off is either still of its kind or of none. The other
way round, the advisor takes the id and the side of an order as they were sent.
-/

namespace HftOrderbook.Mt5.ExpertAdvisor

open ByteText Decimal FlatJson QuotedWord LineStream

/-! ### Plain text -/

/-- ASCII without a NUL. -/
def IsAscii (text : List UInt8) : Prop := ∀ b ∈ text, 0 < b ∧ b < 0x80

instance (text : List UInt8) : Decidable (IsAscii text) :=
  List.decidableBAll (fun b => 0 < b ∧ b < 0x80) text

/-- And without a newline. -/
def IsPlain (text : List UInt8) : Prop := IsAscii text ∧ (0x0A : UInt8) ∉ text

instance (text : List UInt8) : Decidable (IsPlain text) :=
  inferInstanceAs (Decidable (IsAscii text ∧ (0x0A : UInt8) ∉ text))

theorem isAscii_append {a b : List UInt8} : IsAscii (a ++ b) ↔ IsAscii a ∧ IsAscii b :=
  List.forall_mem_append

theorem isPlain_append {a b : List UInt8} : IsPlain (a ++ b) ↔ IsPlain a ∧ IsPlain b := by
  unfold IsPlain
  rw [isAscii_append, List.mem_append, not_or]
  exact and_and_and_comm

theorem isAscii_of_token {text : List UInt8} (htext : ∀ b ∈ text, isTokenByte b = true) :
    IsAscii text := by
  intro b hmem
  have hb := htext b hmem
  simp only [isTokenByte, isDigit, Bool.or_eq_true, Bool.and_eq_true, decide_eq_true_eq,
    beq_iff_eq] at hb
  rcases hb with (((⟨hle, h⟩ | ⟨hle, h⟩) | rfl) | rfl) | rfl
  · exact ⟨UInt8.lt_of_lt_of_le (by decide) hle, UInt8.lt_of_le_of_lt h (by decide)⟩
  · exact ⟨UInt8.lt_of_lt_of_le (by decide) hle, UInt8.lt_of_le_of_lt h (by decide)⟩
  · decide
  · decide
  · decide

theorem isPlain_of_token {text : List UInt8} (htext : ∀ b ∈ text, isTokenByte b = true) :
    IsPlain text :=
  ⟨isAscii_of_token htext, fun hmem => (of_isTokenByte (htext _ hmem)).2.2 rfl⟩

theorem isPlain_signedNumeral (z : Int) : IsPlain (signedNumeral z) :=
  isPlain_of_token fun _ => isTokenByte_of_mem_signedNumeral

theorem isPlain_esc {text : List UInt8} (htext : IsAscii text) : IsPlain (esc text) := by
  refine ⟨fun b hb => ?_, newline_not_mem_esc text⟩
  obtain ⟨c, hc, hb⟩ := List.mem_flatMap.mp hb
  have hlt := htext c hc
  split_ifs at hb
  · rcases List.mem_cons.mp hb with rfl | hb
    · decide
    · exact List.mem_singleton.mp hb ▸ hlt
  · exact (by decide : IsAscii (ascii "\\n")) b hb
  · exact (by decide : IsAscii (ascii "\\t")) b hb
  · exact List.mem_singleton.mp hb ▸ hlt

/-- One plain line with its newline. -/
def IsPlainText (text : List UInt8) : Prop := ∃ line, text = line ++ [0x0A] ∧ IsPlain line

theorem IsPlainText.isText {text : List UInt8} (h : IsPlainText text) : IsText text := by
  obtain ⟨line, rfl, hline⟩ := h
  exact ⟨line, rfl, hline.2⟩

theorem IsPlainText.isAscii {text : List UInt8} (h : IsPlainText text) : IsAscii text := by
  obtain ⟨line, rfl, hline⟩ := h
  exact isAscii_append.mpr ⟨hline.1, by decide⟩

/-! ### The kind of a line -/

theorem jsonGetStr_opening {kind : List UInt8} (hkind : esc kind = kind) (body : List UInt8) :
    jsonGetStr (opening kind ++ body) (ascii "t") = some kind := by
  have htext : opening kind ++ body = ascii "\x7b\"t\":\"" ++ (kind ++ 0x22 :: body) := by
    unfold opening
    rw [List.append_assoc, List.append_assoc]
    rfl
  have hlookup : lookup (ascii "t") [] (ascii "\x7b\"t\":\"" ++ (kind ++ 0x22 :: body)) =
      some (0x22 :: (kind ++ 0x22 :: body)) := rfl
  obtain ⟨i, hpos, hdrop⟩ := valuePos_of_lookup hlookup
  have hread := readStr_esc kind body
  rw [hkind] at hread
  rw [htext, jsonGetStr, hpos, Option.bind_eq_bind, Option.bind_some, hdrop]
  exact hread

/-- A word of the protocol and the kind of the lines that begin with it. -/
structure Spoken (kind : List UInt8) (k : MsgKind) : Prop where
  plain : esc kind = kind
  word : ∀ line, jsonGetStr line (ascii "t") = some kind → kindOf line = k
  cut : ∀ n < (opening kind).length, kindOf ((opening kind).take n) = .unknown

theorem kindOf_of_word {line kind : List UInt8} (hword : jsonGetStr line (ascii "t") = some kind)
    (line' : List UInt8) (hword' : jsonGetStr line' (ascii "t") = some kind) :
    kindOf line = kindOf line' := by
  rw [kindOf, kindOf, hword, hword']

theorem spoken_of {kind : List UInt8} {k : MsgKind} (hplain : esc kind = kind)
    (hkind : kindOf (opening kind) = k)
    (hcut : ∀ n < (opening kind).length, kindOf ((opening kind).take n) = .unknown) :
    Spoken kind k := by
  refine ⟨hplain, fun line hword => ?_, hcut⟩
  have hopening := jsonGetStr_opening hplain []
  rw [List.append_nil] at hopening
  exact (kindOf_of_word hword _ hopening).trans hkind

theorem spoken_hello : Spoken (ascii "hello") .hello :=
  spoken_of (by decide) (by decide) (by decide)

theorem spoken_subscribe : Spoken (ascii "subscribe") .subscribe :=
  spoken_of (by decide) (by decide) (by decide)

theorem spoken_tick : Spoken (ascii "tick") .tick :=
  spoken_of (by decide) (by decide) (by decide)

theorem spoken_heartbeat : Spoken (ascii "heartbeat") .heartbeat :=
  spoken_of (by decide) (by decide) (by decide)

theorem spoken_bye : Spoken (ascii "bye") .bye :=
  spoken_of (by decide) (by decide) (by decide)

theorem spoken_ack : Spoken (ascii "ack") .ack :=
  spoken_of (by decide) (by decide) (by decide)

/-- A text of the advisor that says something of the kind `k`. -/
def Utters (k : MsgKind) (text : List UInt8) : Prop :=
  ∃ kind body, Spoken kind k ∧ text = opening kind ++ body ++ [0x0A] ∧ IsPlain (opening kind ++ body)

namespace Utters

variable {k : MsgKind} {text line part : List UInt8}

theorem isPlainText (h : Utters k text) : IsPlainText text := by
  obtain ⟨kind, body, -, htext, hplain⟩ := h
  exact ⟨_, htext, hplain⟩

theorem kindOf_line (h : Utters k (line ++ [0x0A])) : kindOf line = k := by
  obtain ⟨kind, body, hspoken, htext, -⟩ := h
  rw [List.append_cancel_right htext]
  exact hspoken.word _ (jsonGetStr_opening hspoken.plain body)

theorem kindOf_text (h : Utters k text) : kindOf text = k := by
  obtain ⟨kind, body, hspoken, rfl, -⟩ := h
  rw [List.append_assoc]
  exact hspoken.word _ (jsonGetStr_opening hspoken.plain _)

/-- What the bridge makes of a text that was cut off. -/
theorem kindOf_prefix (h : Utters k text) (hpart : part <+: text) :
    kindOf part = k ∨ kindOf part = .unknown := by
  obtain ⟨kind, body, hspoken, rfl, -⟩ := h
  rw [List.append_assoc] at hpart
  rcases List.prefix_or_prefix_of_prefix hpart (List.prefix_append (opening kind) (body ++ [0x0A]))
    with hshort | ⟨body', rfl⟩
  · rw [List.prefix_iff_eq_take] at hshort
    rcases lt_or_ge part.length (opening kind).length with hlt | hge
    · rw [hshort]
      exact Or.inr (hspoken.cut _ hlt)
    · rw [List.take_of_length_le hge] at hshort
      have hword := jsonGetStr_opening hspoken.plain []
      rw [List.append_nil, ← hshort] at hword
      exact Or.inl (hspoken.word _ hword)
  · exact Or.inl (hspoken.word _ (jsonGetStr_opening hspoken.plain body'))

/-- All texts end with a brace and a newline. -/
theorem of_spoken {kind : List UInt8} (front : List UInt8) (hspoken : Spoken kind k)
    (htext : text = front ++ ascii "\x7d\n") (hfront : opening kind <+: front)
    (hplain : IsPlain front) : Utters k text := by
  obtain ⟨body, rfl⟩ := hfront
  refine ⟨kind, body ++ ascii "\x7d", hspoken, ?_, ?_⟩
  · rw [htext]
    simp only [List.append_assoc]
    rfl
  · rw [← List.append_assoc]
    exact isPlain_append.mpr ⟨hplain, by decide⟩

end Utters

/-! ### What the terminal does with text -/

/-- What the advisor relies on: the symbol and printed prices are plain text, a piece of ASCII without
a NUL is decoded as it is, and a whole number below `2 ^ 53` is read exactly. -/
structure Terminal.Lawful {Double : Type} (terminal : Terminal Double) : Prop where
  symbol : IsPlain terminal.symbol
  printed : ∀ v, IsPlain (terminal.doubleToString v)
  decoded : ∀ chunk, IsAscii chunk → terminal.charArrayToString chunk = chunk
  whole : ∀ n < 2 ^ 53, ∀ rest,
    terminal.toLong (terminal.stringToDouble (numeral n ++ 0x2C :: rest)) = n

theorem utters_helloLine {Double : Type} (terminal : Terminal Double) :
    Utters .hello (helloLine terminal) := by
  refine Utters.of_spoken _ spoken_hello rfl ?_ ?_
  · simp only [List.append_assoc]
    exact List.prefix_append _ _
  · rw [isPlain_append, isPlain_append]
    exact ⟨⟨by decide, by decide⟩, isPlain_signedNumeral _⟩

section

variable {Double : Type} {terminal : Terminal Double} (hterminal : terminal.Lawful)

include hterminal

theorem utters_subscribeLine : Utters .subscribe (subscribeLine terminal) := by
  refine Utters.of_spoken (opening (ascii "subscribe") ++ ascii ",\"v\":1,\"symbol\":\"" ++
    terminal.symbol ++ ascii "\"") spoken_subscribe ?_ ?_ ?_
  · rw [subscribeLine, List.append_assoc _ (ascii "\"")]
    rfl
  · simp only [List.append_assoc]
    exact List.prefix_append _ _
  · simp only [isPlain_append]
    exact ⟨⟨⟨by decide, by decide⟩, hterminal.symbol⟩, by decide⟩

theorem utters_encodeTick (t : MqlTick Double) : Utters .tick (encodeTick terminal t) := by
  refine Utters.of_spoken _ spoken_tick rfl ?_ ?_
  · simp only [List.append_assoc]
    exact List.prefix_append _ _
  · simp only [isPlain_append]
    exact ⟨⟨⟨⟨⟨⟨⟨⟨⟨⟨⟨⟨⟨by decide, by decide⟩, hterminal.symbol⟩, by decide⟩, by decide⟩,
      isPlain_signedNumeral _⟩, by decide⟩, hterminal.printed _⟩, by decide⟩, hterminal.printed _⟩,
      by decide⟩, hterminal.printed _⟩, by decide⟩, isPlain_signedNumeral _⟩

end

theorem utters_heartbeatLine (now : Int) : Utters .heartbeat (heartbeatLine now) := by
  refine Utters.of_spoken _ spoken_heartbeat rfl ?_ ?_
  · simp only [List.append_assoc]
    exact List.prefix_append _ _
  · simp only [isPlain_append]
    exact ⟨⟨by decide, by decide⟩, isPlain_signedNumeral _⟩

theorem utters_byeLine : Utters .bye byeLine := by
  refine Utters.of_spoken (opening (ascii "bye") ++ ascii ",\"v\":1") spoken_bye rfl
    (List.prefix_append _ _) (by decide)

theorem utters_ackLine {Double : Type} (e : Execution Double) : Utters .ack (ackLine e) := by
  refine Utters.of_spoken (opening (ascii "ack") ++ ascii ",\"v\":1,\"id\":" ++
    signedNumeral e.id ++ ascii ",\"ok\":" ++ (if e.isDone then ascii "true" else ascii "false") ++
    ascii ",\"retcode\":" ++ signedNumeral e.result.retcode.toInt32.toInt ++
    ascii ",\"message\":\"" ++ (if e.result.ok then ascii "sent" else ascii "rejected") ++
    ascii "\"") spoken_ack ?_ ?_ ?_
  · rw [ackLine, List.append_assoc _ (ascii "\"")]
    rfl
  · simp only [List.append_assoc]
    exact List.prefix_append _ _
  · have hdone : IsPlain (if e.isDone then ascii "true" else ascii "false") := by
      split_ifs <;> decide
    have hmessage : IsPlain (if e.result.ok then ascii "sent" else ascii "rejected") := by
      split_ifs <;> decide
    simp only [isPlain_append]
    exact ⟨⟨⟨⟨⟨⟨⟨⟨⟨by decide, by decide⟩, isPlain_signedNumeral _⟩, by decide⟩, hdone⟩, by decide⟩,
      isPlain_signedNumeral _⟩, by decide⟩, hmessage⟩, by decide⟩

/-! ### Orders, as the advisor reads them -/

theorem contains_iff (line text : List UInt8) : contains line text = true ↔ text <:+: line := by
  have hfind := find_append [] line text
  rw [List.nil_append, List.length_nil] at hfind
  rw [contains, hfind, Option.isSome_map, findIn_isSome]

/-- The newline at the end changes nothing for the test. -/
theorem isOrder_newline (line : List UInt8) : isOrder (line ++ [0x0A]) = isOrder line := by
  rw [Bool.eq_iff_iff, isOrder, isOrder, contains_iff, contains_iff, List.infix_concat_iff]
  refine ⟨fun h => h.resolve_left ?_, Or.inr⟩
  rintro ⟨front, hfront⟩
  have hlast := congrArg List.getLast? hfront
  rw [List.getLast?_concat, List.getLast?_append_of_ne_nil _ (by decide)] at hlast
  exact absurd hlast (by decide)

variable {Double : Type} [FloatText Double]

theorem isOrder_encodeOrder (o : Order Double) : isOrder (encodeOrder o) = true := by
  rw [isOrder, contains_iff]
  have htext : ∃ rest, encodeOrder o = ascii "\x7b" ++ (ascii "\"t\":\"order\"" ++ rest) := by
    unfold encodeOrder
    simp only [List.append_assoc]
    exact ⟨_, rfl⟩
  obtain ⟨rest, htext⟩ := htext
  exact ⟨ascii "\x7b", rest, by rw [htext, List.append_assoc]⟩

theorem isOrder_encodeNop : isOrder encodeNop = false := by decide

theorem isOrder_encodeHelloReply : isOrder (encodeHelloReply (ascii "mt5d") true) = false := by
  decide

section

variable {terminal : Terminal Double} {line : List UInt8} {o : Order Double}
  (hline : line ++ [0x0A] = encodeOrder o) (price : EnumOrderType → Double) (result : TradeResult)

include hline

theorem exists_beforeId : ∃ rest, line = beforeId o ++ (numeral o.id.toNat ++ 0x2C :: rest) := by
  have htext : ∃ rest, encodeOrder o =
      beforeId o ++ (numeral o.id.toNat ++ 0x2C :: rest) ++ [0x0A] := by
    refine ⟨ascii "\"symbol\":\"" ++ esc o.symbol ++ ascii "\"" ++
      ascii ",\"side\":\"" ++ [sideByte o] ++ ascii "\"" ++
      ascii ",\"volume\":" ++ fmtDouble o.volume ++
      ascii ",\"price\":" ++ fmtDouble o.price ++
      ascii ",\"kind\":\"" ++ esc o.kind ++ ascii "\"\x7d", ?_⟩
    unfold encodeOrder
    simp only [List.append_assoc, List.cons_append]
    rfl
  obtain ⟨rest, htext⟩ := htext
  exact ⟨rest, List.append_cancel_right (hline.trans htext)⟩

/-- The id of an order comes back in its ack. -/
theorem executeOrder_id (hterminal : terminal.Lawful) (hid : o.id.toNat < 2 ^ 53) :
    (executeOrder terminal price result line).id = o.id.toNat := by
  obtain ⟨rest, hrest⟩ := exists_beforeId hline
  have hpos := (leadsTo_id hrest).numPos hrest
  have hdrop : line.drop (beforeId o).length = numeral o.id.toNat ++ 0x2C :: rest := by
    rw [hrest, List.drop_left]
  have hread : jsonNum terminal.stringToDouble line (ascii "id") =
      some (terminal.stringToDouble (numeral o.id.toNat ++ 0x2C :: rest)) := by
    rw [jsonNum, hpos, Option.map_some, hdrop]
  rw [executeOrder, hread]
  exact hterminal.whole _ hid rest

/-- An order is executed on the side it was sent for. -/
theorem executeOrder_type (hfloat : FloatText.Lawful Double) :
    (executeOrder terminal price result line).request.type = .buy ↔ o.side = Side.buy := by
  obtain ⟨trail, htrail, htext⟩ := exists_orderDocument (Or.inr hline)
  obtain ⟨-, rest, hrest⟩ := engine_side hfloat htrail o
  rw [← htext] at hrest
  have hbyte : (0x22 : UInt8) ∉ [sideByte o] :=
    sideByte_induction (p := fun b => (0x22 : UInt8) ∉ [b]) (by decide) (by decide) o
  obtain ⟨-, hread⟩ := (leadsTo_side hrest).strPos hrest hbyte
  rw [executeOrder, hread]
  change (if [sideByte o] = [0x42] then EnumOrderType.buy else .sell) = .buy ↔ _
  unfold sideByte
  by_cases hside : o.side = Side.buy
  · simp [hside]
  · simp [hside]

end

end HftOrderbook.Mt5.ExpertAdvisor
