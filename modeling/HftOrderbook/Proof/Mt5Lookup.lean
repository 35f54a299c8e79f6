import HftOrderbook.Proof.Mt5Codec

/-!
# Looking up the fields of a line

In any flat object, however its tokens are spaced, `value_pos` finds the value of the first member
with the key, and `json_get_str` reads it if it is a string. The numbers among the fields are
printed as unsigned and read as signed ones, which the upper half of their range does not survive.
-/

namespace HftOrderbook.Mt5

open ByteText Decimal FlatJson

/-! ### Strings -/

theorem readStr_quote (rest : List UInt8) : readStr (0x22 :: rest) = some [] := by
  cases rest with
  | nil => rfl
  | cons b rest => rfl

theorem readStr_escaped {text : List UInt8} (htext : Escaped text) (rest : List UInt8) :
    readStr (text ++ 0x22 :: rest) = some (unescape text) := by
  induction htext with
  | nil => exact readStr_quote rest
  | @plain b text hquote hslash _ ih =>
      rw [List.cons_append, readStr_plain hslash hquote, ih, unescape_plain hslash]
      rfl
  | @escape b text _ ih =>
      rw [List.cons_append, List.cons_append, readStr, unescape, if_pos rfl, if_pos rfl]
      split_ifs with hself hnewline htab
      · rw [ih]
        rfl
      · rw [ih]
        rfl
      · rw [ih]
        rfl
      · -- the backslash of an unknown escape is kept, and the byte behind it is a plain one
        simp only [not_or] at hself
        rw [readStr_plain hself.2.1 hself.1, ih]
        rfl

/-! ### Members -/

section Documents

variable {d : Document} (hd : d.Ok) {key : List UInt8} (hkey : IsKey key)

include hd hkey

theorem valuePos_document {front back : List Member} {m : Member}
    (hmembers : d.members = front ++ m :: back) (hfront : ∀ m' ∈ front, m'.key ≠ key)
    (hm : m.key = key) : valuePos d.text key = some (d.before front m).length := by
  have hlookup : lookup key [] d.text =
      some (m.value.text ++ (m.afterValue ++ following d.trail back)) := by
    rw [Document.lookup_text hkey.1 hkey.2 hd, hmembers, valueOf_append _ _ hfront hm]
  exact valuePos_of_append hlookup (Document.text_eq_before hmembers)

theorem valuePos_document_eq_none (hother : ∀ m ∈ d.members, m.key ≠ key) :
    valuePos d.text key = none := by
  rw [valuePos_eq_lookup, Document.lookup_text hkey.1 hkey.2 hd, valueOf_eq_none hother]
  rfl

end Documents

theorem jsonGetStr_of_valuePos {s key rest : List UInt8} {i : Nat} {v : Value}
    (hpos : valuePos s key = some i) (hdrop : s.drop i = v.text ++ rest) (hv : v.Ok) :
    jsonGetStr s key = v.content := by
  rw [jsonGetStr, hpos, Option.bind_eq_bind, Option.bind_some, hdrop]
  cases v with
  | str text =>
      change readStr ((text ++ [0x22]) ++ rest) = _
      rw [List.append_assoc]
      exact readStr_escaped hv rest
  | raw text =>
      obtain ⟨hquote, b, hb, -⟩ := hv
      obtain ⟨tail, rfl⟩ := List.head?_eq_some_iff.mp hb
      have hne : b ≠ 0x22 := fun h => hquote (h ▸ List.mem_cons_self)
      exact if_neg hne

theorem unescape_esc (text : List UInt8) : unescape (esc text) = text := by
  have hread := readStr_escaped (escaped_esc text) []
  rw [readStr_esc] at hread
  exact (Option.some.inj hread).symm

theorem jsonGetStr_object {trail : List UInt8} (htrail : (0x22 : UInt8) ∉ trail)
    (front : List Member) (m : Member) (back : List Member)
    (hmembers : ∀ m' ∈ front ++ m :: back, m'.Ok) (hfront : m.key ∉ front.map Member.key)
    (hkey : IsKey m.key) :
    jsonGetStr (object trail (front ++ m :: back)) m.key = m.value.content := by
  obtain ⟨i, hpos, hdrop⟩ := valuePos_object htrail front m back hmembers hfront hkey
  exact jsonGetStr_of_valuePos hpos hdrop (hmembers m (by simp)).value

/-- Whatever the string values hold, the first member with the key is found, its value where it
stands and what it says if it is a string. -/
theorem flat_lookup_exact (d : Document) (hd : d.Ok) (key : List UInt8) (hkey : IsKey key) :
    (∀ front m back, d.members = front ++ m :: back → (∀ m' ∈ front, m'.key ≠ key) →
      m.key = key → (∃ rest, d.text = d.before front m ++ (m.value.text ++ rest)) ∧
        valuePos d.text key = some (d.before front m).length ∧
        jsonGetStr d.text key = m.value.content) ∧
    ((∀ m ∈ d.members, m.key ≠ key) →
      valuePos d.text key = none ∧ jsonGetStr d.text key = none) := by
  refine ⟨fun front m back hmembers hfront hm => ?_, fun hother => ?_⟩
  · have htext := Document.text_eq_before hmembers
    have hpos := valuePos_document hd hkey hmembers hfront hm
    have hdrop : d.text.drop (d.before front m).length =
        m.value.text ++ (m.afterValue ++ following d.trail back) := by
      rw [htext, List.drop_left]
    have hvalue : m.value.Ok := (hd.members m (by rw [hmembers]; simp)).value
    exact ⟨⟨_, htext⟩, hpos, jsonGetStr_of_valuePos hpos hdrop hvalue⟩
  · have hnone := valuePos_document_eq_none hd hkey hother
    refine ⟨hnone, ?_⟩
    rw [jsonGetStr, hnone]
    rfl

/-- A string value that looks like the member behind it. -/
def decoyNote : Member :=
  { key := ascii "note", value := .str (ascii ",\\\"id\\\":9"), beforeKey := [0x20] }

def decoyId : Member :=
  { key := ascii "id", value := .raw (ascii "7"), beforeColon := [0x09], beforeValue := [0x20] }

def decoy : Document := { members := [decoyNote, decoyId], lead := [0x20] }

theorem decoy_ok : decoy.Ok := by
  have hnote : Escaped (ascii ",\\\"id\\\":9") :=
    .plain (by decide) (by decide) (.escape (.plain (by decide) (by decide)
      (.plain (by decide) (by decide) (.escape (.plain (by decide) (by decide)
        (.plain (by decide) (by decide) .nil))))))
  have hblanks : ∀ b ∈ ([0x20] : List UInt8), isBlank b = true := by simp [isBlank]
  refine ⟨fun m hm => ?_, hblanks, by simp [decoy], by simp [decoy]⟩
  rcases List.mem_pair.mp hm with rfl | rfl
  · exact ⟨(by decide : IsKey (ascii "note")).2, hnote, hblanks, by simp [decoyNote],
      by simp [decoyNote], by simp [decoyNote]⟩
  · exact ⟨(by decide : IsKey (ascii "id")).2, ⟨by decide, 0x37, rfl, rfl⟩, by simp [decoyId],
      by simp [decoyId, isBlank], hblanks, by simp [decoyId]⟩

theorem flat_lookup_exact_decoy :
    valuePos decoy.text (ascii "id") = some 29 ∧
      jsonGetStr decoy.text (ascii "note") = some (ascii ",\"id\":9") := by
  have hid := (flat_lookup_exact decoy decoy_ok (ascii "id") (by decide)).1 [decoyNote] decoyId []
    rfl (by decide) rfl
  have hnote := (flat_lookup_exact decoy decoy_ok (ascii "note") (by decide)).1 [] decoyNote
    [decoyId] rfl (by simp) rfl
  exact ⟨hid.2.1, hnote.2.2⟩

/-! ### Numbers of 64 bits -/

theorem saturated_eq_self_iff {n : UInt64} : saturated n = n ↔ n.toNat < 2 ^ 63 := by
  constructor
  · intro hself
    by_contra hlarge
    rw [saturated, if_neg hlarge] at hself
    rw [← hself] at hlarge
    exact hlarge (by decide)
  · exact saturated_eq_self

/-- The correlation ids, and the time and the volume of a tick, come back exactly from the lower
half of their range. -/
theorem ids_survive_iff (Double : Type) [FloatText Double] (hfloat : FloatText.Lawful Double) :
    (∀ o : Order Double, o.side = Side.buy ∨ o.side = Side.sell →
      ((∀ out : Order Double, ∃ o', parseOrder (encodeOrder o) out = (true, o') ∧ o'.id = o.id) ↔
        o.id.toNat < 2 ^ 63)) ∧
    (∀ a : Ack, (∀ out, ∃ a', parseAck (encodeAck a) out = (true, a') ∧ a'.id = a.id) ↔
      a.id.toNat < 2 ^ 63) ∧
    (∀ t : Tick Double, (∀ out : Tick Double, ∃ t', parseTick (encodeTick t) out = (true, t') ∧
      t'.time = t.time ∧ t'.volume = t.volume) ↔
        t.time.toNat < 2 ^ 63 ∧ t.volume.toNat < 2 ^ 63) := by
  have htrail : (0x22 : UInt8) ∉ ascii "\n" := by decide
  refine ⟨fun o hside => ?_, fun a => ?_, fun t => ?_⟩
  · rw [encodeOrder_eq_line, ← saturated_eq_self_iff]
    simp only [parseOrder_line hfloat htrail o hside, Prod.mk.injEq, true_and, exists_eq_left']
    exact ⟨fun h => h {}, fun h _ => h⟩
  · rw [encodeAck_eq_line Double, ← saturated_eq_self_iff]
    simp only [parseAck_line hfloat htrail, Prod.mk.injEq, true_and, exists_eq_left']
    exact ⟨fun h => h {}, fun h _ => h⟩
  · rw [encodeTick_eq_line, ← saturated_eq_self_iff, ← saturated_eq_self_iff]
    simp only [parseTick_line hfloat htrail, Prod.mk.injEq, true_and, exists_eq_left']
    exact ⟨fun h => h {}, fun h _ => h⟩

/-- An order with the first id of the upper half. -/
def upperOrder : Order Int := { id := 0x8000000000000000, symbol := ascii "X", side := Side.buy }

theorem ids_survive_iff_sample :
    ∃ o', parseOrder (encodeOrder { upperOrder with id := 7 }) ({} : Order Int) = (true, o') ∧
      o'.id = 7 :=
  ((ids_survive_iff Int wholeNumbers_lawful).1 { upperOrder with id := 7 } (Or.inl rfl)).mpr
    (by decide) {}

theorem upperOrder_id_lost :
    ∃ o', parseOrder (encodeOrder upperOrder) ({} : Order Int) = (true, o') ∧
      o'.id = 0x7FFFFFFFFFFFFFFF ∧ o'.id ≠ upperOrder.id := by
  refine ⟨{ upperOrder.received with id := saturated upperOrder.id }, ?_, rfl, by decide⟩
  rw [encodeOrder_eq_line, parseOrder_line wholeNumbers_lawful (by decide) _ (Or.inl rfl)]

end HftOrderbook.Mt5
