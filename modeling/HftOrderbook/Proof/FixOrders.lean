import HftOrderbook.Proof.FixSegments

/-!
# What identifiers can do to an order

The text of an identifier goes into a message as it is. Behind a byte that ends a field it makes
fields of its own, and a last part without an equals sign takes the tag of the field that the order
has next. `get` takes the first field with a tag, so what is made in front of a field can hide it.
-/

namespace HftOrderbook.Fix

open ByteText Decimal

/-! ### Fields read back -/

/-- The bare segment that is left in front of what comes next. -/
def bareAfter : Option (List UInt8) → List (List UInt8) → Option (List UInt8)
  | bare, [] => bare
  | bare, seg :: segs =>
      if HasEquals seg then bareAfter none segs else bareAfter (bare.or (some seg)) segs

theorem taken_append (bare : Option (List UInt8)) (segs segs' : List (List UInt8)) :
    taken bare (segs ++ segs') = taken bare segs ++ taken (bareAfter bare segs) segs' := by
  induction segs generalizing bare with
  | nil => rfl
  | cons seg segs ih =>
      rw [List.cons_append, taken, taken, bareAfter]
      split_ifs
      · rw [ih, List.cons_append]
      · exact ih _

/-- The text up to the first end of a field. -/
def firstPart (text : List UInt8) : List UInt8 := (text.splitOn SOH).headD []

/-- The fields that the rest of the text makes. -/
def smuggled (text : List UInt8) : List (Int32 × List UInt8) := taken none (text.splitOn SOH).tail

/-- The tag that the next field is read with. -/
def tagAfter (text : List UInt8) (tag : Int32) : Int32 :=
  ((bareAfter none (text.splitOn SOH).tail).map atoi).getD tag

theorem splitOn_of_no_soh {text : List UInt8} (htext : SOH ∉ text) : text.splitOn SOH = [text] :=
  List.splitOn_eq_singleton htext

theorem splitOn_append_of_no_soh {pre : List UInt8} (hpre : SOH ∉ pre) (text : List UInt8) :
    (pre ++ text).splitOn SOH = (pre ++ firstPart text) :: (text.splitOn SOH).tail := by
  obtain ⟨segs, tail, hsegs, htail, rfl⟩ := exists_segments SOH text
  cases segs with
  | nil =>
      have hboth : SOH ∉ pre ++ tail := by
        rw [List.mem_append, not_or]
        exact ⟨hpre, htail⟩
      rw [List.flatMap_nil, List.nil_append, firstPart, splitOn_of_no_soh htail,
        splitOn_of_no_soh hboth]
      rfl
  | cons seg segs =>
      obtain ⟨hseg, hsegs'⟩ := List.forall_mem_cons.mp hsegs
      have hboth : ∀ seg' ∈ (pre ++ seg) :: segs, SOH ∉ seg' := by
        refine List.forall_mem_cons.mpr ⟨?_, hsegs'⟩
        rw [List.mem_append, not_or]
        exact ⟨hpre, hseg⟩
      have hsplit := splitOn_flatMap hboth htail
      rw [List.flatMap_cons, List.append_assoc, List.append_assoc, List.append_assoc] at hsplit
      rw [firstPart, splitOn_flatMap hsegs htail, List.flatMap_cons, List.append_assoc,
        List.append_assoc, hsplit]
      rfl

theorem soh_not_mem_tag (tag : Int32) : SOH ∉ signedNumeral tag.toInt ++ [0x3D] := by
  intro hmem
  rcases List.mem_append.mp hmem with hmem | hmem
  · exact soh_not_mem_signedNumeral _ hmem
  · exact absurd (List.mem_singleton.mp hmem) (by decide)

/-- The segments of encoded fields. -/
theorem segments_encodeFields (fields : List (Int32 × List UInt8)) :
    segments SOH (fields.flatMap encodeField) = fields.flatMap fun f =>
      (signedNumeral f.1.toInt ++ 0x3D :: firstPart f.2) :: (f.2.splitOn SOH).tail := by
  have hsplit : (fields.flatMap encodeField).splitOn SOH = (fields.flatMap fun f =>
      (signedNumeral f.1.toInt ++ 0x3D :: firstPart f.2) :: (f.2.splitOn SOH).tail) ++ [[]] := by
    induction fields with
    | nil => rfl
    | cons f fields ih =>
        have hfield := splitOn_append_of_no_soh (soh_not_mem_tag f.1) f.2
        have hfirst : encodeField f ++ fields.flatMap encodeField =
            (signedNumeral f.1.toInt ++ [0x3D] ++ f.2) ++ SOH :: fields.flatMap encodeField := by
          rw [encodeField, List.append_assoc _ [SOH], List.singleton_append]
          rfl
        rw [List.flatMap_cons, hfirst, List.splitOn_append_cons_self, hfield, ih, List.flatMap_cons,
          List.append_assoc, List.append_assoc, List.singleton_append]
  rw [segments, hsplit, List.dropLast_concat]

/-- The fields that are read where fields were written. -/
def readBack : Option (List UInt8) → List (Int32 × List UInt8) → List (Int32 × List UInt8)
  | _, [] => []
  | bare, f :: fields =>
      ((bare.map atoi).getD f.1, firstPart f.2) ::
        (smuggled f.2 ++ readBack (bareAfter none (f.2.splitOn SOH).tail) fields)

theorem keyOf_append {key : List UInt8} (hkey : (0x3D : UInt8) ∉ key) (text : List UInt8) :
    keyOf (key ++ 0x3D :: text) = key ∧ textOf (key ++ 0x3D :: text) = text := by
  have hne : ∀ b ∈ key, (b != 0x3D) = true := fun b hb =>
    bne_iff_ne.mpr fun heq => hkey (heq ▸ hb)
  constructor
  · rw [keyOf, List.takeWhile_append_of_pos hne,
      List.takeWhile_cons_of_neg (p := (· != 0x3D)) (by decide), List.append_nil]
  · rw [textOf, List.dropWhile_append_of_pos hne,
      List.dropWhile_cons_of_neg (p := (· != 0x3D)) (by decide), List.tail_cons]

theorem taken_encodeFields (bare : Option (List UInt8)) (fields : List (Int32 × List UInt8)) :
    taken bare (fields.flatMap fun f =>
      (signedNumeral f.1.toInt ++ 0x3D :: firstPart f.2) :: (f.2.splitOn SOH).tail) =
        readBack bare fields := by
  induction fields generalizing bare with
  | nil => rfl
  | cons f fields ih =>
      have hequals : HasEquals (signedNumeral f.1.toInt ++ 0x3D :: firstPart f.2) :=
        List.mem_append_right _ List.mem_cons_self
      obtain ⟨hkey, htext⟩ := keyOf_append (equals_not_mem_signedNumeral f.1.toInt) (firstPart f.2)
      have htag : atoi (bare.getD (signedNumeral f.1.toInt)) = (bare.map atoi).getD f.1 := by
        cases bare with
        | none => exact atoi_signedNumeral f.1
        | some bare => rfl
      rw [List.flatMap_cons, List.cons_append, taken, if_pos hequals, hkey, htext, htag,
        taken_append, ih, readBack, smuggled]

/-- Whatever the values are, `parse` reads the fields of a message so. -/
theorem parse_encodeFields (fields : List (Int32 × List UInt8)) :
    parse (fields.flatMap encodeField) =
      some (!(readBack none fields).isEmpty, ⟨readBack none fields⟩) := by
  rw [parse_eq_taken, segments_encodeFields, taken_encodeFields]

theorem readBack_of_no_soh {text : List UInt8} (htext : SOH ∉ text) (bare : Option (List UInt8))
    (tag : Int32) (fields : List (Int32 × List UInt8)) :
    readBack bare ((tag, text) :: fields) =
      ((bare.map atoi).getD tag, text) :: readBack none fields := by
  rw [readBack, firstPart, smuggled, splitOn_of_no_soh htext]
  rfl

/-! ### Looking up -/

namespace Message

theorem get_append (fields fields' : List (Int32 × List UInt8)) (t : Int32) :
    get ⟨fields ++ fields'⟩ t = (get ⟨fields⟩ t).or (get ⟨fields'⟩ t) := by
  rw [get, List.find?_append]
  cases hfound : fields.find? fun f => f.1 == t with
  | none => rw [get, get, hfound]; rfl
  | some f => rw [get, get, hfound]; rfl

theorem get_cons (t tag : Int32) (v : List UInt8) (fields : List (Int32 × List UInt8)) :
    get ⟨(tag, v) :: fields⟩ t = if tag = t then some v else get ⟨fields⟩ t := by
  rw [get, List.find?_cons]
  split_ifs with htag
  · rw [beq_iff_eq.mpr htag]
    rfl
  · rw [beq_eq_false_iff_ne.mpr htag]
    rfl

theorem get_eq_none {fields : List (Int32 × List UInt8)} {t : Int32} (h : ∀ f ∈ fields, f.1 ≠ t) :
    get ⟨fields⟩ t = none := by
  rw [get, Option.map_eq_none_iff, List.find?_eq_none]
  exact fun f hf htag => h f hf (beq_iff_eq.mp htag)

theorem exists_of_get {m : Message} {t : Int32} {v : List UInt8} (h : m.get t = some v) :
    ∃ f ∈ m.fields, f.2 = v := by
  obtain ⟨f, hf, hv⟩ := Option.map_eq_some_iff.mp h
  exact ⟨f, List.mem_of_find?_eq_some hf, hv⟩

end Message

theorem soh_not_mem_of_mem_taken {segs : List (List UInt8)} (hsegs : ∀ seg ∈ segs, SOH ∉ seg)
    (bare : Option (List UInt8)) : ∀ f ∈ taken bare segs, SOH ∉ f.2 := by
  induction segs generalizing bare with
  | nil => exact fun f hf => absurd hf List.not_mem_nil
  | cons seg segs ih =>
      obtain ⟨hseg, hsegs⟩ := List.forall_mem_cons.mp hsegs
      rw [taken]
      split_ifs with hequals
      · exact List.forall_mem_cons.mpr ⟨soh_not_mem_textOf hequals hseg, ih hsegs none⟩
      · exact ih hsegs _

/-- No value that is read holds a byte that ends a field. -/
theorem soh_not_mem_of_parse {s : List UInt8} {ok : Bool} {m : Message}
    (h : parse s = some (ok, m)) : ∀ f ∈ m.fields, SOH ∉ f.2 := by
  obtain ⟨segs, tail, hsegs, htail, rfl⟩ := exists_segments SOH s
  rw [parse_eq_taken, segments_flatMap hsegs htail] at h
  obtain ⟨-, rfl⟩ := Prod.mk.inj (Option.some.inj h)
  exact soh_not_mem_of_mem_taken hsegs none

theorem or_some_eq_iff {found : Option (List UInt8)} {text : List UInt8} :
    found.or (some text) = some text ↔ ∀ v ∈ found, v = text := by
  cases found with
  | none => simp
  | some v => simp

/-! ### Orders -/

section Orders

variable {Double : Type} [PriceText Double] (sender target : List UInt8) (seq : Int64)
  (clordid symbol : List UInt8) (side : Side) (qty : Int64) (type : OrdType) (price : Double)

/-- The fields that are read between the sender of an order and its `ClOrdID`. -/
def ahead : List (Int32 × List UInt8) :=
  smuggled sender ++ (tagAfter sender Tag.TargetCompID, firstPart target) ::
    (smuggled target ++ [(tagAfter target Tag.MsgSeqNum, signedNumeral seq.toInt)])

/-- The fields that are read between the symbol of an order and its `OrderQty`. -/
def within : List (Int32 × List UInt8) :=
  smuggled symbol ++ [(tagAfter symbol Tag.Side, [side.char])]

/-- The identifiers make no field that hides one of the four in front of which it stands. -/
structure Contained : Prop where
  clordid_whole : SOH ∉ clordid
  clordid_first : ∀ v ∈ Message.get ⟨ahead sender target seq⟩ Tag.ClOrdID, v = clordid
  side_first : Message.get ⟨ahead sender target seq ++ within symbol side⟩ Tag.Side =
    some [side.char]
  qty_first : ∀ v ∈ Message.get ⟨ahead sender target seq ++ within symbol side⟩ Tag.OrderQty,
    v = signedNumeral qty.toInt
  ordType_first : ∀ v ∈ Message.get ⟨ahead sender target seq ++ within symbol side⟩ Tag.OrdType,
    v = [type.char]

theorem readBack_eq_self {fields : List (Int32 × List UInt8)} (h : ∀ f ∈ fields, SOH ∉ f.2) :
    readBack none fields = fields := by
  induction fields with
  | nil => rfl
  | cons f fields ih =>
      obtain ⟨hf, hfields⟩ := List.forall_mem_cons.mp h
      rw [readBack_of_no_soh hf, ih hfields]
      rfl

/-- The fields of an order, with those behind `OrdType` that no lookup of the four meets. -/
theorem newOrderSingle_eq_fields (hprice : PriceText.Lawful Double) :
    ∃ (length : List UInt8) (rest : List (Int32 × List UInt8)), SOH ∉ length ∧
      (∀ f ∈ rest, SOH ∉ f.2) ∧ (∀ f ∈ rest, f.1 = Tag.Price ∨ f.1 = 10) ∧
      newOrderSingle sender target seq clordid symbol side qty type price =
        ((8, ascii "FIX.4.4") :: (9, length) :: (35, ascii "D") :: (Tag.SenderCompID, sender) ::
          (Tag.TargetCompID, target) :: (Tag.MsgSeqNum, signedNumeral seq.toInt) ::
          (Tag.ClOrdID, clordid) :: (Tag.Symbol, symbol) :: (Tag.Side, [side.char]) ::
          (Tag.OrderQty, signedNumeral qty.toInt) :: (Tag.OrdType, [type.char]) ::
          rest).flatMap encodeField := by
  obtain ⟨middle, -, front, -, -, hfields⟩ := encode_eq_fields (ascii "FIX.4.4") (ascii "D")
    (newOrderFields sender target seq clordid symbol side qty type price)
  have hcheck : SOH ∉ padded 3 (checksum front).toNat :=
    soh_not_mem_of_isDigit fun _ => isDigit_of_mem_padded
  have hpriceText : SOH ∉ priceStr price := fun hmem => hprice price (List.mem_of_mem_take hmem)
  refine ⟨numeral middle.length, (if type = .limit then [(Tag.Price, priceStr price)] else []) ++
    [(10, padded 3 (checksum front).toNat)], soh_not_mem_of_isDigit fun _ => isDigit_of_mem_numeral,
    ?_, ?_, ?_⟩
  · rw [List.forall_mem_append]
    refine ⟨?_, by simpa using hcheck⟩
    split_ifs
    · simpa using hpriceText
    · simp
  · rw [List.forall_mem_append]
    refine ⟨?_, by simp⟩
    split_ifs
    · simp
    · simp
  · rw [newOrderSingle, hfields, newOrderFields]
    split_ifs
    · rfl
    · rfl

/-- An order read back, whatever its identifiers are. -/
theorem parse_newOrderSingle (hprice : PriceText.Lawful Double) :
    ∃ (length : List UInt8) (rest : List (Int32 × List UInt8)),
      (∀ f ∈ rest, f.1 = Tag.Price ∨ f.1 = 10) ∧
      parse (newOrderSingle sender target seq clordid symbol side qty type price) =
        some (true, ⟨(8, ascii "FIX.4.4") :: (9, length) :: (35, ascii "D") ::
          (Tag.SenderCompID, firstPart sender) :: (ahead sender target seq ++
          ((Tag.ClOrdID, firstPart clordid) :: (smuggled clordid ++
          ((tagAfter clordid Tag.Symbol, firstPart symbol) :: (within symbol side ++
          ((Tag.OrderQty, signedNumeral qty.toInt) :: (Tag.OrdType, [type.char]) ::
            rest))))))⟩) := by
  obtain ⟨length, rest, hlength, hrest, htags, horder⟩ := newOrderSingle_eq_fields sender target seq
    clordid symbol side qty type price hprice
  refine ⟨length, rest, htags, ?_⟩
  have hside : SOH ∉ [side.char] := by
    cases side
    · decide
    · decide
  have htype : SOH ∉ [type.char] := by
    cases type
    · decide
    · decide
  rw [horder, parse_encodeFields, readBack_of_no_soh (by decide), readBack_of_no_soh hlength,
    readBack_of_no_soh (by decide), readBack, readBack,
    readBack_of_no_soh (soh_not_mem_signedNumeral _), readBack, readBack, readBack_of_no_soh hside,
    readBack_of_no_soh (soh_not_mem_signedNumeral _), readBack_of_no_soh htype,
    readBack_eq_self hrest, ahead, within]
  simp only [List.append_assoc, List.cons_append, List.nil_append]
  rfl

/-- The four values are found as they were passed in. -/
def Found (m : Message) : Prop :=
  m.get Tag.Side = some [side.char] ∧ m.get Tag.OrderQty = some (signedNumeral qty.toInt) ∧
    m.get Tag.OrdType = some [type.char] ∧ m.get Tag.ClOrdID = some clordid

/-- The fields of an order whose `ClOrdID` is whole. -/
theorem found_fields_iff (length : List UInt8) {rest : List (Int32 × List UInt8)}
    (hrest : ∀ f ∈ rest, f.1 = Tag.Price ∨ f.1 = 10) :
    Found clordid side qty type ⟨(8, ascii "FIX.4.4") :: (9, length) :: (35, ascii "D") ::
      (Tag.SenderCompID, firstPart sender) :: (ahead sender target seq ++
      ((Tag.ClOrdID, clordid) :: (Tag.Symbol, firstPart symbol) :: (within symbol side ++
      ((Tag.OrderQty, signedNumeral qty.toInt) :: (Tag.OrdType, [type.char]) :: rest))))⟩ ↔
    (∀ v ∈ Message.get ⟨ahead sender target seq⟩ Tag.ClOrdID, v = clordid) ∧
    Message.get ⟨ahead sender target seq ++ within symbol side⟩ Tag.Side = some [side.char] ∧
    (∀ v ∈ Message.get ⟨ahead sender target seq ++ within symbol side⟩ Tag.OrderQty,
      v = signedNumeral qty.toInt) ∧
    ∀ v ∈ Message.get ⟨ahead sender target seq ++ within symbol side⟩ Tag.OrdType,
      v = [type.char] := by
  have hnone : ∀ t, t ≠ Tag.Price → t ≠ 10 → Message.get ⟨rest⟩ t = none := by
    intro t hprice hcheck
    refine Message.get_eq_none fun f hf htag => ?_
    rcases hrest f hf with htag' | htag'
    · exact hprice (htag.symm.trans htag')
    · exact hcheck (htag.symm.trans htag')
  have hhead : ∀ (t : Int32) (fields : List (Int32 × List UInt8)), 8 ≠ t → 9 ≠ t → 35 ≠ t →
      Tag.SenderCompID ≠ t → Message.get ⟨(8, ascii "FIX.4.4") :: (9, length) :: (35, ascii "D") ::
        (Tag.SenderCompID, firstPart sender) :: fields⟩ t = Message.get ⟨fields⟩ t := by
    intro t fields hbegin hlength htype hsender
    rw [Message.get_cons, if_neg hbegin, Message.get_cons, if_neg hlength, Message.get_cons,
      if_neg htype, Message.get_cons, if_neg hsender]
  have hmiddle : ∀ (t : Int32) (fields : List (Int32 × List UInt8)), Tag.ClOrdID ≠ t →
      Tag.Symbol ≠ t → Message.get ⟨ahead sender target seq ++ ((Tag.ClOrdID, clordid) ::
        (Tag.Symbol, firstPart symbol) :: (within symbol side ++ fields))⟩ t =
      (Message.get ⟨ahead sender target seq ++ within symbol side⟩ t).or
        (Message.get ⟨fields⟩ t) := by
    intro t fields hclordid hsymbol
    rw [Message.get_append, Message.get_cons, if_neg hclordid, Message.get_cons, if_neg hsymbol,
      Message.get_append, Message.get_append, Option.or_assoc]
  have hclordid : ∀ fields, Message.get ⟨ahead sender target seq ++
      ((Tag.ClOrdID, clordid) :: fields)⟩ Tag.ClOrdID =
      (Message.get ⟨ahead sender target seq⟩ Tag.ClOrdID).or (some clordid) := by
    intro fields
    rw [Message.get_append, Message.get_cons, if_pos rfl]
  unfold Found
  rw [hhead _ _ (by decide) (by decide) (by decide) (by decide),
    hhead _ _ (by decide) (by decide) (by decide) (by decide),
    hhead _ _ (by decide) (by decide) (by decide) (by decide),
    hhead _ _ (by decide) (by decide) (by decide) (by decide), hclordid,
    hmiddle Tag.Side _ (by decide) (by decide), hmiddle Tag.OrderQty _ (by decide) (by decide),
    hmiddle Tag.OrdType _ (by decide) (by decide), or_some_eq_iff]
  have hside : Message.get ⟨(Tag.OrderQty, signedNumeral qty.toInt) ::
      (Tag.OrdType, [type.char]) :: rest⟩ Tag.Side = none := by
    rw [Message.get_cons, if_neg (by decide), Message.get_cons, if_neg (by decide),
      hnone _ (by decide) (by decide)]
  have hqty : Message.get ⟨(Tag.OrderQty, signedNumeral qty.toInt) ::
      (Tag.OrdType, [type.char]) :: rest⟩ Tag.OrderQty = some (signedNumeral qty.toInt) := by
    rw [Message.get_cons, if_pos rfl]
  have htype : Message.get ⟨(Tag.OrderQty, signedNumeral qty.toInt) ::
      (Tag.OrdType, [type.char]) :: rest⟩ Tag.OrdType = some [type.char] := by
    rw [Message.get_cons, if_neg (by decide), Message.get_cons, if_pos rfl]
  rw [hside, hqty, htype, Option.or_none, or_some_eq_iff, or_some_eq_iff]
  tauto

theorem found_iff (hprice : PriceText.Lawful Double) :
    (∃ m, parse (newOrderSingle sender target seq clordid symbol side qty type price) =
      some (true, m) ∧ Found clordid side qty type m) ↔
    Contained sender target seq clordid symbol side qty type := by
  obtain ⟨length, rest, htags, hparse⟩ := parse_newOrderSingle sender target seq clordid symbol side
    qty type price hprice
  by_cases hsoh : SOH ∈ clordid
  · refine iff_of_false ?_ fun hcontained => hcontained.clordid_whole hsoh
    rintro ⟨m, hm, hfound⟩
    obtain ⟨f, hf, hclordid⟩ := Message.exists_of_get hfound.2.2.2
    exact soh_not_mem_of_parse hm f hf (hclordid ▸ hsoh)
  · have hfirst : firstPart clordid = clordid := by
      rw [firstPart, splitOn_of_no_soh hsoh]
      rfl
    have hnothing : smuggled clordid = [] := by
      rw [smuggled, splitOn_of_no_soh hsoh]
      rfl
    have htag : tagAfter clordid Tag.Symbol = Tag.Symbol := by
      rw [tagAfter, splitOn_of_no_soh hsoh]
      rfl
    have hfields := found_fields_iff sender target seq clordid symbol side qty type length htags
    rw [hfirst, hnothing, htag, List.nil_append] at hparse
    constructor
    · rintro ⟨m, hm, hfound⟩
      obtain ⟨-, rfl⟩ := Prod.mk.inj (Option.some.inj (hparse.symm.trans hm))
      obtain ⟨hclordid, hside, hqty, htype⟩ := hfields.mp hfound
      exact ⟨hsoh, hclordid, hside, hqty, htype⟩
    · rintro ⟨-, hclordid, hside, hqty, htype⟩
      exact ⟨_, hparse, hfields.mpr ⟨hclordid, hside, hqty, htype⟩⟩

theorem contained_of_no_soh (hsender : SOH ∉ sender) (htarget : SOH ∉ target)
    (hclordid : SOH ∉ clordid) (hsymbol : SOH ∉ symbol) :
    Contained sender target seq clordid symbol side qty type := by
  have hahead : ahead sender target seq =
      [(Tag.TargetCompID, target), (Tag.MsgSeqNum, signedNumeral seq.toInt)] := by
    rw [ahead, smuggled, smuggled, tagAfter, tagAfter, firstPart, splitOn_of_no_soh hsender,
      splitOn_of_no_soh htarget]
    rfl
  have hwithin : within symbol side = [(Tag.Side, [side.char])] := by
    rw [within, smuggled, tagAfter, splitOn_of_no_soh hsymbol]
    rfl
  refine ⟨hclordid, ?_, ?_, ?_, ?_⟩
  · rw [hahead]
    exact fun v hv => by cases hv
  · rw [hahead, hwithin]
    rfl
  · rw [hahead, hwithin]
    exact fun v hv => by cases hv
  · rw [hahead, hwithin]
    exact fun v hv => by cases hv

end Orders

/-- The four values are read back exactly when the identifiers hide none of them. -/
theorem order_fields_found_iff (Double : Type) [PriceText Double] (hprice : PriceText.Lawful Double)
    (sender target : List UInt8) (seq : Int64) (clordid symbol : List UInt8) (side : Side)
    (qty : Int64) (type : OrdType) (price : Double) :
    (∃ m, parse (newOrderSingle sender target seq clordid symbol side qty type price) =
      some (true, m) ∧ Found clordid side qty type m) ↔
    Contained sender target seq clordid symbol side qty type :=
  found_iff sender target seq clordid symbol side qty type price hprice

/-- Whole numbers of dollars. -/
instance wholeDollars : PriceText Int where
  snprintf px := signedNumeral px ++ ascii ".0000"

theorem wholeDollars_lawful : PriceText.Lawful Int := by
  intro px hmem
  rcases List.mem_append.mp hmem with hmem | hmem
  · exact soh_not_mem_signedNumeral px hmem
  · exact absurd hmem (by decide)

theorem order_fields_found_iff_sample :
    ∃ m, parse (newOrderSingle (ascii "HFTOB") (ascii "EXCH") 1 (ascii "CLORD-1") (ascii "AAPL")
      .buy 100 .limit (150 : Int)) = some (true, m) ∧ Found (ascii "CLORD-1") .buy 100 .limit m :=
  (order_fields_found_iff Int wholeDollars_lawful _ _ _ _ _ _ _ _ _).mpr
    (contained_of_no_soh _ _ _ _ _ _ _ _ (by decide) (by decide) (by decide) (by decide))

/-- A symbol that carries a side. -/
def sidedSymbol : List UInt8 := ascii "AAPL" ++ SOH :: ascii "54=2"

theorem sidedSymbol_changes_side :
    (parse (newOrderSingle (ascii "HFTOB") (ascii "EXCH") 1 (ascii "CLORD-1") sidedSymbol .buy 100
      .market (0 : Int))).map (fun result => result.2.get Tag.Side) = some (some [Side.sell.char]) ∧
    Side.sell.char ≠ Side.buy.char := by
  decide +kernel

end HftOrderbook.Fix
