import HftOrderbook.Library.ByteText
import HftOrderbook.Library.Decimal

/-!
# FIX messages

A message is a list of `tag=value` fields, each ended by a SOH byte. `encode` puts the length of the
body in front and the byte sum behind; `parse` takes every field of a text in turn, those included.
-/

namespace HftOrderbook.Fix

open ByteText Decimal

def SOH : UInt8 := 0x01

structure Message where
  fields : List (Int32 × List UInt8) := []
  deriving DecidableEq

namespace Message

def set (m : Message) (t : Int32) (v : List UInt8) : Message := ⟨m.fields ++ [(t, v)]⟩

def setInt (m : Message) (t : Int32) (v : Int64) : Message := m.set t (signedNumeral v.toInt)

def setChar (m : Message) (t : Int32) (c : UInt8) : Message := m.set t [c]

/-- The value of the first field with the tag. -/
def get (m : Message) (t : Int32) : Option (List UInt8) :=
  (m.fields.find? fun f => f.1 == t).map Prod.snd

end Message

/-- The sum is an `unsigned`. -/
def checksum (s : List UInt8) : UInt32 :=
  s.foldl (fun sum c => sum + c.toUInt32) 0 % 256

def encodeField (f : Int32 × List UInt8) : List UInt8 :=
  signedNumeral f.1.toInt ++ ascii "=" ++ f.2 ++ [SOH]

def encode (beginString msgType : List UInt8) (body : Message) : List UInt8 :=
  let b := ascii "35=" ++ msgType ++ [SOH] ++ body.fields.flatMap encodeField
  let head := ascii "8=" ++ beginString ++ [SOH] ++ ascii "9=" ++ numeral b.length ++ [SOH]
  let m := head ++ b
  let cs := padded 3 (checksum m).toNat
  m ++ (ascii "10=" ++ cs ++ [SOH])

/-- The loop of `parse` from an offset on, `none` if `fuel` rounds were not enough. -/
def parseFrom (s : List UInt8) : Nat → Nat → Option (List (Int32 × List UInt8))
  | 0, _ => none
  | fuel + 1, i =>
      if i < s.length then
        match find s (ascii "=") i with
        | none => some []
        | some eq =>
            match find s [SOH] (eq + 1) with
            | none => some []
            | some soh =>
                (parseFrom s fuel (soh + 1)).map fun fields =>
                  (atoi (substr s i (eq - i)), substr s (eq + 1) (soh - eq - 1)) :: fields
      else some []

/-- What `parse` returns and what it leaves in `out`. -/
def parse (s : List UInt8) : Option (Bool × Message) :=
  (parseFrom s (s.length + 1) 0).map fun fields => (!fields.isEmpty, ⟨fields⟩)

def validChecksum (s : List UInt8) : Bool :=
  match rfind (SOH :: ascii "10=") s with
  | none => false
  | some p =>
      let want := checksum (substr s 0 (p + 1))
      let got := substr s (p + 1 + 3) 3
      atoi got == want.toInt32

/-! ### New orders -/

inductive Side
  | buy
  | sell
  deriving DecidableEq

def Side.char : Side → UInt8
  | .buy => 0x31
  | .sell => 0x32

inductive OrdType
  | market
  | limit
  deriving DecidableEq

def OrdType.char : OrdType → UInt8
  | .market => 0x31
  | .limit => 0x32

/-- The call of the C library that prints a double with `%.4f`. -/
class PriceText (Double : Type) where
  snprintf : Double → List UInt8

/-- No such text has a control character in it. -/
def PriceText.Lawful (Double : Type) [PriceText Double] : Prop :=
  ∀ px : Double, SOH ∉ PriceText.snprintf px

/-- The buffer has room for 31 characters. -/
def priceStr {Double : Type} [PriceText Double] (px : Double) : List UInt8 :=
  (PriceText.snprintf px).take 31

namespace Tag

def SenderCompID : Int32 := 49

def TargetCompID : Int32 := 56

def MsgSeqNum : Int32 := 34

def ClOrdID : Int32 := 11

def Symbol : Int32 := 55

def Side : Int32 := 54

def OrderQty : Int32 := 38

def OrdType : Int32 := 40

def Price : Int32 := 44

end Tag

/-- The fields that `new_order_single` sets. -/
def newOrderFields {Double : Type} [PriceText Double] (sender target : List UInt8) (seq : Int64)
    (clordid symbol : List UInt8) (side : Side) (qty : Int64) (type : OrdType) (price : Double) :
    Message :=
  let m : Message := {}
  let m := m.set Tag.SenderCompID sender
  let m := m.set Tag.TargetCompID target
  let m := m.setInt Tag.MsgSeqNum seq
  let m := m.set Tag.ClOrdID clordid
  let m := m.set Tag.Symbol symbol
  let m := m.setChar Tag.Side side.char
  let m := m.setInt Tag.OrderQty qty
  let m := m.setChar Tag.OrdType type.char
  if type = .limit then m.set Tag.Price (priceStr price) else m

def newOrderSingle {Double : Type} [PriceText Double] (sender target : List UInt8) (seq : Int64)
    (clordid symbol : List UInt8) (side : Side) (qty : Int64) (type : OrdType) (price : Double) :
    List UInt8 :=
  encode (ascii "FIX.4.4") (ascii "D")
    (newOrderFields sender target seq clordid symbol side qty type price)

/-! ### Fields -/

theorem equals_not_mem_signedNumeral (z : Int) : (0x3D : UInt8) ∉ signedNumeral z :=
  not_mem_signedNumeral (by decide) (by decide) z

theorem soh_not_mem_signedNumeral (z : Int) : SOH ∉ signedNumeral z :=
  not_mem_signedNumeral (by decide) (by decide) z

theorem soh_not_mem_of_isDigit {text : List UInt8} (htext : ∀ b ∈ text, isDigit b = true) :
    SOH ∉ text := fun hmem => absurd (htext SOH hmem) (by decide)

/-- One round of the loop takes the text up to an equals sign, and the text behind it up to the end
of its field. -/
theorem parseFrom_round (pre : List UInt8) {key text : List UInt8} (hkey : (0x3D : UInt8) ∉ key)
    (htext : SOH ∉ text) (rest : List UInt8) (fuel : Nat) :
    parseFrom (pre ++ (key ++ 0x3D :: (text ++ SOH :: rest))) (fuel + 1) pre.length =
      (parseFrom ((pre ++ (key ++ 0x3D :: (text ++ [SOH]))) ++ rest) fuel
        (pre ++ (key ++ 0x3D :: (text ++ [SOH]))).length).map ((atoi key, text) :: ·) := by
  set s := pre ++ (key ++ 0x3D :: (text ++ SOH :: rest)) with hs
  have hshift : s = (pre ++ (key ++ [0x3D])) ++ (text ++ SOH :: rest) := by
    simp [hs]
  have hlength : (pre ++ (key ++ [0x3D])).length = pre.length + key.length + 1 := by
    simp [Nat.add_assoc]
  have hequals : find s (ascii "=") pre.length = some (pre.length + key.length) :=
    find_singleton hkey _ _
  have hsoh : find s [SOH] (pre.length + key.length + 1) =
      some (pre.length + key.length + 1 + text.length) := by
    rw [hshift, ← hlength]
    exact find_singleton htext _ _
  have hkeyText : substr s pre.length key.length = key := substr_append _
  have hvalueText : substr s (pre.length + key.length + 1) text.length = text := by
    rw [hshift, ← hlength]
    exact substr_append _
  have hnext : (pre ++ (key ++ 0x3D :: (text ++ [SOH]))).length =
      pre.length + key.length + 1 + text.length + 1 := by
    simp only [List.length_append, List.length_cons, List.length_nil]
    omega
  have hsame : (pre ++ (key ++ 0x3D :: (text ++ [SOH]))) ++ rest = s := by
    simp [hs]
  have hlt : pre.length < s.length := by
    simp [hs]
  have heq : pre.length + key.length - pre.length = key.length := by omega
  have hcount : pre.length + key.length + 1 + text.length - (pre.length + key.length) - 1 =
      text.length := by omega
  rw [parseFrom, if_pos hlt, hequals]
  dsimp only
  rw [hsoh]
  dsimp only
  rw [heq, hcount, hkeyText, hvalueText, hsame, hnext]

theorem parseFrom_field {pre rest : List UInt8} {fuel : Nat} {f : Int32 × List UInt8}
    (hvalue : SOH ∉ f.2) :
    parseFrom (pre ++ (encodeField f ++ rest)) (fuel + 1) pre.length =
      (parseFrom ((pre ++ encodeField f) ++ rest) fuel (pre ++ encodeField f).length).map
        (f :: ·) := by
  have hfield : encodeField f = signedNumeral f.1.toInt ++ 0x3D :: (f.2 ++ [SOH]) := by
    rw [encodeField, List.append_assoc, List.append_assoc]
    rfl
  have hround := parseFrom_round pre (equals_not_mem_signedNumeral f.1.toInt) hvalue rest fuel
  rw [atoi_signedNumeral, ← hfield] at hround
  rw [← hround, hfield]
  simp only [List.append_assoc, List.cons_append, List.nil_append]

theorem parseFrom_fields (fields : List (Int32 × List UInt8)) (hvalues : ∀ f ∈ fields, SOH ∉ f.2) :
    ∀ (pre : List UInt8) (fuel : Nat), fields.length < fuel →
      parseFrom (pre ++ fields.flatMap encodeField) fuel pre.length = some fields := by
  induction fields with
  | nil =>
      intro pre fuel hfuel
      obtain ⟨fuel, rfl⟩ : ∃ n, fuel = n + 1 := ⟨fuel - 1, by simp at hfuel; omega⟩
      rw [List.flatMap_nil, List.append_nil, parseFrom, if_neg (lt_irrefl _)]
  | cons f fields ih =>
      intro pre fuel hfuel
      obtain ⟨fuel, rfl⟩ : ∃ n, fuel = n + 1 := ⟨fuel - 1, by simp at hfuel; omega⟩
      rw [List.flatMap_cons, parseFrom_field (hvalues f List.mem_cons_self),
        ih (fun g hg => hvalues g (List.mem_cons_of_mem _ hg)) _ _ (by simpa using hfuel)]
      rfl

theorem length_le_encodeFields (fields : List (Int32 × List UInt8)) :
    fields.length ≤ (fields.flatMap encodeField).length := by
  induction fields with
  | nil => exact le_rfl
  | cons f fields ih =>
      rw [List.flatMap_cons, List.length_append, List.length_cons, encodeField, List.length_append,
        List.length_singleton]
      omega

theorem parse_fields {fields : List (Int32 × List UInt8)} (hvalues : ∀ f ∈ fields, SOH ∉ f.2) :
    parse (fields.flatMap encodeField) = some (!fields.isEmpty, ⟨fields⟩) := by
  have hlength := length_le_encodeFields fields
  have hfields := parseFrom_fields fields hvalues [] ((fields.flatMap encodeField).length + 1)
    (by omega)
  rw [List.nil_append, List.length_nil] at hfields
  rw [parse, hfields]
  rfl

/-! ### The checksum -/

theorem toNat_checksum (s : List UInt8) : (checksum s).toNat = (s.map UInt8.toNat).sum % 256 := by
  have hsum : ∀ sum : UInt32, (s.foldl (fun sum c => sum + c.toUInt32) sum).toNat =
      (sum.toNat + (s.map UInt8.toNat).sum) % 2 ^ 32 := by
    induction s with
    | nil =>
        intro sum
        exact (Nat.mod_eq_of_lt sum.toNat_lt).symm
    | cons c s ih =>
        intro sum
        rw [List.foldl_cons, ih, UInt32.toNat_add, UInt8.toNat_toUInt32, List.map_cons,
          List.sum_cons]
        omega
  rw [checksum, UInt32.toNat_mod, hsum]
  change (0 + _) % 2 ^ 32 % 256 = _
  omega

/-! ### The round trip -/

theorem encode_eq_fields (beginString msgType : List UInt8) (body : Message) :
    ∃ middle : List UInt8, middle.getLast? = some SOH ∧
      ∃ front, front = ascii "8=" ++ beginString ++ [SOH] ++ ascii "9=" ++
          numeral middle.length ++ [SOH] ++ middle ∧
        encode beginString msgType body =
          front ++ (ascii "10=" ++ padded 3 (checksum front).toNat ++ [SOH]) ∧
        encode beginString msgType body =
          ((8, beginString) :: (9, numeral middle.length) :: (35, msgType) ::
            (body.fields ++ [(10, padded 3 (checksum front).toNat)])).flatMap encodeField := by
  refine ⟨ascii "35=" ++ msgType ++ [SOH] ++ body.fields.flatMap encodeField, ?_, _, rfl, rfl, ?_⟩
  · cases body.fields using List.reverseRecOn with
    | nil => rw [List.flatMap_nil, List.append_nil, List.getLast?_concat]
    | append_singleton fields f =>
        rw [List.flatMap_append, List.flatMap_singleton, encodeField, ← List.append_assoc,
          ← List.append_assoc, List.getLast?_concat]
  · have hbegin : signedNumeral (8 : Int32).toInt ++ ascii "=" = ascii "8=" := by decide
    have hlength : signedNumeral (9 : Int32).toInt ++ ascii "=" = ascii "9=" := by decide
    have htype : signedNumeral (35 : Int32).toInt ++ ascii "=" = ascii "35=" := by decide
    have hcheck : signedNumeral (10 : Int32).toInt ++ ascii "=" = ascii "10=" := by decide
    rw [List.flatMap_cons, List.flatMap_cons, List.flatMap_cons, List.flatMap_append,
      List.flatMap_singleton]
    simp only [encodeField, hbegin, hlength, htype, hcheck, encode, List.append_assoc]

/-- What is sent is read back field by field, the length and the byte sum among them. -/
theorem parse_encode (beginString msgType : List UInt8) (body : Message)
    (hbegin : SOH ∉ beginString) (htype : SOH ∉ msgType) (hbody : ∀ f ∈ body.fields, SOH ∉ f.2) :
    ∃ middle front length check : List UInt8,
      length = numeral middle.length ∧
      front = ascii "8=" ++ beginString ++ [SOH] ++ ascii "9=" ++ length ++ [SOH] ++ middle ∧
      middle.getLast? = some SOH ∧
      check.length = 3 ∧ (∀ b ∈ check, isDigit b = true) ∧
      value check = (front.map UInt8.toNat).sum % 256 ∧
      encode beginString msgType body = front ++ (ascii "10=" ++ check ++ [SOH]) ∧
      parse (encode beginString msgType body) =
        some (true, ⟨(8, beginString) :: (9, length) :: (35, msgType) ::
          (body.fields ++ [(10, check)])⟩) := by
  obtain ⟨middle, hlast, front, hfront, hencode, hfields⟩ :=
    encode_eq_fields beginString msgType body
  have hsum := toNat_checksum front
  have hdigits : ∀ b ∈ padded 3 (checksum front).toNat, isDigit b = true := fun b =>
    isDigit_of_mem_padded
  refine ⟨middle, front, _, padded 3 (checksum front).toNat, rfl, hfront, hlast, ?_, hdigits, ?_,
    hencode, ?_⟩
  · exact length_padded (by omega) (by omega)
  · rw [value_padded, hsum]
  · rw [hfields, parse_fields]
    · rfl
    · intro f hf
      rcases List.mem_cons.mp hf with rfl | hf
      · exact hbegin
      rcases List.mem_cons.mp hf with rfl | hf
      · exact soh_not_mem_of_isDigit fun b => isDigit_of_mem_numeral
      rcases List.mem_cons.mp hf with rfl | hf
      · exact htype
      rcases List.mem_append.mp hf with hf | hf
      · exact hbody f hf
      · rw [List.mem_singleton.mp hf]
        exact soh_not_mem_of_isDigit hdigits

/-- A field with a negative tag and no value, and a value with an equals sign. -/
theorem parse_encode_sample :
    ∃ length check : List UInt8, parse (encode (ascii "FIX.4.4") (ascii "D")
        ⟨[(-5, []), (58, ascii "a=b")]⟩) =
      some (true, ⟨[(8, ascii "FIX.4.4"), (9, length), (35, ascii "D"), (-5, []),
        (58, ascii "a=b"), (10, check)]⟩) := by
  obtain ⟨-, -, length, check, -, -, -, -, -, -, -, hparse⟩ :=
    parse_encode (ascii "FIX.4.4") (ascii "D") ⟨[(-5, []), (58, ascii "a=b")]⟩ (by decide)
      (by decide) (by decide)
  exact ⟨length, check, hparse⟩

end HftOrderbook.Fix
