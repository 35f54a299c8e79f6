import HftOrderbook.Mt5.Protocol

/-!
# The MT5 codec

Every encoder writes a flat object, in which the search of `value_pos` finds exactly the members, so
every reader sees the text its writer put behind the key.
-/

namespace HftOrderbook.Mt5

open ByteText Decimal FlatJson

/-! ### The search -/

theorem drop_skipBlanks (s : List UInt8) (i : Nat) :
    s.drop (skipBlanks s i) = (s.drop i).dropWhile isBlank := by
  have hsplit := List.takeWhile_append_dropWhile (p := isBlank) (l := s.drop i)
  rw [skipBlanks, ← List.drop_drop]
  exact (congrArg (List.drop _) hsplit).symm.trans List.drop_left

theorem skipBlanks_le {s : List UInt8} {i : Nat} (hi : i ≤ s.length) :
    skipBlanks s i ≤ s.length := by
  have hle := (List.takeWhile_prefix isBlank (l := s.drop i)).length_le
  rw [List.length_drop] at hle
  rw [skipBlanks]
  omega

theorem opens_eq_skipBack (pre rest : List UInt8) :
    (skipBack (pre ++ rest) pre.length == 0 ||
      (pre ++ rest)[skipBack (pre ++ rest) pre.length - 1]? == some 0x7B ||
      (pre ++ rest)[skipBack (pre ++ rest) pre.length - 1]? == some 0x2C) = opens pre := by
  induction pre using List.reverseRecOn generalizing rest with
  | nil => rfl
  | append_singleton pre b ih =>
      have hget : (pre ++ [b] ++ rest)[pre.length]? = some b := by simp
      have hgetD : (pre ++ [b] ++ rest).getD pre.length 0 = b := by
        rw [List.getD_eq_getElem?_getD, hget]
        rfl
      rw [List.length_append, List.length_singleton, skipBack, hgetD]
      by_cases hblank : isBlank b = true
      · rw [if_pos hblank, opens_append_blanks (by simpa using hblank), List.append_assoc]
        exact ih _
      · rw [if_neg hblank, opens_concat (Bool.eq_false_iff.mpr hblank), Nat.add_sub_cancel, hget]
        rfl

/-- A match that is a key is one for the search through the text, and leads to the same place. -/
theorem match_eq_lookup {key rest : List UInt8} (pre : List UInt8) (hmatch : quoted key <+: rest) :
    let s := pre ++ rest
    let p := skipBack s pre.length
    let c := skipBlanks s (pre.length + (quoted key).length)
    ((p == 0 || s[p - 1]? == some 0x7B || s[p - 1]? == some 0x2C) && s[c]? == some 0x3A) =
        isKeyHere key pre rest ∧
      (isKeyHere key pre rest = true → skipBlanks s (c + 1) =
        s.length - ((afterKey key rest).tail.dropWhile isBlank).length) := by
  intro s p c
  have hafter : s.drop c = afterKey key rest := by
    rw [drop_skipBlanks, ← List.drop_drop, List.drop_left]
    rfl
  have hcolon : s[c]? = (afterKey key rest).head? := by
    rw [← hafter, List.head?_drop]
  have hhere : ((p == 0 || s[p - 1]? == some 0x7B || s[p - 1]? == some 0x2C) &&
      s[c]? == some 0x3A) = isKeyHere key pre rest := by
    rw [isKeyHere, List.isPrefixOf_iff_prefix.mpr hmatch, Bool.true_and, hcolon]
    exact congrArg (· && _) (opens_eq_skipBack pre rest)
  refine ⟨hhere, fun htrue => ?_⟩
  rw [← hhere, Bool.and_eq_true, beq_iff_eq] at htrue
  have hlt : c < s.length := (List.getElem?_eq_some_iff.mp htrue.2).1
  have hle := skipBlanks_le (s := s) (i := c + 1) (by omega)
  have htail : (afterKey key rest).tail.dropWhile isBlank = s.drop (skipBlanks s (c + 1)) := by
    rw [drop_skipBlanks, ← hafter, List.tail_drop]
  rw [htail, List.length_drop]
  omega

theorem valuePosFrom_succ (s key : List UInt8) (fuel start : Nat) :
    valuePosFrom s key (fuel + 1) start =
      match find s (quoted key) start with
      | none => none
      | some k =>
          let p := skipBack s k
          let c := skipBlanks s (k + (quoted key).length)
          if (p == 0 || s[p - 1]? == some 0x7B || s[p - 1]? == some 0x2C) && s[c]? == some 0x3A then
            some (skipBlanks s (c + 1))
          else valuePosFrom s key fuel (k + 1) := rfl

theorem valuePosFrom_eq_lookup (key : List UInt8) :
    ∀ (rest pre : List UInt8) (fuel : Nat), rest.length < fuel →
      valuePosFrom (pre ++ rest) key fuel pre.length =
        (lookup key pre rest).map fun found => (pre ++ rest).length - found.length := by
  intro rest
  induction rest with
  | nil =>
      intro pre fuel hfuel
      obtain ⟨fuel, rfl⟩ : ∃ n, fuel = n + 1 := ⟨fuel - 1, by omega⟩
      have hfind : find (pre ++ []) (quoted key) pre.length = none := by
        rw [find_append]
        rfl
      rw [valuePosFrom_succ, hfind]
      rfl
  | cons b rest ih =>
      intro pre fuel hfuel
      obtain ⟨fuel, rfl⟩ : ∃ n, fuel = n + 1 := ⟨fuel - 1, by omega⟩
      rw [List.length_cons] at hfuel
      have hnext := ih (pre ++ [b])
      rw [← List.append_cons, List.length_append, List.length_singleton] at hnext
      by_cases hmatch : quoted key <+: b :: rest
      · obtain ⟨hhere, hplace⟩ := match_eq_lookup pre hmatch
        have hfind : find (pre ++ b :: rest) (quoted key) pre.length = some pre.length := by
          rw [find_append, findIn, if_pos hmatch]
          rfl
        rw [valuePosFrom_succ, hfind, lookup]
        dsimp only
        rw [hhere]
        split_ifs with hkey
        · rw [hplace hkey]
          rfl
        · exact hnext fuel (by omega)
      · have hfind : find (pre ++ b :: rest) (quoted key) pre.length =
            find (pre ++ b :: rest) (quoted key) (pre.length + 1) := by
          have hlater := find_append (pre ++ [b]) rest (quoted key)
          rw [← List.append_cons, List.length_append, List.length_singleton] at hlater
          rw [find_append, findIn_cons_of_miss hmatch, map_add_map, hlater]
        have hhere : isKeyHere key pre (b :: rest) = false := by
          rw [isKeyHere, Bool.eq_false_iff.mpr fun h => hmatch (List.isPrefixOf_iff_prefix.mp h),
            Bool.false_and, Bool.false_and]
        have hskip : valuePosFrom (pre ++ b :: rest) key (fuel + 1) pre.length =
            valuePosFrom (pre ++ b :: rest) key (fuel + 1) (pre.length + 1) := by
          rw [valuePosFrom_succ, valuePosFrom_succ, hfind]
        rw [hskip, lookup, if_neg (by rw [hhere]; decide)]
        exact hnext (fuel + 1) (by omega)

theorem valuePos_eq_lookup (s key : List UInt8) :
    valuePos s key = (lookup key [] s).map fun found => s.length - found.length :=
  valuePosFrom_eq_lookup key s [] _ (Nat.lt_succ_self _)

theorem valuePos_of_append {s key pre found : List UInt8} (h : lookup key [] s = some found)
    (hs : s = pre ++ found) : valuePos s key = some pre.length := by
  rw [valuePos_eq_lookup, h, Option.map_some, hs, List.length_append, Nat.add_sub_cancel_right]

theorem valuePos_of_lookup {s key found : List UInt8} (h : lookup key [] s = some found) :
    ∃ i, valuePos s key = some i ∧ s.drop i = found :=
  ⟨s.length - found.length, by rw [valuePos_eq_lookup, h, Option.map_some],
    (List.suffix_iff_eq_drop.mp (lookup_suffix h)).symm⟩

def IsKey (key : List UInt8) : Prop := key ≠ [] ∧ ∀ b ∈ key, isKeyByte b = true

instance (key : List UInt8) : Decidable (IsKey key) :=
  decidable_of_iff (key ≠ [] ∧ key.all isKeyByte = true) (and_congr_right' List.all_eq_true)

/-- The first member with the key is found in an object. -/
theorem valuePos_object {trail : List UInt8} (htrail : (0x22 : UInt8) ∉ trail)
    (front : List Member) (m : Member) (back : List Member)
    (hmembers : ∀ m' ∈ front ++ m :: back, m'.Ok) (hfront : m.key ∉ front.map Member.key)
    (hkey : IsKey m.key) :
    ∃ i, valuePos (object trail (front ++ m :: back)) m.key = some i ∧
      (object trail (front ++ m :: back)).drop i =
        m.value.text ++ (m.afterValue ++ following trail back) := by
  have hother : ∀ m' ∈ front, m'.key ≠ m.key := fun m' hm' hsame =>
    hfront (hsame ▸ List.mem_map_of_mem hm')
  refine valuePos_of_lookup ?_
  rw [lookup_object hkey.1 hkey.2 htrail hmembers, valueOf_append _ _ hother rfl]

/-! ### Strings -/

theorem readStr_plain {b : UInt8} (hslash : b ≠ 0x5C) (hquote : b ≠ 0x22) (rest : List UInt8) :
    readStr (b :: rest) = (readStr rest).map (b :: ·) := by
  cases rest with
  | nil => exact if_neg hquote
  | cons c rest => rw [readStr, if_neg hslash, if_neg hquote]

theorem readStr_esc (text rest : List UInt8) : readStr (esc text ++ 0x22 :: rest) = some text := by
  induction text with
  | nil =>
      cases rest with
      | nil => rfl
      | cons c rest => rfl
  | cons b text ih =>
      rw [esc, List.flatMap_cons, List.append_assoc]
      change readStr (_ ++ (esc text ++ 0x22 :: rest)) = _
      split_ifs with hspecial hnewline htab
      · have hread : b = 0x22 ∨ b = 0x5C ∨ b = 0x2F := by tauto
        rw [List.cons_append, List.singleton_append, readStr, if_pos rfl, if_pos hread, ih]
        rfl
      · subst hnewline
        change (readStr (esc text ++ 0x22 :: rest)).map (0x0A :: ·) = _
        rw [ih]
        rfl
      · subst htab
        change (readStr (esc text ++ 0x22 :: rest)).map (0x09 :: ·) = _
        rw [ih]
        rfl
      · rw [not_or] at hspecial
        rw [List.singleton_append, readStr_plain hspecial.2 hspecial.1, ih]
        rfl

theorem escaped_esc (text : List UInt8) : Escaped (esc text) := by
  induction text with
  | nil => exact .nil
  | cons b text ih =>
      rw [esc, List.flatMap_cons]
      refine Escaped.append ?_ ih
      split_ifs with hspecial hnewline htab
      · exact .escape .nil
      · exact .escape .nil
      · exact .escape .nil
      · rw [not_or] at hspecial
        exact .plain hspecial.1 hspecial.2 .nil

theorem newline_not_mem_esc (text : List UInt8) : (0x0A : UInt8) ∉ esc text := by
  intro hmem
  obtain ⟨b, -, hb⟩ := List.mem_flatMap.mp hmem
  split_ifs at hb with hspecial hnewline htab
  · rcases hspecial with rfl | rfl
    · exact absurd hb (by decide)
    · exact absurd hb (by decide)
  · exact absurd hb (by decide)
  · exact absurd hb (by decide)
  · exact hnewline (List.mem_singleton.mp hb).symm

/-! ### Lines of fields -/

variable {Double : Type} [FloatText Double]

inductive Field (Double : Type)
  | text (s : List UInt8)
  | int (z : Int)
  | bool (b : Bool)
  | double (v : Double)

def Field.value : Field Double → Value
  | .text s => .str (esc s)
  | .int z => .raw (signedNumeral z)
  | .bool b => .raw (boolText b)
  | .double v => .raw (fmtDouble v)

def member (f : List UInt8 × Field Double) : Member := { key := f.1, value := f.2.value }

/-- The object of the fields and what stands behind it: a newline as it is sent, nothing as it is
received. -/
def line (trail : List UInt8) (fields : List (List UInt8 × Field Double)) : List UInt8 :=
  object trail (fields.map member)

/-- What a double is read back as. -/
def reread (v : Double) : Double :=
  ((FloatText.strtod (fmtDouble v)).map Prod.fst).getD FloatText.zero

theorem of_isTokenByte {b : UInt8} (hb : isTokenByte b = true) :
    b ≠ 0x22 ∧ isBlank b = false ∧ b ≠ 0x0A := by
  refine ⟨?_, ?_, ?_⟩
  · rintro rfl
    exact absurd hb (by decide)
  · rw [Bool.eq_false_iff, Ne, isBlank_iff]
    rintro (rfl | rfl)
    · exact absurd hb (by decide)
    · exact absurd hb (by decide)
  · rintro rfl
    exact absurd hb (by decide)

theorem isTokenByte_of_mem_signedNumeral {z : Int} {b : UInt8} (hb : b ∈ signedNumeral z) :
    isTokenByte b = true := by
  rcases of_mem_signedNumeral hb with rfl | hdigit
  · rfl
  · rw [isTokenByte, hdigit, Bool.true_or, Bool.true_or, Bool.true_or, Bool.true_or]

theorem isTokenByte_of_mem_boolText {ok : Bool} {b : UInt8} (hb : b ∈ boolText ok) :
    isTokenByte b = true := by
  cases ok with
  | false => exact List.all_eq_true.mp (by decide : (ascii "false").all isTokenByte = true) b hb
  | true => exact List.all_eq_true.mp (by decide : (ascii "true").all isTokenByte = true) b hb

/-- What a field that is no string writes is a token. -/
theorem Field.ok (hfloat : FloatText.Lawful Double) (f : Field Double) :
    f.value.Ok ∧ (0x0A : UInt8) ∉ f.value.text := by
  have htoken : ∀ text : List UInt8, text ≠ [] → (∀ b ∈ text, isTokenByte b = true) →
      (Value.raw text).Ok ∧ (0x0A : UInt8) ∉ (Value.raw text).text := by
    intro text hne htext
    refine ⟨Value.raw_ok hne fun b hb => ?_, fun hmem => (of_isTokenByte (htext _ hmem)).2.2 rfl⟩
    obtain ⟨hquote, hblank, -⟩ := of_isTokenByte (htext b hb)
    exact ⟨hquote, hblank⟩
  cases f with
  | text s =>
      refine ⟨escaped_esc s, fun hmem => ?_⟩
      simp only [value, Value.text, quoted, List.mem_cons, List.mem_append, List.not_mem_nil,
        or_false] at hmem
      rcases hmem with hquote | hmem | hquote
      · exact absurd hquote (by decide)
      · exact newline_not_mem_esc s hmem
      · exact absurd hquote (by decide)
  | int z => exact htoken _ (signedNumeral_ne_nil z) fun b => isTokenByte_of_mem_signedNumeral
  | bool ok =>
      refine htoken _ ?_ fun b => isTokenByte_of_mem_boolText
      cases ok with
      | false => exact (by decide : ascii "false" ≠ [])
      | true => exact (by decide : ascii "true" ≠ [])
  | double v => exact htoken _ (hfloat.ne_nil v) (hfloat.token v)

theorem member_ok (hfloat : FloatText.Lawful Double) {f : List UInt8 × Field Double}
    (hkey : IsKey f.1) : (member f).Ok :=
  ⟨hkey.2, (f.2.ok hfloat).1, by simp [member], by simp [member], by simp [member],
    by simp [member]⟩

section Line

variable {trail : List UInt8} {fields : List (List UInt8 × Field Double)}
  (hfloat : FloatText.Lawful Double) (htrail : (0x22 : UInt8) ∉ trail)
  (hkeys : ∀ key ∈ fields.map Prod.fst, IsKey key)

include hfloat htrail hkeys

theorem valuePos_line {key : List UInt8} {f : Field Double}
    (hfield : fields.lookup key = some f) :
    ∃ i rest, valuePos (line trail fields) key = some i ∧
      (line trail fields).drop i = f.value.text ++ rest ∧ Ends rest := by
  obtain ⟨front, back, rfl, hfront⟩ := List.lookup_eq_some_iff.mp hfield
  have hmembers : ∀ m ∈ (front ++ (key, f) :: back).map member, m.Ok := by
    intro m hm
    obtain ⟨g, hg, rfl⟩ := List.mem_map.mp hm
    exact member_ok hfloat (hkeys _ (List.mem_map_of_mem hg))
  have hother : key ∉ (front.map member).map Member.key := by
    rw [List.map_map]
    intro hmem
    obtain ⟨g, hg, hsame⟩ := List.mem_map.mp hmem
    exact bne_iff_ne.mp (hfront g hg) hsame.symm
  rw [List.map_append, List.map_cons] at hmembers
  obtain ⟨i, hpos, hdrop⟩ := valuePos_object htrail _ (member (key, f)) _ hmembers hother
    (hkeys key (by simp))
  rw [line, List.map_append, List.map_cons]
  exact ⟨i, _, hpos, hdrop, ends_following _ _⟩

theorem jsonGetStr_line {key text : List UInt8} (hfield : fields.lookup key = some (.text text)) :
    jsonGetStr (line trail fields) key = some text := by
  obtain ⟨i, rest, hpos, hdrop, -⟩ := valuePos_line hfloat htrail hkeys hfield
  rw [jsonGetStr, hpos, Option.bind_eq_bind, Option.bind_some, hdrop]
  change readStr ((esc text ++ [0x22]) ++ rest) = some text
  rw [List.append_assoc]
  exact readStr_esc text rest

theorem jsonGetInt_line {key : List UInt8} {z : Int} (hfield : fields.lookup key = some (.int z)) :
    jsonGetInt (line trail fields) key = some (max (-2 ^ 63) (min (2 ^ 63 - 1) z)) := by
  obtain ⟨i, rest, hpos, hdrop, hrest⟩ := valuePos_line hfloat htrail hkeys hfield
  rw [jsonGetInt, hpos, Option.bind_eq_bind, Option.bind_some, hdrop]
  change (strtoll (signedNumeral z ++ rest)).map Prod.fst = _
  rw [strtoll_signedNumeral z (hrest.eq_false (by decide))]
  rfl

theorem jsonGetBool_line {key : List UInt8} {ok : Bool}
    (hfield : fields.lookup key = some (.bool ok)) :
    jsonGetBool (line trail fields) key = some ok := by
  obtain ⟨i, rest, hpos, hdrop, -⟩ := valuePos_line hfloat htrail hkeys hfield
  rw [jsonGetBool, hpos, Option.bind_eq_bind, Option.bind_some, substr, substr, hdrop]
  cases ok with
  | true => rfl
  | false => rfl

theorem jsonGetDouble_line {key : List UInt8} {v : Double}
    (hfield : fields.lookup key = some (.double v)) :
    jsonGetDouble (line trail fields) key = some (reread v) := by
  obtain ⟨i, rest, hpos, hdrop, hrest⟩ := valuePos_line hfloat htrail hkeys hfield
  obtain ⟨v', hv'⟩ := hfloat.reread v
  have halone := hv' [] (.inl rfl)
  rw [List.append_nil] at halone
  rw [jsonGetDouble, hpos, Option.bind_eq_bind, Option.bind_some, hdrop]
  change (FloatText.strtod (FloatText.snprintf v ++ rest)).map Prod.fst = _
  rw [hv' rest (.inr hrest), reread, fmtDouble, halone]
  rfl

end Line

/-! ### Newlines -/

/-- A line of bytes ends with its only newline. -/
def OneLine (text : List UInt8) : Prop := text.getLast? = some 0x0A ∧ text.count 0x0A = 1

theorem newline_not_mem_line (hfloat : FloatText.Lawful Double)
    {fields : List (List UInt8 × Field Double)} (hkeys : ∀ key ∈ fields.map Prod.fst, IsKey key) :
    (0x0A : UInt8) ∉ line [] fields := by
  refine not_mem_object (by decide) fun m hm => ?_
  obtain ⟨g, hg, rfl⟩ := List.mem_map.mp hm
  have hkey := (hkeys _ (List.mem_map_of_mem hg)).2
  have hvalue := (g.2.ok hfloat).2
  have hname : (0x0A : UInt8) ∉ g.1 := fun hmem => absurd (hkey _ hmem) (by decide)
  simp [Member.text, member, quoted, hname, hvalue]

theorem line_newline (fields : List (List UInt8 × Field Double)) :
    line (ascii "\n") fields = line [] fields ++ [0x0A] := object_eq_append _ _

theorem oneLine_line (hfloat : FloatText.Lawful Double) {fields : List (List UInt8 × Field Double)}
    (hkeys : ∀ key ∈ fields.map Prod.fst, IsKey key) : OneLine (line (ascii "\n") fields) := by
  have hnewline := newline_not_mem_line hfloat hkeys
  rw [line_newline]
  refine ⟨List.getLast?_concat, ?_⟩
  rw [List.count_append, List.count_eq_zero.mpr hnewline]
  rfl

/-! ### The three messages -/

def tickFields (t : Tick Double) : List (List UInt8 × Field Double) :=
  [(ascii "t", .text (ascii "tick")), (ascii "v", .int kProtocolVersion.toInt),
    (ascii "symbol", .text t.symbol), (ascii "time", .int t.time.toNat),
    (ascii "bid", .double t.bid), (ascii "ask", .double t.ask), (ascii "last", .double t.last),
    (ascii "volume", .int t.volume.toNat)]

theorem encodeTick_eq_line (t : Tick Double) : encodeTick t = line (ascii "\n") (tickFields t) := by
  simp only [encodeTick, line, tickFields, List.map_cons, List.map_nil, object, following, member,
    Member.text, Field.value, Value.text, quoted, signedNumeral_natCast, List.append_assoc,
    List.cons_append, List.nil_append]
  rfl

theorem isKey_tickFields (t : Tick Double) : ∀ key ∈ (tickFields t).map Prod.fst, IsKey key := by
  change ∀ key ∈ [ascii "t", ascii "v", ascii "symbol", ascii "time", ascii "bid", ascii "ask",
    ascii "last", ascii "volume"], IsKey key
  decide

def orderFields (o : Order Double) : List (List UInt8 × Field Double) :=
  [(ascii "t", .text (ascii "order")), (ascii "v", .int kProtocolVersion.toInt),
    (ascii "id", .int o.id.toNat), (ascii "symbol", .text o.symbol),
    (ascii "side", .text [if o.side = Side.buy then 0x42 else 0x53]),
    (ascii "volume", .double o.volume), (ascii "price", .double o.price),
    (ascii "kind", .text o.kind)]

theorem encodeOrder_eq_line (o : Order Double) :
    encodeOrder o = line (ascii "\n") (orderFields o) := by
  have hside : esc [if o.side = Side.buy then 0x42 else 0x53] =
      [if o.side = Side.buy then 0x42 else 0x53] := by
    split_ifs
    · rfl
    · rfl
  simp only [encodeOrder, line, orderFields, List.map_cons, List.map_nil, object, following,
    member, Member.text, Field.value, Value.text, quoted, signedNumeral_natCast, hside,
    List.append_assoc, List.cons_append, List.nil_append]
  rfl

theorem isKey_orderFields (o : Order Double) :
    ∀ key ∈ (orderFields o).map Prod.fst, IsKey key := by
  change ∀ key ∈ [ascii "t", ascii "v", ascii "id", ascii "symbol", ascii "side", ascii "volume",
    ascii "price", ascii "kind"], IsKey key
  decide

def ackFields (a : Ack) : List (List UInt8 × Field Double) :=
  [(ascii "t", .text (ascii "ack")), (ascii "v", .int kProtocolVersion.toInt),
    (ascii "id", .int a.id.toNat), (ascii "ok", .bool a.ok),
    (ascii "retcode", .int a.retcode.toInt), (ascii "message", .text a.message)]

variable (Double) in
theorem encodeAck_eq_line (a : Ack) :
    encodeAck a = line (ascii "\n") (ackFields a : List (List UInt8 × Field Double)) := by
  simp only [encodeAck, line, ackFields, List.map_cons, List.map_nil, object, following,
    member, Member.text, Field.value, Value.text, quoted, signedNumeral_natCast,
    List.append_assoc, List.cons_append, List.nil_append]
  rfl

omit [FloatText Double] in
variable (Double) in
theorem isKey_ackFields (a : Ack) :
    ∀ key ∈ (ackFields a : List (List UInt8 × Field Double)).map Prod.fst, IsKey key := by
  change ∀ key ∈ [ascii "t", ascii "v", ascii "id", ascii "ok", ascii "retcode", ascii "message"],
    IsKey key
  decide

/-- The message as it comes out at the other end. -/
def Tick.received (t : Tick Double) : Tick Double :=
  { t with bid := reread t.bid, ask := reread t.ask, last := reread t.last }

def Order.received (o : Order Double) : Order Double :=
  { o with volume := reread o.volume, price := reread o.price }

/-- What `strtoll` makes of a number that is out of its range. -/
def saturated (n : UInt64) : UInt64 := if n.toNat < 2 ^ 63 then n else 0x7FFFFFFFFFFFFFFF

theorem ofInt_clamped (n : UInt64) :
    UInt64.ofInt (max (-2 ^ 63) (min (2 ^ 63 - 1) (n.toNat : Int))) = saturated n := by
  have hlt := n.toNat_lt
  rw [max_eq_right (by omega), saturated]
  split_ifs with hsmall
  · rw [min_eq_right (by omega), UInt64.ofInt, ← UInt64.toNat_inj, UInt64.toNat_ofNat']
    omega
  · rw [min_eq_left (by omega)]
    rfl

theorem saturated_eq_self {n : UInt64} (hn : n.toNat < 2 ^ 63) : saturated n = n := if_pos hn

section Messages

variable (hfloat : FloatText.Lawful Double) {trail : List UInt8} (htrail : (0x22 : UInt8) ∉ trail)

include hfloat htrail

theorem parseTick_line (t : Tick Double) (out : Tick Double) :
    parseTick (line trail (tickFields t)) out =
      (true, { t.received with time := saturated t.time, volume := saturated t.volume }) := by
  have hkeys := isKey_tickFields t
  rw [parseTick, jsonGetStr_line hfloat htrail hkeys rfl,
    jsonGetDouble_line hfloat htrail hkeys rfl, jsonGetDouble_line hfloat htrail hkeys rfl,
    jsonGetDouble_line hfloat htrail hkeys rfl, jsonGetInt_line hfloat htrail hkeys rfl,
    jsonGetInt_line hfloat htrail hkeys rfl]
  simp only [Option.getD_some, Option.map_some, ofInt_clamped]
  rfl

theorem parseOrder_line (o : Order Double) (hside : o.side = Side.buy ∨ o.side = Side.sell)
    (out : Order Double) :
    parseOrder (line trail (orderFields o)) out =
      (true, { o.received with id := saturated o.id }) := by
  have hkeys := isKey_orderFields o
  have hback : (if (if o.side = Side.buy then 0x42 else 0x53 : UInt8) = 0x42 then Side.buy
      else Side.sell) = o.side := by
    rcases hside with hbuy | hsell
    · rw [hbuy]
      rfl
    · rw [hsell]
      rfl
  rw [parseOrder, jsonGetInt_line hfloat htrail hkeys rfl, jsonGetStr_line hfloat htrail hkeys rfl,
    jsonGetStr_line hfloat htrail hkeys rfl, jsonGetDouble_line hfloat htrail hkeys rfl,
    jsonGetDouble_line hfloat htrail hkeys rfl, jsonGetStr_line hfloat htrail hkeys rfl]
  simp only [Option.getD_some, ofInt_clamped, hback]
  rfl

theorem parseAck_line (a : Ack) (out : Ack) :
    parseAck (line trail (ackFields a : List (List UInt8 × Field Double))) out =
      (true, { a with id := saturated a.id }) := by
  have hkeys := isKey_ackFields Double a
  have hlow := a.retcode.le_toInt
  have hhigh := a.retcode.toInt_lt
  have hretcode : max (-2 ^ 63) (min (2 ^ 63 - 1) a.retcode.toInt) = a.retcode.toInt := by omega
  rw [parseAck, jsonGetInt_line hfloat htrail hkeys rfl, jsonGetBool_line hfloat htrail hkeys rfl,
    jsonGetInt_line hfloat htrail hkeys rfl, jsonGetStr_line hfloat htrail hkeys rfl]
  simp only [Option.getD_some, Option.map_some, ofInt_clamped, hretcode, Int32.ofInt_toInt]

theorem kindOf_tickLine (t : Tick Double) : kindOf (line trail (tickFields t)) = .tick := by
  rw [kindOf, jsonGetStr_line hfloat htrail (isKey_tickFields t) rfl]
  rfl

theorem kindOf_orderLine (o : Order Double) : kindOf (line trail (orderFields o)) = .order := by
  rw [kindOf, jsonGetStr_line hfloat htrail (isKey_orderFields o) rfl]
  rfl

theorem kindOf_ackLine (a : Ack) :
    kindOf (line trail (ackFields a : List (List UInt8 × Field Double))) = .ack := by
  rw [kindOf, jsonGetStr_line hfloat htrail (isKey_ackFields Double a) rfl]
  rfl

end Messages

/-- Every tick, order and acknowledgement travels as one line and comes out as it went in, a double
as what its printed form is read back as. -/
theorem messages_round_trip (Double : Type) [FloatText Double] (hfloat : FloatText.Lawful Double) :
    (∀ t : Tick Double, t.time.toNat < 2 ^ 63 → t.volume.toNat < 2 ^ 63 →
      OneLine (encodeTick t) ∧ kindOf (encodeTick t) = .tick ∧
        ∀ out, parseTick (encodeTick t) out = (true, t.received)) ∧
    (∀ o : Order Double, o.side = Side.buy ∨ o.side = Side.sell → o.id.toNat < 2 ^ 63 →
      OneLine (encodeOrder o) ∧ kindOf (encodeOrder o) = .order ∧
        ∀ out, parseOrder (encodeOrder o) out = (true, o.received)) ∧
    (∀ a : Ack, a.id.toNat < 2 ^ 63 →
      OneLine (encodeAck a) ∧ kindOf (encodeAck a) = .ack ∧
        ∀ out, parseAck (encodeAck a) out = (true, a)) := by
  have htrail : (0x22 : UInt8) ∉ ascii "\n" := by decide
  refine ⟨fun t htime hvolume => ?_, fun o hside hid => ?_, fun a hid => ?_⟩
  · rw [encodeTick_eq_line]
    refine ⟨oneLine_line hfloat (isKey_tickFields t), kindOf_tickLine hfloat htrail t,
      fun out => ?_⟩
    rw [parseTick_line hfloat htrail, saturated_eq_self htime, saturated_eq_self hvolume]
    rfl
  · rw [encodeOrder_eq_line]
    refine ⟨oneLine_line hfloat (isKey_orderFields o), kindOf_orderLine hfloat htrail o,
      fun out => ?_⟩
    rw [parseOrder_line hfloat htrail o hside, saturated_eq_self hid]
    rfl
  · rw [encodeAck_eq_line Double]
    refine ⟨oneLine_line hfloat (isKey_ackFields Double a), kindOf_ackLine hfloat htrail a,
      fun out => ?_⟩
    rw [parseAck_line hfloat htrail, saturated_eq_self hid]

/-- Whole numbers, which `%.10g` prints as their numerals. -/
instance wholeNumbers : FloatText Int where
  zero := 0
  snprintf := signedNumeral
  strtod := readInt

theorem wholeNumbers_lawful : FloatText.Lawful Int := by
  refine ⟨signedNumeral_ne_nil, fun z b => isTokenByte_of_mem_signedNumeral, fun z => ⟨z, ?_⟩⟩
  rintro rest (rfl | hrest)
  · exact readInt_signedNumeral z (by simp)
  · exact readInt_signedNumeral z (hrest.eq_false (by decide))

/-- A symbol that looks like the fields behind it. -/
theorem messages_round_trip_sample :
    let t : Tick Int := { symbol := ascii "\",\"bid\":9,\n\\", time := 5, bid := 7, ask := 8 }
    kindOf (encodeTick t) = .tick ∧
      parseTick (encodeTick t) ({} : Tick Int) = (true, t.received) := by
  have htick := (messages_round_trip Int wholeNumbers_lawful).1
    { symbol := ascii "\",\"bid\":9,\n\\", time := 5, bid := 7, ask := 8 } (by decide) (by decide)
  exact ⟨htick.2.1, htick.2.2 {}⟩

end HftOrderbook.Mt5
