import Mathlib.Tactic

/-!
# Finding a member of a flat JSON object

A flat object is one line of members whose values are strings, numbers or words. Its members can be
found by looking for the quoted key in the text, as long as a place only counts if it stands behind
a brace or a comma and in front of a colon: a quote inside a string value has a backslash in front
of it, the opening quote of a value has a colon, and a closing quote is never followed by a key.
-/

namespace FlatJson

def isBlank (b : UInt8) : Bool := b == 0x20 || b == 0x09

def isKeyByte (b : UInt8) : Bool :=
  (0x30 ≤ b && b ≤ 0x39) || (0x41 ≤ b && b ≤ 0x5A) || b == 0x5F || (0x61 ≤ b && b ≤ 0x7A)

def quoted (text : List UInt8) : List UInt8 := 0x22 :: (text ++ [0x22])

/-! ### The search -/

/-- Blanks aside, nothing or a brace or a comma stands at the end. -/
def opens (pre : List UInt8) : Bool :=
  match (pre.reverse.dropWhile isBlank).head? with
  | none => true
  | some b => b == 0x7B || b == 0x2C

/-- What follows the quoted key, from the first byte that is no blank. -/
def afterKey (key rest : List UInt8) : List UInt8 :=
  (rest.drop (quoted key).length).dropWhile isBlank

def isKeyHere (key pre rest : List UInt8) : Bool :=
  (quoted key).isPrefixOf rest && opens pre && (afterKey key rest).head? == some 0x3A

/-- The text from the value of the key on, where the text before and behind are given. -/
def lookup (key : List UInt8) : List UInt8 → List UInt8 → Option (List UInt8)
  | _, [] => none
  | pre, b :: rest =>
      if isKeyHere key pre (b :: rest) then some ((afterKey key (b :: rest)).tail.dropWhile isBlank)
      else lookup key (pre ++ [b]) rest

theorem lookup_suffix {key pre rest found : List UInt8} (h : lookup key pre rest = some found) :
    found <:+ rest := by
  induction rest generalizing pre with
  | nil => cases h
  | cons b rest ih =>
      rw [lookup] at h
      split_ifs at h
      · obtain rfl := Option.some.inj h
        exact (List.dropWhile_suffix _).trans ((List.tail_suffix _).trans
          ((List.dropWhile_suffix _).trans (List.drop_suffix _ _)))
      · exact (ih h).trans (List.suffix_cons b rest)

/-- The key is not found at a place inside `w`. -/
def Quiet (key pre w rest : List UInt8) : Prop :=
  ∀ a c, w = a ++ 0x22 :: c → isKeyHere key (pre ++ a) (0x22 :: (c ++ rest)) = false

theorem isKeyHere_of_ne_quote {key pre : List UInt8} {b : UInt8} {rest : List UInt8}
    (hb : b ≠ 0x22) : isKeyHere key pre (b :: rest) = false := by
  have hne : (0x22 == b) = false := beq_eq_false_iff_ne.mpr hb.symm
  rw [isKeyHere, quoted, List.isPrefixOf_cons_cons, hne]
  rfl

theorem lookup_quiet {key pre w rest : List UInt8} (h : Quiet key pre w rest) :
    lookup key pre (w ++ rest) = lookup key (pre ++ w) rest := by
  induction w generalizing pre with
  | nil => rw [List.nil_append, List.append_nil]
  | cons b w ih =>
      have hhere : isKeyHere key pre (b :: (w ++ rest)) = false := by
        by_cases hb : b = 0x22
        · have hquote := h [] w (by rw [hb]; rfl)
          rwa [List.append_nil, ← hb] at hquote
        · exact isKeyHere_of_ne_quote hb
      have htail : Quiet key (pre ++ [b]) w rest := by
        intro a c hsplit
        have hlater := h (b :: a) c (by rw [hsplit]; rfl)
        rwa [List.append_cons] at hlater
      rw [List.cons_append, lookup, if_neg (by rw [hhere]; decide), ih htail, ← List.append_cons]

theorem quiet_of_not_mem {key pre w rest : List UInt8} (hw : (0x22 : UInt8) ∉ w) :
    Quiet key pre w rest := by
  intro a c hsplit
  exact absurd (hsplit ▸ by simp) hw

theorem opens_append_blanks {pre blanks : List UInt8} (hblanks : ∀ b ∈ blanks, isBlank b = true) :
    opens (pre ++ blanks) = opens pre := by
  rw [opens, opens, List.reverse_append, List.dropWhile_append_of_pos]
  intro b hb
  exact hblanks b (List.mem_reverse.mp hb)

theorem opens_concat {pre : List UInt8} {b : UInt8} (hb : isBlank b = false) :
    opens (pre ++ [b]) = (b == 0x7B || b == 0x2C) := by
  rw [opens, List.reverse_append, List.reverse_singleton, List.singleton_append,
    List.dropWhile_cons_of_neg (by rw [hb]; decide)]
  rfl

theorem isKeyHere_of_not_opens {key pre rest : List UInt8} (h : opens pre = false) :
    isKeyHere key pre rest = false := by
  rw [isKeyHere, h, Bool.and_false, Bool.false_and]

/-- A quote that no key byte follows does not begin a key. -/
theorem isKeyHere_of_head {key pre rest : List UInt8} (hne : key ≠ [])
    (hkey : ∀ b ∈ key, isKeyByte b = true) (hrest : ∀ b ∈ rest.head?, isKeyByte b = false) :
    isKeyHere key pre (0x22 :: rest) = false := by
  obtain ⟨b, key, rfl⟩ := List.exists_cons_of_ne_nil hne
  have hfirst := hkey b List.mem_cons_self
  have hno : (quoted (b :: key)).isPrefixOf (0x22 :: rest) = false := by
    cases rest with
    | nil => rfl
    | cons c rest =>
        have hne : (b == c) = false := by
          rw [beq_eq_false_iff_ne]
          rintro rfl
          rw [hrest b rfl] at hfirst
          cases hfirst
        rw [quoted, List.cons_append, List.isPrefixOf_cons_cons, List.isPrefixOf_cons_cons, hne,
          Bool.false_and, Bool.and_false]
  rw [isKeyHere, hno, Bool.false_and, Bool.false_and]

/-! ### Strings -/

/-- A string body in which every quote and every backslash is escaped. -/
inductive Escaped : List UInt8 → Prop
  | nil : Escaped []
  | plain {b : UInt8} {text : List UInt8} (hquote : b ≠ 0x22) (hslash : b ≠ 0x5C)
      (htext : Escaped text) : Escaped (b :: text)
  | escape {b : UInt8} {text : List UInt8} (htext : Escaped text) : Escaped (0x5C :: b :: text)

theorem Escaped.append {text text' : List UInt8} (h : Escaped text) (h' : Escaped text') :
    Escaped (text ++ text') := by
  induction h with
  | nil => exact h'
  | plain hquote hslash _ ih => exact .plain hquote hslash ih
  | escape _ ih => exact .escape ih

theorem Escaped.backslash_before {text : List UInt8} (h : Escaped text) :
    ∀ a c, text = a ++ 0x22 :: c → ∃ a', a = a' ++ [0x5C] := by
  induction h with
  | nil => exact fun a c hsplit => absurd hsplit (by simp)
  | @plain b text hquote _ _ ih =>
      intro a c hsplit
      cases a with
      | nil => exact absurd (List.cons.inj hsplit).1 hquote
      | cons b' a =>
          obtain ⟨a', rfl⟩ := ih a c (List.cons.inj hsplit).2
          exact ⟨b' :: a', rfl⟩
  | @escape b text _ ih =>
      intro a c hsplit
      match a, hsplit with
      | [], hsplit => exact absurd (List.cons.inj hsplit).1 (by decide)
      | [b'], hsplit => exact ⟨[], by rw [← (List.cons.inj hsplit).1]; rfl⟩
      | b' :: b'' :: a, hsplit =>
          obtain ⟨a', rfl⟩ := ih a c (List.cons.inj (List.cons.inj hsplit).2).2
          exact ⟨b' :: b'' :: a', rfl⟩

theorem quoted_split {text a c : List UInt8} (h : quoted text = a ++ 0x22 :: c) :
    (a = [] ∧ c = text ++ [0x22]) ∨ (∃ a' c', a = 0x22 :: a' ∧ c = c' ++ [0x22] ∧
      text = a' ++ 0x22 :: c') ∨ (a = 0x22 :: text ∧ c = []) := by
  cases a with
  | nil => exact Or.inl ⟨rfl, (List.cons.inj h).2.symm⟩
  | cons b a =>
      obtain ⟨rfl, hinj⟩ := List.cons.inj h
      have htail : text ++ [0x22] = a ++ 0x22 :: c := hinj
      cases c using List.reverseRecOn with
      | nil => exact Or.inr (Or.inr ⟨by rw [(List.append_inj' htail rfl).1], rfl⟩)
      | append_singleton c b =>
          rw [← List.cons_append, ← List.append_assoc] at htail
          obtain ⟨htext, hlast⟩ := List.append_inj' htail rfl
          rw [← List.singleton_inj.mp hlast]
          exact Or.inr (Or.inl ⟨a, c, rfl, rfl, htext⟩)

theorem quiet_string {key pre text rest : List UInt8} (hne : key ≠ [])
    (hkey : ∀ b ∈ key, isKeyByte b = true) (hpre : opens pre = false) (htext : Escaped text)
    (hrest : ∀ b ∈ rest.head?, isKeyByte b = false) : Quiet key pre (quoted text) rest := by
  intro a c hsplit
  rcases quoted_split hsplit with ⟨rfl, rfl⟩ | ⟨a', c', rfl, rfl, hbody⟩ | ⟨rfl, rfl⟩
  · rw [List.append_nil]
    exact isKeyHere_of_not_opens hpre
  · obtain ⟨a'', rfl⟩ := htext.backslash_before a' c' hbody
    refine isKeyHere_of_not_opens ?_
    rw [← List.cons_append, ← List.append_assoc, opens_concat rfl]
    rfl
  · exact isKeyHere_of_head hne hkey hrest

theorem not_mem_of_isKeyByte {key : List UInt8} (hkey : ∀ b ∈ key, isKeyByte b = true) :
    (0x22 : UInt8) ∉ key := fun hmem => absurd (hkey _ hmem) (by decide)

/-- Two quoted keys at one place are the same. -/
theorem quoted_key_unique {key other rest : List UInt8} (hkey : (0x22 : UInt8) ∉ key)
    (hother : (0x22 : UInt8) ∉ other) (h : quoted key <+: quoted other ++ rest) : key = other := by
  rw [quoted, quoted, List.cons_append, List.cons_prefix_cons, List.append_assoc] at h
  obtain ⟨tail, htail⟩ := h.2
  rw [List.append_assoc, List.singleton_append, List.singleton_append] at htail
  clear h
  induction key generalizing other with
  | nil =>
      cases other with
      | nil => rfl
      | cons c other => exact absurd (List.cons.inj htail).1 fun h => hother (by simp [← h])
  | cons b key ih =>
      cases other with
      | nil => exact absurd (List.cons.inj htail).1 fun h => hkey (by simp [h])
      | cons c other =>
          obtain ⟨rfl, hinj⟩ := List.cons.inj htail
          rw [ih (fun h => hkey (List.mem_cons_of_mem _ h))
            (fun h => hother (List.mem_cons_of_mem _ h)) hinj]

theorem quiet_key {key pre other rest : List UInt8} (hne : key ≠ [])
    (hkey : ∀ b ∈ key, isKeyByte b = true) (hother : ∀ b ∈ other, isKeyByte b = true)
    (hdiffer : other ≠ key) (hrest : ∀ b ∈ rest.head?, isKeyByte b = false) :
    Quiet key pre (quoted other) rest := by
  intro a c hsplit
  rcases quoted_split hsplit with ⟨rfl, rfl⟩ | ⟨a', c', rfl, rfl, hbody⟩ | ⟨rfl, rfl⟩
  · have hno : ¬ (quoted key).isPrefixOf (0x22 :: (other ++ [0x22] ++ rest)) = true := by
      intro hprefix
      exact hdiffer (quoted_key_unique (not_mem_of_isKeyByte hkey)
        (not_mem_of_isKeyByte hother) (List.isPrefixOf_iff_prefix.mp hprefix)).symm
    rw [isKeyHere, Bool.eq_false_iff.mpr hno, Bool.false_and, Bool.false_and]
  · exact absurd (hbody ▸ by simp) (not_mem_of_isKeyByte hother)
  · exact isKeyHere_of_head hne hkey hrest

/-! ### Objects -/

inductive Value
  | raw (text : List UInt8)
  | str (text : List UInt8)

namespace Value

def text : Value → List UInt8
  | raw text => text
  | str text => quoted text

def Ok : Value → Prop
  | raw text => (0x22 : UInt8) ∉ text ∧ ∃ b ∈ text.head?, isBlank b = false
  | str text => Escaped text

/-- A text of bytes that are neither quotes nor blanks is a value. -/
theorem raw_ok {text : List UInt8} (hne : text ≠ [])
    (htext : ∀ b ∈ text, b ≠ 0x22 ∧ isBlank b = false) : (raw text).Ok := by
  obtain ⟨b, rest, rfl⟩ := List.exists_cons_of_ne_nil hne
  exact ⟨fun hmem => (htext _ hmem).1 rfl, b, rfl, (htext b List.mem_cons_self).2⟩

end Value

structure Member where
  key : List UInt8
  value : Value
  beforeKey : List UInt8 := []
  beforeColon : List UInt8 := []
  beforeValue : List UInt8 := []
  afterValue : List UInt8 := []

namespace Member

def text (m : Member) : List UInt8 :=
  m.beforeKey ++ (quoted m.key ++ (m.beforeColon ++ (0x3A :: (m.beforeValue ++
    (m.value.text ++ m.afterValue)))))

structure Ok (m : Member) : Prop where
  key : ∀ b ∈ m.key, isKeyByte b = true
  value : m.value.Ok
  beforeKey : ∀ b ∈ m.beforeKey, isBlank b = true
  beforeColon : ∀ b ∈ m.beforeColon, isBlank b = true
  beforeValue : ∀ b ∈ m.beforeValue, isBlank b = true
  afterValue : ∀ b ∈ m.afterValue, isBlank b = true

end Member

/-- What follows a member: the other members, the closing brace and what stands behind it. -/
def following (trail : List UInt8) : List Member → List UInt8
  | [] => 0x7D :: trail
  | m :: members => 0x2C :: (m.text ++ following trail members)

def object (trail : List UInt8) : List Member → List UInt8
  | [] => 0x7B :: 0x7D :: trail
  | m :: members => 0x7B :: (m.text ++ following trail members)

/-- The text from the value of the first member with the key on. -/
def valueOf (key trail : List UInt8) : List Member → Option (List UInt8)
  | [] => none
  | m :: members =>
      if m.key = key then some (m.value.text ++ (m.afterValue ++ following trail members))
      else valueOf key trail members

theorem valueOf_append {key : List UInt8} (trail : List UInt8) {front : List Member} {m : Member}
    (back : List Member) (hfront : ∀ m' ∈ front, m'.key ≠ key) (hm : m.key = key) :
    valueOf key trail (front ++ m :: back) =
      some (m.value.text ++ (m.afterValue ++ following trail back)) := by
  induction front with
  | nil => exact if_pos hm
  | cons m' front ih =>
      rw [List.cons_append, valueOf, if_neg (hfront m' List.mem_cons_self),
        ih fun m'' h => hfront m'' (List.mem_cons_of_mem _ h)]

theorem valueOf_eq_none {key trail : List UInt8} {members : List Member}
    (hother : ∀ m ∈ members, m.key ≠ key) : valueOf key trail members = none := by
  induction members with
  | nil => rfl
  | cons m members ih =>
      rw [valueOf, if_neg (hother m List.mem_cons_self),
        ih fun m' h => hother m' (List.mem_cons_of_mem _ h)]

/-- The text goes on with a blank, a comma or a closing brace. -/
def Ends (rest : List UInt8) : Prop := ∃ b ∈ rest.head?, b ∈ [0x20, 0x09, 0x2C, 0x7D]

theorem isBlank_iff {b : UInt8} : isBlank b = true ↔ b = 0x20 ∨ b = 0x09 := by
  rw [isBlank, Bool.or_eq_true, beq_iff_eq, beq_iff_eq]

theorem quote_not_mem_blanks {blanks : List UInt8} (hblanks : ∀ b ∈ blanks, isBlank b = true) :
    (0x22 : UInt8) ∉ blanks := fun hmem => absurd (hblanks _ hmem) (by decide)

theorem Ends.eq_false {rest : List UInt8} (h : Ends rest) {p : UInt8 → Bool}
    (hp : ([0x20, 0x09, 0x2C, 0x7D] : List UInt8).any p = false) :
    ∀ b ∈ rest.head?, p b = false := by
  obtain ⟨c, hc, hmem⟩ := h
  intro b hb
  obtain rfl := Option.mem_unique hc hb
  exact Bool.eq_false_iff.mpr (List.any_eq_false.mp hp c hmem)

theorem ends_append_blanks {blanks rest : List UInt8} (hblanks : ∀ b ∈ blanks, isBlank b = true)
    (hrest : Ends rest) : Ends (blanks ++ rest) := by
  cases blanks with
  | nil => exact hrest
  | cons b blanks =>
      refine ⟨b, rfl, ?_⟩
      rcases isBlank_iff.mp (hblanks b List.mem_cons_self) with rfl | rfl
      · decide
      · decide

theorem ends_following (trail : List UInt8) (members : List Member) :
    Ends (following trail members) := by
  cases members with
  | nil => exact ⟨0x7D, rfl, by decide⟩
  | cons m members => exact ⟨0x2C, rfl, by decide⟩

/-- A byte of no member and no punctuation is not in an object. -/
theorem not_mem_object {b : UInt8} {members : List Member} (hb : b ∉ [0x7B, 0x7D, 0x2C])
    (hmembers : ∀ m ∈ members, b ∉ m.text) : b ∉ object [] members := by
  simp only [List.mem_cons, List.not_mem_nil, or_false, not_or] at hb
  have hfollowing : ∀ members : List Member, (∀ m ∈ members, b ∉ m.text) →
      b ∉ following [] members := by
    intro members hmembers
    induction members with
    | nil => simpa [following] using hb.2.1
    | cons m members ih =>
        simp only [following, List.mem_cons, List.mem_append, not_or]
        exact ⟨hb.2.2, hmembers m List.mem_cons_self,
          ih fun m' h => hmembers m' (List.mem_cons_of_mem _ h)⟩
  cases members with
  | nil => simpa [object] using ⟨hb.1, hb.2.1⟩
  | cons m members =>
      simp only [object, List.mem_cons, List.mem_append, not_or]
      exact ⟨hb.1, hmembers m List.mem_cons_self,
        hfollowing members fun m' h => hmembers m' (List.mem_cons_of_mem _ h)⟩

theorem object_eq_append (trail : List UInt8) (members : List Member) :
    object trail members = object [] members ++ trail := by
  have hfollowing : ∀ members : List Member,
      following trail members = following [] members ++ trail := by
    intro members
    induction members with
    | nil => rfl
    | cons m members ih => rw [following, following, ih, List.cons_append, List.append_assoc]
  cases members with
  | nil => rfl
  | cons m members => rw [object, object, hfollowing, List.cons_append, List.append_assoc]

theorem following_append (trail : List UInt8) (front back : List Member) (m : Member) :
    following trail (front ++ m :: back) =
      0x2C :: (front.flatMap (fun m' => m'.text ++ [0x2C]) ++
        (m.text ++ following trail back)) := by
  induction front with
  | nil => rfl
  | cons m' front ih =>
      rw [List.cons_append, following, ih, List.flatMap_cons, List.append_assoc, List.append_assoc,
        List.singleton_append]

theorem object_append (trail : List UInt8) (front back : List Member) (m : Member) :
    object trail (front ++ m :: back) =
      0x7B :: (front.flatMap (fun m' => m'.text ++ [0x2C]) ++
        (m.text ++ following trail back)) := by
  cases front with
  | nil => rfl
  | cons m' front =>
      rw [List.cons_append, object, following_append, List.flatMap_cons, List.append_assoc,
        List.append_assoc, List.singleton_append]

theorem dropWhile_blanks {blanks rest : List UInt8} (hblanks : ∀ b ∈ blanks, isBlank b = true)
    (hrest : ∀ b ∈ rest.head?, isBlank b = false) : (blanks ++ rest).dropWhile isBlank = rest := by
  rw [List.dropWhile_append_of_pos hblanks]
  cases rest with
  | nil => rfl
  | cons b rest => exact List.dropWhile_cons_of_neg (by rw [hrest b rfl]; decide)

theorem Value.Ok.head {v : Value} (h : v.Ok) (rest : List UInt8) :
    ∀ b ∈ (v.text ++ rest).head?, isBlank b = false := by
  intro b hb
  cases v with
  | str text =>
      obtain rfl := Option.some.inj hb
      rfl
  | raw text =>
      obtain ⟨c, hc, hblank⟩ := h.2
      rw [Value.text, List.head?_append, Option.mem_def.mp hc] at hb
      rwa [← Option.some.inj hb]

/-- A member with the key is found. -/
theorem lookup_hit {pre rest : List UInt8} {m : Member} (hpre : opens pre = true) (hm : m.Ok) :
    lookup m.key pre (quoted m.key ++ (m.beforeColon ++ (0x3A :: (m.beforeValue ++
      (m.value.text ++ rest))))) = some (m.value.text ++ rest) := by
  set tail := m.beforeColon ++ (0x3A :: (m.beforeValue ++ (m.value.text ++ rest))) with htail
  have hafter : afterKey m.key (quoted m.key ++ tail) =
      0x3A :: (m.beforeValue ++ (m.value.text ++ rest)) := by
    rw [afterKey, List.drop_left, htail]
    refine dropWhile_blanks hm.beforeColon fun b hb => ?_
    rw [← Option.some.inj hb]
    decide
  have hhere : isKeyHere m.key pre (quoted m.key ++ tail) = true := by
    have hprefix : (quoted m.key).isPrefixOf (quoted m.key ++ tail) = true :=
      List.isPrefixOf_iff_prefix.mpr (List.prefix_append _ _)
    rw [isKeyHere, hprefix, hpre, hafter]
    rfl
  change lookup m.key pre (0x22 :: ((m.key ++ [0x22]) ++ tail)) = _
  rw [lookup]
  change ite (isKeyHere m.key pre (quoted m.key ++ tail) = true) _ _ = _
  rw [if_pos hhere]
  change some ((afterKey m.key (quoted m.key ++ tail)).tail.dropWhile isBlank) = _
  rw [hafter, List.tail_cons, dropWhile_blanks hm.beforeValue (hm.value.head rest)]

section Lookup

variable {key : List UInt8} (hne : key ≠ []) (hkey : ∀ b ∈ key, isKeyByte b = true)

include hne hkey

theorem quiet_value {pre rest : List UInt8} {v : Value} (hv : v.Ok) (hpre : opens pre = false)
    (hrest : Ends rest) : Quiet key pre v.text rest := by
  cases v with
  | raw text => exact quiet_of_not_mem hv.1
  | str text => exact quiet_string hne hkey hpre hv (hrest.eq_false (by decide))

/-- A member with another key is passed over. -/
theorem lookup_miss {pre rest : List UInt8} {m : Member} (hm : m.Ok) (hdiffer : m.key ≠ key)
    (hrest : Ends rest) : lookup key pre (m.text ++ rest) = lookup key (pre ++ m.text) rest := by
  set front := pre ++ m.beforeKey ++ quoted m.key with hfront
  have hcolon : (0x22 : UInt8) ∉ m.beforeColon ++ (0x3A :: m.beforeValue) := by
    have hbefore := quote_not_mem_blanks hm.beforeColon
    have hafter := quote_not_mem_blanks hm.beforeValue
    simp [hbefore, hafter]
  have hheads : ∀ b ∈ (m.beforeColon ++ (0x3A :: m.beforeValue) ++
      (m.value.text ++ (m.afterValue ++ rest))).head?, isKeyByte b = false := by
    intro b hb
    cases hblanks : m.beforeColon with
    | nil =>
        rw [hblanks] at hb
        rw [← Option.some.inj hb]
        decide
    | cons c blanks =>
        rw [hblanks] at hb
        have hc := hm.beforeColon c (hblanks ▸ List.mem_cons_self)
        rw [← Option.some.inj hb]
        rcases isBlank_iff.mp hc with rfl | rfl
        · decide
        · decide
  have hopens : opens (front ++ (m.beforeColon ++ (0x3A :: m.beforeValue))) = false := by
    rw [List.append_cons, ← List.append_assoc, opens_append_blanks hm.beforeValue,
      ← List.append_assoc, opens_concat rfl]
    rfl
  have hends := ends_append_blanks hm.afterValue hrest
  have htext : m.text ++ rest = m.beforeKey ++ (quoted m.key ++
      ((m.beforeColon ++ (0x3A :: m.beforeValue)) ++
        (m.value.text ++ (m.afterValue ++ rest)))) := by
    simp only [Member.text, List.append_assoc, List.cons_append]
  have hwhole : front ++ (m.beforeColon ++ (0x3A :: m.beforeValue)) ++ m.value.text ++
      m.afterValue = pre ++ m.text := by
    simp only [hfront, Member.text, List.append_assoc, List.cons_append]
  rw [htext, lookup_quiet (quiet_of_not_mem (quote_not_mem_blanks hm.beforeKey)),
    lookup_quiet (quiet_key hne hkey hm.key hdiffer hheads),
    lookup_quiet (quiet_of_not_mem hcolon),
    lookup_quiet (quiet_value hne hkey hm.value hopens hends),
    lookup_quiet (quiet_of_not_mem (quote_not_mem_blanks hm.afterValue)), hwhole]

theorem lookup_member {pre rest : List UInt8} {m : Member} (hpre : opens pre = true) (hm : m.Ok)
    (hrest : Ends rest) :
    lookup key pre (m.text ++ rest) =
      if m.key = key then some (m.value.text ++ (m.afterValue ++ rest))
      else lookup key (pre ++ m.text) rest := by
  split_ifs with hsame
  · subst hsame
    have htext : m.text ++ rest = m.beforeKey ++ (quoted m.key ++ (m.beforeColon ++ (0x3A ::
        (m.beforeValue ++ (m.value.text ++ (m.afterValue ++ rest)))))) := by
      simp only [Member.text, List.append_assoc, List.cons_append]
    rw [htext, lookup_quiet (quiet_of_not_mem (quote_not_mem_blanks hm.beforeKey)),
      lookup_hit (by rwa [opens_append_blanks hm.beforeKey]) hm]
  · exact lookup_miss hne hkey hm hsame hrest

theorem lookup_following {trail : List UInt8} (htrail : (0x22 : UInt8) ∉ trail)
    {members : List Member} (hmembers : ∀ m ∈ members, m.Ok) :
    ∀ pre, lookup key pre (following trail members) = valueOf key trail members := by
  induction members with
  | nil =>
      intro pre
      have hquiet : Quiet key pre (0x7D :: trail) [] := quiet_of_not_mem (by simp [htrail])
      have hlookup := lookup_quiet hquiet
      rwa [List.append_nil] at hlookup
  | cons m members ih =>
      intro pre
      have hcomma : opens (pre ++ [0x2C]) = true := opens_concat rfl
      rw [following, lookup, if_neg (by rw [isKeyHere_of_ne_quote (by decide)]; decide),
        lookup_member hne hkey hcomma (hmembers m List.mem_cons_self)
          (ends_following trail members),
        ih fun m' hm' => hmembers m' (List.mem_cons_of_mem _ hm')]
      rfl

/-- The search finds the value of the first member with the key. -/
theorem lookup_object {trail : List UInt8} (htrail : (0x22 : UInt8) ∉ trail)
    {members : List Member} (hmembers : ∀ m ∈ members, m.Ok) (pre : List UInt8) :
    lookup key pre (object trail members) = valueOf key trail members := by
  have hbrace : opens (pre ++ [0x7B]) = true := opens_concat rfl
  cases members with
  | nil =>
      rw [object, lookup, if_neg (by rw [isKeyHere_of_ne_quote (by decide)]; decide)]
      exact lookup_following hne hkey htrail hmembers _
  | cons m members =>
      rw [object, lookup, if_neg (by rw [isKeyHere_of_ne_quote (by decide)]; decide),
        lookup_member hne hkey hbrace (hmembers m List.mem_cons_self)
          (ends_following trail members),
        lookup_following hne hkey htrail fun m' hm' => hmembers m' (List.mem_cons_of_mem _ hm')]
      rfl

end Lookup

/-! ### Documents -/

/-- An object on a line of its own, with blanks between any two of its tokens and something without
quotes behind it, such as blanks or the end of the line. -/
structure Document where
  members : List Member
  lead : List UInt8 := []
  /-- What stands between the braces when there is no member. -/
  inside : List UInt8 := []
  trail : List UInt8 := []

namespace Document

def text (d : Document) : List UInt8 :=
  d.lead ++ (if d.members = [] then 0x7B :: (d.inside ++ 0x7D :: d.trail)
    else object d.trail d.members)

structure Ok (d : Document) : Prop where
  members : ∀ m ∈ d.members, m.Ok
  lead : ∀ b ∈ d.lead, isBlank b = true
  inside : ∀ b ∈ d.inside, isBlank b = true
  trail : (0x22 : UInt8) ∉ d.trail

/-- The text up to the value of a member that stands behind the given ones. -/
def before (d : Document) (front : List Member) (m : Member) : List UInt8 :=
  d.lead ++ (0x7B :: (front.flatMap (fun m' => m'.text ++ [0x2C]) ++
    (m.beforeKey ++ (quoted m.key ++ (m.beforeColon ++ (0x3A :: m.beforeValue))))))

theorem text_eq_before {d : Document} {front back : List Member} {m : Member}
    (hmembers : d.members = front ++ m :: back) :
    d.text = d.before front m ++ (m.value.text ++ (m.afterValue ++ following d.trail back)) := by
  rw [text, if_neg (by simp [hmembers]), hmembers, object_append, before, Member.text]
  simp only [List.append_assoc, List.cons_append]

theorem lookup_text {key : List UInt8} (hne : key ≠ []) (hkey : ∀ b ∈ key, isKeyByte b = true)
    {d : Document} (hd : d.Ok) : lookup key [] d.text = valueOf key d.trail d.members := by
  rw [text, lookup_quiet (quiet_of_not_mem (quote_not_mem_blanks hd.lead))]
  split_ifs with hempty
  · have hquiet : (0x22 : UInt8) ∉ 0x7B :: (d.inside ++ 0x7D :: d.trail) := by
      have hinside := quote_not_mem_blanks hd.inside
      simp [hinside, hd.trail]
    have hquiet' : Quiet key ([] ++ d.lead) (0x7B :: (d.inside ++ 0x7D :: d.trail)) [] :=
      quiet_of_not_mem hquiet
    have hlookup := lookup_quiet hquiet'
    rw [List.append_nil] at hlookup
    rw [hlookup, hempty]
    rfl
  · exact lookup_object hne hkey hd.trail hd.members _

end Document

/-! ### What a string says -/

/-- The escapes of quotes, backslashes, slashes, newlines and tabs are resolved, and every other is
left as it is written. -/
def unescape : List UInt8 → List UInt8
  | [] => []
  | [b] => [b]
  | b :: c :: rest =>
      if b = 0x5C then
        if c = 0x22 ∨ c = 0x5C ∨ c = 0x2F then c :: unescape rest
        else if c = 0x6E then 0x0A :: unescape rest
        else if c = 0x74 then 0x09 :: unescape rest
        else b :: c :: unescape rest
      else b :: unescape (c :: rest)

theorem unescape_plain {b : UInt8} (hslash : b ≠ 0x5C) (rest : List UInt8) :
    unescape (b :: rest) = b :: unescape rest := by
  cases rest with
  | nil => rfl
  | cons c rest => rw [unescape, if_neg hslash]

/-- What a value says if it is a string. -/
def Value.content : Value → Option (List UInt8)
  | raw _ => none
  | str text => some (unescape text)

end FlatJson
