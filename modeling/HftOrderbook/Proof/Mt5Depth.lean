import HftOrderbook.Proof.Mt5Lookup

/-!
# Depth ladders

The loop of `parse_levels` steps over what separates the pairs and stops at the first bracket that
closes none of them. On a ladder as it is written, its position is always behind a whole level, and
on any other text every round moves it forward.
-/

namespace HftOrderbook.Mt5

open ByteText Decimal FlatJson

/-! ### One level -/

theorem dropWhile_numeral (n : Nat) (rest : List UInt8) :
    (numeral n ++ rest).dropWhile (fun b => b == 0x2C || b == 0x20) = numeral n ++ rest := by
  cases hnumeral : numeral n with
  | nil => exact absurd hnumeral (numeral_ne_nil n)
  | cons b digits =>
      have hdigit : isDigit b = true := isDigit_of_mem_numeral (hnumeral ▸ List.mem_cons_self)
      refine List.dropWhile_cons_of_neg ?_
      rw [Bool.or_eq_true, beq_iff_eq, beq_iff_eq]
      rintro (rfl | rfl)
      · exact absurd hdigit (by decide)
      · exact absurd hdigit (by decide)

theorem parsePair_append (l : Level) (rest : List UInt8) :
    parsePair (signedNumeral l.1.toInt ++ (0x2C :: (numeral l.2.toNat ++ 0x5D :: rest))) =
      some ((l.1.toInt, (l.2.toNat : Int)), rest) := by
  have hlow := l.1.le_toInt
  have hhigh := l.1.toInt_lt
  have hqty := l.2.toNat_lt
  have hprice : max (-2 ^ 63) (min (2 ^ 63 - 1) l.1.toInt) = l.1.toInt := by omega
  have hclamp : max (-2 ^ 63) (min (2 ^ 63 - 1) (l.2.toNat : Int)) = (l.2.toNat : Int) := by omega
  have hcomma : ∀ b ∈ (0x2C :: (numeral l.2.toNat ++ 0x5D :: rest)).head?, isDigit b = false := by
    simp [isDigit]
  have hbracket : ∀ b ∈ (0x5D :: rest).head?, isDigit b = false := by
    simp [isDigit]
  have hskip : (0x2C :: (numeral l.2.toNat ++ 0x5D :: rest)).dropWhile
      (fun b => b == 0x2C || b == 0x20) = numeral l.2.toNat ++ 0x5D :: rest := by
    rw [List.dropWhile_cons_of_pos rfl]
    exact dropWhile_numeral _ _
  have hread := strtoll_signedNumeral (l.2.toNat : Int) hbracket
  rw [signedNumeral_natCast, hclamp] at hread
  rw [parsePair, strtoll_signedNumeral _ hcomma, hprice]
  simp only [Option.bind_eq_bind, Option.bind_some, List.drop_left, hskip, hread]
  rfl

theorem parsePair_suffix {rest rest' : List UInt8} {pq : Int × Int}
    (h : parsePair rest = some (pq, rest')) : rest' <:+ rest := by
  rw [parsePair] at h
  obtain ⟨⟨p, taken⟩, -, h⟩ := Option.bind_eq_some_iff.mp h
  obtain ⟨⟨q, taken'⟩, -, h⟩ := Option.bind_eq_some_iff.mp h
  obtain rfl := (Prod.mk.inj (Option.some.inj h)).2
  exact (List.drop_suffix _ _).trans ((List.dropWhile_suffix _).trans ((List.drop_suffix _ _).trans
    ((List.dropWhile_suffix _).trans (List.drop_suffix _ _))))

/-! ### The loop -/

theorem levelsLoop_terminates {fuel : Nat} {rest : List UInt8} (hfuel : rest.length < fuel)
    (out : List Level) : ∃ result, levelsLoop fuel rest out = some result := by
  induction fuel generalizing rest out with
  | zero => omega
  | succ fuel ih =>
      cases rest with
      | nil => exact ⟨_, rfl⟩
      | cons b rest =>
          rw [List.length_cons] at hfuel
          rw [levelsLoop]
          split_ifs
          · exact ⟨_, rfl⟩
          · exact ih (by omega) out
          · cases hpair : parsePair rest with
            | none => exact ⟨_, rfl⟩
            | some next =>
                have hsuffix : next.2 <:+ rest := parsePair_suffix hpair
                have hle := hsuffix.length_le
                exact ih (by omega) _

theorem length_encodeLevel_pos (l : Level) : 0 < (encodeLevel l).length := by
  simp only [encodeLevel, List.append_assoc, List.length_append]
  exact Nat.add_pos_left (by decide) _

theorem parseLevels_terminates (line key : List UInt8) (out : List Level) :
    ∃ result, parseLevels line key out = some result := by
  rw [parseLevels]
  cases hpos : valuePos line key with
  | none => exact ⟨_, rfl⟩
  | some i =>
      rw [Option.map_some]
      have hle : (line.drop i).length ≤ line.length := (List.drop_suffix i line).length_le
      cases hrest : line.drop i with
      | nil => exact ⟨_, rfl⟩
      | cons b rest =>
          rw [hrest, List.length_cons] at hle
          dsimp only
          split_ifs
          · exact levelsLoop_terminates (by omega) []
          · exact ⟨_, rfl⟩

/-- At the start of a level the loop takes the whole level. -/
theorem levelsLoop_level (fuel : Nat) (l : Level) (rest : List UInt8) (out : List Level) :
    levelsLoop (fuel + 1) (encodeLevel l ++ rest) out = levelsLoop fuel rest (out ++ [l]) := by
  have htext : encodeLevel l ++ rest = 0x5B :: (signedNumeral l.1.toInt ++ (0x2C ::
      (numeral l.2.toNat ++ 0x5D :: rest))) := by
    simp only [encodeLevel, List.append_assoc]
    rfl
  have hqty : UInt32.ofInt (l.2.toNat : Int) = l.2 := by
    have hlt := l.2.toNat_lt
    rw [UInt32.ofInt, ← UInt32.toNat_inj, UInt32.toNat_ofNat']
    omega
  rw [htext, levelsLoop, if_neg (by decide), if_neg (by decide), parsePair_append]
  dsimp only
  rw [hqty, Int64.ofInt_toInt]

theorem levelsLoop_levels (levels : List Level) (rest : List UInt8) :
    ∀ (fuel : Nat) (out : List Level),
      (levels.flatMap (fun l => ascii "," ++ encodeLevel l) ++ 0x5D :: rest).length < fuel →
      levelsLoop fuel (levels.flatMap (fun l => ascii "," ++ encodeLevel l) ++ 0x5D :: rest) out =
        some (true, out ++ levels) := by
  induction levels with
  | nil =>
      intro fuel out hfuel
      obtain ⟨fuel, rfl⟩ : ∃ n, fuel = n + 1 := ⟨fuel - 1, by omega⟩
      rw [List.append_nil]
      rfl
  | cons l levels ih =>
      intro fuel out hfuel
      have htext : (l :: levels).flatMap (fun l => ascii "," ++ encodeLevel l) ++ 0x5D :: rest =
          0x2C :: (encodeLevel l ++
            (levels.flatMap (fun l => ascii "," ++ encodeLevel l) ++ 0x5D :: rest)) := by
        simp only [List.flatMap_cons, List.append_assoc]
        rfl
      have hlevel := length_encodeLevel_pos l
      rw [htext, List.length_cons, List.length_append] at hfuel
      obtain ⟨fuel, rfl⟩ : ∃ n, fuel = n + 2 := ⟨fuel - 2, by omega⟩
      rw [htext, levelsLoop, if_neg (by decide), if_pos (by decide), levelsLoop_level,
        ih fuel _ (by omega), List.append_assoc, List.singleton_append]

theorem levelsLoop_encodeLevels (levels : List Level) (rest : List UInt8) {fuel : Nat}
    (hfuel : (encodeLevels levels ++ 0x5D :: rest).length < fuel) :
    levelsLoop fuel (encodeLevels levels ++ 0x5D :: rest) [] = some (true, levels) := by
  cases levels with
  | nil => exact levelsLoop_levels [] rest fuel [] hfuel
  | cons l levels =>
      have hlevel := length_encodeLevel_pos l
      rw [encodeLevels, List.append_assoc, List.length_append] at hfuel
      obtain ⟨fuel, rfl⟩ : ∃ n, fuel = n + 1 := ⟨fuel - 1, by omega⟩
      rw [encodeLevels, List.append_assoc, levelsLoop_level, levelsLoop_levels _ _ _ _ (by omega)]
      rfl

/-! ### The line -/

def ladder (levels : List Level) : Value := .raw (0x5B :: (encodeLevels levels ++ [0x5D]))

def depthMembers (symbol : List UInt8) (bids asks : List Level) : List Member :=
  [{ key := ascii "t", value := .str (esc (ascii "depth")) },
    { key := ascii "v", value := .raw (signedNumeral kProtocolVersion.toInt) },
    { key := ascii "symbol", value := .str (esc symbol) },
    { key := ascii "bids", value := ladder bids }, { key := ascii "asks", value := ladder asks }]

theorem encodeDepth_eq_object (symbol : List UInt8) (bids asks : List Level) :
    encodeDepth symbol bids asks = object (ascii "\n") (depthMembers symbol bids asks) := by
  simp only [encodeDepth, depthMembers, ladder, object, following, Member.text, Value.text, quoted,
    List.append_assoc, List.cons_append, List.nil_append]
  rfl

theorem quote_not_mem_encodeLevel (l : Level) : (0x22 : UInt8) ∉ encodeLevel l := by
  have hprice : (0x22 : UInt8) ∉ signedNumeral l.1.toInt := fun hmem =>
    (of_isTokenByte (isTokenByte_of_mem_signedNumeral hmem)).1 rfl
  have hqty : (0x22 : UInt8) ∉ numeral l.2.toNat := fun hmem =>
    absurd (isDigit_of_mem_numeral hmem) (by decide)
  have hopen : (0x22 : UInt8) ∉ ascii "[" := by decide
  have hcomma : (0x22 : UInt8) ∉ ascii "," := by decide
  have hclose : (0x22 : UInt8) ∉ ascii "]" := by decide
  simp only [encodeLevel, List.mem_append, not_or]
  exact ⟨⟨⟨⟨hopen, hprice⟩, hcomma⟩, hqty⟩, hclose⟩

theorem quote_not_mem_encodeLevels (levels : List Level) :
    (0x22 : UInt8) ∉ encodeLevels levels := by
  cases levels with
  | nil => exact List.not_mem_nil
  | cons l levels =>
      have hcomma : (0x22 : UInt8) ∉ ascii "," := by decide
      simp only [encodeLevels, List.mem_append, List.mem_flatMap, not_or, not_exists, not_and]
      exact ⟨quote_not_mem_encodeLevel l, fun l' _ => ⟨hcomma, quote_not_mem_encodeLevel l'⟩⟩

theorem ladder_ok (levels : List Level) : (ladder levels).Ok := by
  have hlevels := quote_not_mem_encodeLevels levels
  exact ⟨by simp [hlevels], 0x5B, rfl, rfl⟩

theorem depthMembers_ok (symbol : List UInt8) (bids asks : List Level) :
    ∀ m ∈ depthMembers symbol bids asks, m.Ok := by
  have hok : ∀ (key : List UInt8) (v : Value), IsKey key → v.Ok →
      ({ key := key, value := v } : Member).Ok := fun key v hkey hv =>
    ⟨hkey.2, hv, by simp, by simp, by simp, by simp⟩
  have hversion : (Value.raw (signedNumeral kProtocolVersion.toInt)).Ok :=
    ⟨by decide, 0x31, rfl, rfl⟩
  simp only [depthMembers, List.forall_mem_cons]
  exact ⟨hok _ _ (by decide) (escaped_esc _), hok _ _ (by decide) hversion,
    hok _ _ (by decide) (escaped_esc _), hok _ _ (by decide) (ladder_ok _),
    hok _ _ (by decide) (ladder_ok _), by simp⟩

section Depth

variable (symbol : List UInt8) (bids asks : List Level)

theorem jsonGetStr_depth :
    jsonGetStr (encodeDepth symbol bids asks) (ascii "t") = some (ascii "depth") ∧
      jsonGetStr (encodeDepth symbol bids asks) (ascii "symbol") = some symbol := by
  have htrail : (0x22 : UInt8) ∉ ascii "\n" := by decide
  have hok := depthMembers_ok symbol bids asks
  rw [encodeDepth_eq_object]
  constructor
  · have ht := jsonGetStr_object htrail [] _ _ hok (by simp) (by decide)
    exact ht.trans (congrArg some (unescape_esc _))
  · have hsymbol := jsonGetStr_object htrail ((depthMembers symbol bids asks).take 2) _ _ hok
      (show ascii "symbol" ∉ [ascii "t", ascii "v"] by decide)
      (show IsKey (ascii "symbol") by decide)
    exact hsymbol.trans (congrArg some (unescape_esc _))

/-- The key of a ladder leads to the ladder. -/
theorem parseLevels_of_valuePos {line key rest : List UInt8} {levels : List Level} {i : Nat}
    (hpos : valuePos line key = some i) (hdrop : line.drop i = (ladder levels).text ++ rest)
    (out : List Level) : parseLevels line key out = some (true, levels) := by
  have hle : (line.drop i).length ≤ line.length := (List.drop_suffix i line).length_le
  have htext : line.drop i = 0x5B :: (encodeLevels levels ++ 0x5D :: rest) := by
    rw [hdrop, ladder, Value.text, List.cons_append, List.append_assoc, List.singleton_append]
  rw [htext, List.length_cons] at hle
  rw [parseLevels, hpos, Option.map_some, htext]
  dsimp only
  rw [if_pos rfl, levelsLoop_encodeLevels levels rest (by omega)]

theorem parseLevels_depth (out : List Level) :
    parseLevels (encodeDepth symbol bids asks) (ascii "bids") out = some (true, bids) ∧
      parseLevels (encodeDepth symbol bids asks) (ascii "asks") out = some (true, asks) := by
  have htrail : (0x22 : UInt8) ∉ ascii "\n" := by decide
  have hok := depthMembers_ok symbol bids asks
  rw [encodeDepth_eq_object]
  constructor
  · obtain ⟨i, hpos, hdrop⟩ := valuePos_object htrail ((depthMembers symbol bids asks).take 3) _ _
      hok (show ascii "bids" ∉ [ascii "t", ascii "v", ascii "symbol"] by decide)
      (show IsKey (ascii "bids") by decide)
    exact parseLevels_of_valuePos hpos hdrop out
  · obtain ⟨i, hpos, hdrop⟩ := valuePos_object htrail ((depthMembers symbol bids asks).take 4) _ _
      hok (show ascii "asks" ∉ [ascii "t", ascii "v", ascii "symbol", ascii "bids"] by decide)
      (show IsKey (ascii "asks") by decide)
    exact parseLevels_of_valuePos hpos hdrop out

end Depth

/-- A depth snapshot comes out as it went in, and on every line the loop over the levels ends. -/
theorem depth_round_trip :
    (∀ (symbol : List UInt8) (bids asks : List Level),
      kindOf (encodeDepth symbol bids asks) = .depth ∧
      ∀ (symbol' : List UInt8) (bids' asks' : List Level),
        parseDepth (encodeDepth symbol bids asks) symbol' bids' asks' =
          some (true, symbol, bids, asks)) ∧
    ∀ (line key : List UInt8) (out : List Level),
      ∃ result, parseLevels line key out = some result := by
  refine ⟨fun symbol bids asks => ⟨?_, fun symbol' bids' asks' => ?_⟩, parseLevels_terminates⟩
  · rw [kindOf, (jsonGetStr_depth symbol bids asks).1]
    rfl
  · rw [parseDepth, (jsonGetStr_depth symbol bids asks).2]
    dsimp only
    rw [(parseLevels_depth symbol bids asks bids').1, (parseLevels_depth symbol bids asks asks').2]
    rfl

end HftOrderbook.Mt5
