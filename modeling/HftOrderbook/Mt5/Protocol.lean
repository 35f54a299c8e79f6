import HftOrderbook.Core.Types
import HftOrderbook.Library.ByteText
import HftOrderbook.Library.Decimal
import HftOrderbook.Library.FlatJson

/-!
# The MT5 bridge protocol

One flat JSON object a line. Fields are written in a fixed order and found again by looking for
their quoted names anywhere in the line, so what a string field holds must not be able to pass for a
field of its own.
-/

namespace HftOrderbook.Mt5

open ByteText Decimal FlatJson

/-- The two calls of the C library that print a double with `%.10g` and read one. -/
class FloatText (Double : Type) where
  zero : Double
  snprintf : Double → List UInt8
  /-- The value and how far `end` has moved, `none` if it has not. -/
  strtod : List UInt8 → Option (Double × Nat)

def isTokenByte (b : UInt8) : Bool :=
  isDigit b || (0x61 ≤ b && b ≤ 0x7A) || b == 0x2B || b == 0x2D || b == 0x2E

/-- A double is printed as a token. Where the text ends with the token, or a value of an object ends
with it, reading takes exactly the token and depends on nothing else. -/
structure FloatText.Lawful (Double : Type) [FloatText Double] : Prop where
  ne_nil : ∀ v : Double, snprintf v ≠ []
  token : ∀ v : Double, ∀ b ∈ snprintf v, isTokenByte b = true
  reread : ∀ v : Double, ∃ v' : Double, ∀ rest : List UInt8, rest = [] ∨ Ends rest →
    strtod (snprintf v ++ rest) = some (v', (snprintf v).length)

def kProtocolVersion : Int32 := 1

inductive MsgKind
  | unknown
  | hello
  | subscribe
  | tick
  | order
  | ack
  | nop
  | bye
  | heartbeat
  | depth
  | signal
  deriving DecidableEq

structure Tick (Double : Type) [FloatText Double] where
  symbol : List UInt8 := []
  time : UInt64 := 0
  bid : Double := FloatText.zero
  ask : Double := FloatText.zero
  last : Double := FloatText.zero
  volume : UInt64 := 0

structure Order (Double : Type) [FloatText Double] where
  id : UInt64 := 0
  symbol : List UInt8 := []
  side : Side := Side.none
  volume : Double := FloatText.zero
  price : Double := FloatText.zero
  kind : List UInt8 := ascii "market"

/-- A level on the wire, its price the 64-bit word of the source. -/
abbrev Level := Int64 × Qty

structure Ack where
  id : UInt64 := 0
  ok : Bool := false
  retcode : Int32 := 0
  message : List UInt8 := []

variable {Double : Type} [FloatText Double]

/-! ### Reading fields -/

/-- The loop that steps back over blanks. -/
def skipBack (s : List UInt8) : Nat → Nat
  | 0 => 0
  | p + 1 => if isBlank (s.getD p 0) then skipBack s p else p + 1

/-- The loop that steps over blanks. -/
def skipBlanks (s : List UInt8) (i : Nat) : Nat := i + ((s.drop i).takeWhile isBlank).length

/-- The search from an offset on. A match counts behind `{` or `,` and before `:`. -/
def valuePosFrom (s key : List UInt8) : Nat → Nat → Option Nat
  | 0, _ => none
  | fuel + 1, start =>
      let pat := ascii "\"" ++ key ++ ascii "\""
      match find s pat start with
      | none => none
      | some k =>
          let p := skipBack s k
          let atKey := p == 0 || s[p - 1]? == some 0x7B || s[p - 1]? == some 0x2C
          let c := skipBlanks s (k + pat.length)
          if atKey && s[c]? == some 0x3A then some (skipBlanks s (c + 1))
          else valuePosFrom s key fuel (k + 1)

def valuePos (s key : List UInt8) : Option Nat := valuePosFrom s key (s.length + 1) 0

def fmtDouble (v : Double) : List UInt8 := FloatText.snprintf v

def esc (s : List UInt8) : List UInt8 :=
  s.flatMap fun c =>
    if c = 0x22 ∨ c = 0x5C then [0x5C, c]
    else if c = 0x0A then ascii "\\n"
    else if c = 0x09 then ascii "\\t"
    else [c]

/-- The loop of `json_get_str` behind the opening quote, `none` for an unterminated string. -/
def readStr : List UInt8 → Option (List UInt8)
  | [] => none
  | [ch] => if ch = 0x22 then some [] else none
  | ch :: nx :: rest =>
      if ch = 0x5C then
        if nx = 0x22 ∨ nx = 0x5C ∨ nx = 0x2F then (readStr rest).map (nx :: ·)
        else if nx = 0x6E then (readStr rest).map (0x0A :: ·)
        else if nx = 0x74 then (readStr rest).map (0x09 :: ·)
        else (readStr (nx :: rest)).map (ch :: ·)
      else if ch = 0x22 then some []
      else (readStr (nx :: rest)).map (ch :: ·)

def jsonGetStr (s key : List UInt8) : Option (List UInt8) := do
  let i ← valuePos s key
  match s.drop i with
  | [] => none
  | ch :: rest => if ch = 0x22 then readStr rest else none

def jsonGetInt (s key : List UInt8) : Option Int := do
  let i ← valuePos s key
  (strtoll (s.drop i)).map Prod.fst

def jsonGetDouble (s key : List UInt8) : Option Double := do
  let i ← valuePos s key
  (FloatText.strtod (s.drop i)).map Prod.fst

def jsonGetBool (s key : List UInt8) : Option Bool := do
  let i ← valuePos s key
  if substr s i 4 = ascii "true" then some true
  else if substr s i 5 = ascii "false" then some false
  else none

def kindOf (line : List UInt8) : MsgKind :=
  match jsonGetStr line (ascii "t") with
  | none => .unknown
  | some t =>
      if t = ascii "hello" then .hello
      else if t = ascii "subscribe" then .subscribe
      else if t = ascii "tick" then .tick
      else if t = ascii "order" then .order
      else if t = ascii "ack" then .ack
      else if t = ascii "nop" then .nop
      else if t = ascii "bye" then .bye
      else if t = ascii "heartbeat" then .heartbeat
      else if t = ascii "depth" then .depth
      else if t = ascii "signal" then .signal
      else .unknown

/-! ### Encoders -/

def encodeHello (client : List UInt8) (account : UInt64) : List UInt8 :=
  ascii "\x7b\"t\":\"hello\",\"v\":" ++ signedNumeral kProtocolVersion.toInt ++
    ascii ",\"client\":\"" ++ esc client ++ ascii "\",\"account\":" ++ numeral account.toNat ++
    ascii "\x7d\n"

def boolText (ok : Bool) : List UInt8 := if ok then ascii "true" else ascii "false"

def encodeHelloReply (server : List UInt8) (ok : Bool) : List UInt8 :=
  ascii "\x7b\"t\":\"hello\",\"v\":" ++ signedNumeral kProtocolVersion.toInt ++
    ascii ",\"server\":\"" ++ esc server ++ ascii "\",\"ok\":" ++ boolText ok ++ ascii "\x7d\n"

def encodeSubscribe (symbol : List UInt8) : List UInt8 :=
  ascii "\x7b\"t\":\"subscribe\",\"v\":" ++ signedNumeral kProtocolVersion.toInt ++
    ascii ",\"symbol\":\"" ++ esc symbol ++ ascii "\"\x7d\n"

def encodeTick (t : Tick Double) : List UInt8 :=
  ascii "\x7b\"t\":\"tick\",\"v\":" ++ signedNumeral kProtocolVersion.toInt ++
    ascii ",\"symbol\":\"" ++ esc t.symbol ++ ascii "\"" ++
    ascii ",\"time\":" ++ numeral t.time.toNat ++
    ascii ",\"bid\":" ++ fmtDouble t.bid ++
    ascii ",\"ask\":" ++ fmtDouble t.ask ++
    ascii ",\"last\":" ++ fmtDouble t.last ++
    ascii ",\"volume\":" ++ numeral t.volume.toNat ++ ascii "\x7d\n"

def encodeOrder (o : Order Double) : List UInt8 :=
  let side := if o.side = Side.buy then 0x42 else 0x53
  ascii "\x7b\"t\":\"order\",\"v\":" ++ signedNumeral kProtocolVersion.toInt ++
    ascii ",\"id\":" ++ numeral o.id.toNat ++
    ascii ",\"symbol\":\"" ++ esc o.symbol ++ ascii "\"" ++
    ascii ",\"side\":\"" ++ [side] ++ ascii "\"" ++
    ascii ",\"volume\":" ++ fmtDouble o.volume ++
    ascii ",\"price\":" ++ fmtDouble o.price ++
    ascii ",\"kind\":\"" ++ esc o.kind ++ ascii "\"\x7d\n"

def encodeAck (a : Ack) : List UInt8 :=
  ascii "\x7b\"t\":\"ack\",\"v\":" ++ signedNumeral kProtocolVersion.toInt ++
    ascii ",\"id\":" ++ numeral a.id.toNat ++
    ascii ",\"ok\":" ++ boolText a.ok ++
    ascii ",\"retcode\":" ++ signedNumeral a.retcode.toInt ++
    ascii ",\"message\":\"" ++ esc a.message ++ ascii "\"\x7d\n"

def encodeNop : List UInt8 := ascii "\x7b\"t\":\"nop\",\"v\":1\x7d\n"

def encodeBye : List UInt8 := ascii "\x7b\"t\":\"bye\",\"v\":1\x7d\n"

def encodeLevel (l : Level) : List UInt8 :=
  ascii "[" ++ signedNumeral l.1.toInt ++ ascii "," ++ numeral l.2.toNat ++ ascii "]"

/-- The loop over a ladder, with a comma before every level but the first. -/
def encodeLevels : List Level → List UInt8
  | [] => []
  | l :: levels => encodeLevel l ++ levels.flatMap fun l' => ascii "," ++ encodeLevel l'

def encodeDepth (symbol : List UInt8) (bids asks : List Level) : List UInt8 :=
  ascii "\x7b\"t\":\"depth\",\"v\":" ++ signedNumeral kProtocolVersion.toInt ++
    ascii ",\"symbol\":\"" ++ esc symbol ++ ascii "\",\"bids\":[" ++ encodeLevels bids ++
    ascii "],\"asks\":[" ++ encodeLevels asks ++ ascii "]\x7d\n"

/-! ### Parsers, as what they return and what they leave in `out` -/

def parseTick (line : List UInt8) (out : Tick Double) : Bool × Tick Double :=
  match jsonGetStr line (ascii "symbol") with
  | none => (false, out)
  | some symbol =>
      let out := { out with symbol }
      match jsonGetDouble line (ascii "bid") with
      | none => (false, out)
      | some bid =>
          let out := { out with bid }
          match jsonGetDouble line (ascii "ask") with
          | none => (false, out)
          | some ask =>
              let out := { out with ask }
              let out := { out with last := (jsonGetDouble line (ascii "last")).getD out.last }
              let out := { out with
                time := ((jsonGetInt line (ascii "time")).map UInt64.ofInt).getD out.time }
              let out := { out with
                volume := ((jsonGetInt line (ascii "volume")).map UInt64.ofInt).getD out.volume }
              (true, out)

def parseOrder (line : List UInt8) (out : Order Double) : Bool × Order Double :=
  match jsonGetInt line (ascii "id") with
  | none => (false, out)
  | some id =>
      let out := { out with id := UInt64.ofInt id }
      match jsonGetStr line (ascii "symbol") with
      | none => (false, out)
      | some symbol =>
          let out := { out with symbol }
          match jsonGetStr line (ascii "side") with
          | none | some [] => (false, out)
          | some (first :: _) =>
              let out := { out with side := if first = 0x42 then Side.buy else Side.sell }
              let out := { out with
                volume := (jsonGetDouble line (ascii "volume")).getD out.volume }
              let out := { out with price := (jsonGetDouble line (ascii "price")).getD out.price }
              let out := { out with kind := (jsonGetStr line (ascii "kind")).getD out.kind }
              (true, out)

def parseAck (line : List UInt8) (out : Ack) : Bool × Ack :=
  match jsonGetInt line (ascii "id") with
  | none => (false, out)
  | some id =>
      let out := { out with id := UInt64.ofInt id }
      let out := { out with ok := (jsonGetBool line (ascii "ok")).getD out.ok }
      let out := { out with
        retcode := ((jsonGetInt line (ascii "retcode")).map Int32.ofInt).getD out.retcode }
      let out := { out with message := (jsonGetStr line (ascii "message")).getD out.message }
      (true, out)

/-- The two numbers behind a bracket and what follows the bracket that closes them. -/
def parsePair (rest : List UInt8) : Option ((Int × Int) × List UInt8) := do
  let (p, taken) ← strtoll rest
  let rest := (rest.drop taken).dropWhile fun b => b == 0x2C || b == 0x20
  let (q, taken) ← strtoll rest
  some ((p, q), ((rest.drop taken).dropWhile (· != 0x5D)).drop 1)

/-- The loop of `parse_levels` on the text from its position on, `none` where the fuel runs out. -/
def levelsLoop : Nat → List UInt8 → List Level → Option (Bool × List Level)
  | 0, _, _ => none
  | _ + 1, [], out => some (true, out)
  | fuel + 1, b :: rest, out =>
      if b = 0x5D then some (true, out)
      else if b ≠ 0x5B then levelsLoop fuel rest out
      else
        match parsePair rest with
        | none => some (false, out)
        | some ((p, q), rest) => levelsLoop fuel rest (out ++ [(Int64.ofInt p, UInt32.ofInt q)])

def parseLevels (line key : List UInt8) (out : List Level) : Option (Bool × List Level) :=
  match (valuePos line key).map line.drop with
  | none | some [] => some (false, out)
  | some (b :: rest) => if b = 0x5B then levelsLoop (line.length + 1) rest [] else some (false, out)

/-- The result and the three outputs. -/
def parseDepth (line symbol : List UInt8) (bids asks : List Level) :
    Option (Bool × List UInt8 × List Level × List Level) :=
  match jsonGetStr line (ascii "symbol") with
  | none => some (false, symbol, bids, asks)
  | some symbol => do
      let (_, bids) ← parseLevels line (ascii "bids") bids
      let (_, asks) ← parseLevels line (ascii "asks") asks
      some (true, symbol, bids, asks)

end HftOrderbook.Mt5
