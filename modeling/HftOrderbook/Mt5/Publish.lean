import HftOrderbook.Book.OrderBook
import HftOrderbook.Mt5.Protocol

/-!
# What the engine publishes

`publish_depth` and `publish_signal` send one line each: the top of a book, or what the metrics make
of it. The numbers of a signal are the doubles of the source.
-/

namespace HftOrderbook.Mt5

open ByteText Decimal FlatJson

variable {Double : Type} [FloatText Double]

/-- The arguments of `encode_signal` and the outputs of `parse_signal`. -/
structure Signal (Double : Type) [FloatText Double] where
  symbol : List UInt8 := []
  mid : Double := FloatText.zero
  microprice : Double := FloatText.zero
  imbalance : Double := FloatText.zero
  spreadBps : Double := FloatText.zero

def encodeSignal (s : Signal Double) : List UInt8 :=
  ascii "\x7b\"t\":\"signal\",\"v\":" ++ signedNumeral kProtocolVersion.toInt ++
    ascii ",\"symbol\":\"" ++ esc s.symbol ++ ascii "\"" ++
    ascii ",\"mid\":" ++ fmtDouble s.mid ++
    ascii ",\"microprice\":" ++ fmtDouble s.microprice ++
    ascii ",\"imbalance\":" ++ fmtDouble s.imbalance ++
    ascii ",\"spread_bps\":" ++ fmtDouble s.spreadBps ++ ascii "\x7d\n"

def parseSignal (line : List UInt8) (out : Signal Double) : Bool × Signal Double :=
  match jsonGetStr line (ascii "symbol") with
  | none => (false, out)
  | some symbol =>
      let out := { out with symbol }
      let out := { out with mid := (jsonGetDouble line (ascii "mid")).getD out.mid }
      let out := { out with
        microprice := (jsonGetDouble line (ascii "microprice")).getD out.microprice }
      let out := { out with
        imbalance := (jsonGetDouble line (ascii "imbalance")).getD out.imbalance }
      let out := { out with
        spreadBps := (jsonGetDouble line (ascii "spread_bps")).getD out.spreadBps }
      (true, out)

/-- A level of the book, its price as the 64-bit word it is in the source. -/
def wireLevel (l : Price × Qty) : Level := (Int64.ofInt l.1, l.2)

/-- The line that `publish_depth` sends. -/
def publishDepth {S : Compare → Type} [LevelStore S] (symbol : List UInt8)
    (book : BasicOrderBook S) (n : Nat) : List UInt8 :=
  encodeDepth symbol ((LevelStore.top book.bids n).map wireLevel)
    ((LevelStore.top book.asks n).map wireLevel)

end HftOrderbook.Mt5
