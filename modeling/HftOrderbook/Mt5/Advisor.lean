import HftOrderbook.Mt5.ExpertAdvisor

/-!
# What the expert advisor sends

The lines of the client side of the bridge, and how it turns an order into a trade request. The
texts are put together without escaping. What the terminal does is a parameter: how it decodes the
bytes of a socket, reads and prints numbers, and answers a trade request.
-/

namespace HftOrderbook.Mt5.ExpertAdvisor

open ByteText Decimal

/-- The terminal and the inputs of the advisor. `toLong` is the conversion `(long)`, `tenthOfALot`
is `0.10`. -/
structure Terminal (Double : Type) where
  symbol : List UInt8
  accountLogin : Int
  heartbeatSecs : Int
  charArrayToString : List UInt8 → List UInt8
  stringToDouble : List UInt8 → Double
  doubleToString : Double → List UInt8
  toLong : Double → Int
  isPositive : Double → Bool
  zero : Double
  tenthOfALot : Double

structure MqlTick (Double : Type) where
  time : Int64
  bid : Double
  ask : Double
  last : Double
  volume : UInt64

/-- Of the enumerations of the terminal, what the advisor can put into a request. -/
inductive EnumTradeRequestActions
  | deal
  deriving DecidableEq

inductive EnumOrderType
  | buy
  | sell
  deriving DecidableEq

inductive EnumOrderTypeFilling
  | ioc
  deriving DecidableEq

structure TradeRequest (Double : Type) where
  action : EnumTradeRequestActions
  symbol : List UInt8
  volume : Double
  type : EnumOrderType
  price : Double
  deviation : Nat
  typeFilling : EnumOrderTypeFilling

/-- What `OrderSend` returns, and the code it leaves in the result. -/
structure TradeResult where
  ok : Bool
  retcode : UInt32

def tradeRetcodeDone : UInt32 := 10009

/-- An order that has been executed: the line it was read from, the request and its result. -/
structure Execution (Double : Type) where
  line : List UInt8
  id : Int
  request : TradeRequest Double
  result : TradeResult

def Execution.isDone {Double : Type} (e : Execution Double) : Bool :=
  e.result.retcode == tradeRetcodeDone

/-! ### Lines -/

/-- How every line begins, up to the quote behind its kind. -/
def opening (kind : List UInt8) : List UInt8 := ascii "\x7b\"t\":\"" ++ kind ++ ascii "\""

section

variable {Double : Type} (terminal : Terminal Double)

def helloLine : List UInt8 :=
  opening (ascii "hello") ++ ascii ",\"v\":1,\"client\":\"ITCHBridge.mq5\",\"account\":" ++
    signedNumeral terminal.accountLogin ++ ascii "\x7d\n"

def subscribeLine : List UInt8 :=
  opening (ascii "subscribe") ++ ascii ",\"v\":1,\"symbol\":\"" ++ terminal.symbol ++ ascii "\"\x7d\n"

def encodeTick (t : MqlTick Double) : List UInt8 :=
  opening (ascii "tick") ++ ascii ",\"v\":1,\"symbol\":\"" ++ terminal.symbol ++ ascii "\"" ++
    ascii ",\"time\":" ++ signedNumeral t.time.toInt ++
    ascii ",\"bid\":" ++ terminal.doubleToString t.bid ++
    ascii ",\"ask\":" ++ terminal.doubleToString t.ask ++
    ascii ",\"last\":" ++ terminal.doubleToString t.last ++
    ascii ",\"volume\":" ++ signedNumeral t.volume.toInt64.toInt ++ ascii "\x7d\n"

def heartbeatLine (now : Int) : List UInt8 :=
  opening (ascii "heartbeat") ++ ascii ",\"v\":1,\"time\":" ++ signedNumeral now ++ ascii "\x7d\n"

def byeLine : List UInt8 := opening (ascii "bye") ++ ascii ",\"v\":1\x7d\n"

/-- The end of `ExecuteOrder`. -/
def ackLine (e : Execution Double) : List UInt8 :=
  opening (ascii "ack") ++ ascii ",\"v\":1,\"id\":" ++ signedNumeral e.id ++
    ascii ",\"ok\":" ++ (if e.isDone then ascii "true" else ascii "false") ++
    ascii ",\"retcode\":" ++ signedNumeral e.result.retcode.toInt32.toInt ++
    ascii ",\"message\":\"" ++ (if e.result.ok then ascii "sent" else ascii "rejected") ++
    ascii "\"\x7d\n"

/-! ### Orders -/

/-- `StringFind(line, text) >= 0`. -/
def contains (line text : List UInt8) : Bool := (find line text 0).isSome

def isOrder (line : List UInt8) : Bool := contains line (ascii "\"t\":\"order\"")

def isNop (line : List UInt8) : Bool := contains line (ascii "\"t\":\"nop\"")

/-- `ExecuteOrder` up to the ack, for the prices of the symbol and the answer of `OrderSend`. A field
that is not found keeps what its variable holds at first. -/
def executeOrder (price : EnumOrderType → Double) (result : TradeResult) (line : List UInt8) :
    Execution Double :=
  let id := ((jsonNum terminal.stringToDouble line (ascii "id")).map terminal.toLong).getD 0
  let side := (jsonStr line (ascii "side")).getD []
  let volume := (jsonNum terminal.stringToDouble line (ascii "volume")).getD terminal.zero
  let type := if side = ascii "B" then .buy else .sell
  { line
    id
    request :=
      { action := .deal
        symbol := terminal.symbol
        volume := if terminal.isPositive volume then volume else terminal.tenthOfALot
        type
        price := price type
        deviation := 20
        typeFilling := .ioc }
    result }

end

end HftOrderbook.Mt5.ExpertAdvisor
