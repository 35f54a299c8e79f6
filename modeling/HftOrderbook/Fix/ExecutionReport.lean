import HftOrderbook.Fix.Message

/-!
# Execution reports

The answer to an order: what was done of it and what is left.
-/

namespace HftOrderbook.Fix

open ByteText

inductive ExecType
  | new
  | partialFill
  | fill
  | canceled
  | rejected
  deriving DecidableEq

def ExecType.char : ExecType → UInt8
  | .new => 0x30
  | .partialFill => 0x31
  | .fill => 0x32
  | .canceled => 0x34
  | .rejected => 0x38

inductive OrdStatus
  | new
  | partiallyFilled
  | filled
  | canceled
  | rejected
  deriving DecidableEq

def OrdStatus.char : OrdStatus → UInt8
  | .new => 0x30
  | .partiallyFilled => 0x31
  | .filled => 0x32
  | .canceled => 0x34
  | .rejected => 0x38

namespace Tag

def MsgType : Int32 := 35

def OrderID : Int32 := 37

def ExecType : Int32 := 150

def OrdStatus : Int32 := 39

def CumQty : Int32 := 14

def LeavesQty : Int32 := 151

def AvgPx : Int32 := 6

end Tag

/-- The arguments of `execution_report`. -/
structure Report (Double : Type) where
  sender : List UInt8
  target : List UInt8
  seq : Int64
  orderid : List UInt8
  clordid : List UInt8
  symbol : List UInt8
  side : Side
  et : ExecType
  os : OrdStatus
  cumqty : Int64
  leavesqty : Int64
  avgpx : Double

variable {Double : Type} [PriceText Double] (r : Report Double)

/-- The fields that `execution_report` sets. -/
def executionFields : Message :=
  let m : Message := {}
  let m := m.set Tag.SenderCompID r.sender
  let m := m.set Tag.TargetCompID r.target
  let m := m.setInt Tag.MsgSeqNum r.seq
  let m := m.set Tag.OrderID r.orderid
  let m := m.set Tag.ClOrdID r.clordid
  let m := m.set Tag.Symbol r.symbol
  let m := m.setChar Tag.Side r.side.char
  let m := m.setChar Tag.ExecType r.et.char
  let m := m.setChar Tag.OrdStatus r.os.char
  let m := m.setInt Tag.CumQty r.cumqty
  let m := m.setInt Tag.LeavesQty r.leavesqty
  m.set Tag.AvgPx (priceStr r.avgpx)

def executionReport : List UInt8 := encode (ascii "FIX.4.4") (ascii "8") (executionFields r)

end HftOrderbook.Fix
