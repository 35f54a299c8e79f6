import HftOrderbook.Core.Types

/-!
# Decoded feed messages
-/

namespace HftOrderbook

inductive MsgType where
  | unknown
  | systemEvent
  | stockDirectory
  | addOrder
  | addOrderMpid
  | orderExecuted
  | orderExecutedWithPrice
  | orderCancel
  | orderDelete
  | orderReplace
  | trade
  | crossTrade
  deriving DecidableEq

/-- One decoded message. Only the fields meaningful for `type` are populated, the rest stay at the
defaults given here. -/
structure Message where
  type : MsgType := .unknown
  stockLocate : UInt16 := 0
  timestamp : UInt64 := 0
  orderRef : UInt64 := 0
  newOrderRef : UInt64 := 0
  matchNumber : UInt64 := 0
  side : Side := Side.none
  shares : UInt32 := 0
  price : Price := 0
  stock : List UInt8 := List.replicate 8 0
  eventCode : UInt8 := 0
  deriving DecidableEq

instance : Inhabited Message := ⟨{}⟩

end HftOrderbook
