import HftOrderbook.Mt5.Protocol

/-!
# The field readers of the expert advisor

The client side of the bridge reads the fields of an order with two readers of its own. They take
the first place where the quoted name of the field stands, wherever that is, and go on from there to
the next colon. Text is taken by bytes.
-/

namespace HftOrderbook.Mt5.ExpertAdvisor

open ByteText

/-- Where `JsonNum` begins to read. -/
def numPos (s key : List UInt8) : Option Nat := do
  let k ← find s (ascii "\"" ++ key ++ ascii "\"") 0
  let c ← find s (ascii ":") k
  some (c + 1)

/-- `JsonNum`, with the terminal's `StringToDouble`. -/
def jsonNum {Double : Type} (stringToDouble : List UInt8 → Double) (s key : List UInt8) :
    Option Double :=
  (numPos s key).map fun i => stringToDouble (s.drop i)

/-- The two quotes between which `JsonStr` reads. -/
def strPos (s key : List UInt8) : Option (Nat × Nat) := do
  let k ← find s (ascii "\"" ++ key ++ ascii "\"") 0
  let c ← find s (ascii ":") k
  let q1 ← find s (ascii "\"") (c + 1)
  let q2 ← find s (ascii "\"") (q1 + 1)
  some (q1, q2)

def jsonStr (s key : List UInt8) : Option (List UInt8) :=
  (strPos s key).map fun q => substr s (q.1 + 1) (q.2 - q.1 - 1)

end HftOrderbook.Mt5.ExpertAdvisor
