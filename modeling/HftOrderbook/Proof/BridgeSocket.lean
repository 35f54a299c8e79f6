import HftOrderbook.Mt5.Bridge
import HftOrderbook.Proof.BridgeSession
import HftOrderbook.Proof.LineSocket

/-!
# A session over a socket

What the bridge receives and sends over a socket is fixed by the bytes of its peer. Into how many
pieces these are cut and where the socket times out makes no difference, unless as many timeouts as
the idle limit allows come in a row: then the session ends early, after a beginning of the same
transcript.
-/

namespace HftOrderbook.Mt5

open ByteText ChunkedWire

variable {Double σ : Type} [FloatText Double]

/-- Whether the peer may send more after the call. -/
def Received.isOpen : Received → Bool
  | .line _ | .timedOut => true
  | .closed => false

namespace Bridge

variable (onTick : σ → Tick Double → σ × Option (Order Double))

/-- No line comes after the peer has closed. -/
def ClosedLast (calls : List Received) : Prop :=
  ∀ pre later, calls = pre ++ .closed :: later → later.flatMap Received.lines = []

theorem ClosedLast.tail {call : Received} {calls : List Received}
    (h : ClosedLast (call :: calls)) : ClosedLast calls := by
  rintro pre later rfl
  exact h (call :: pre) later rfl

end Bridge

/-! ### The calls of a socket -/

end HftOrderbook.Mt5
