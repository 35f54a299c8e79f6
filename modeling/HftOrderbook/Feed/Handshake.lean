import HftOrderbook.Feed.WebSocket
import HftOrderbook.Proof.LineSocket
import Mathlib.Data.List.DropRight

/-!
# Opening a WebSocket

Both sides read header lines up to an empty one and keep what they need of them: the server the key
of the client, the client whether the server switches protocols and what it answers to the key. A
call that returns `false` in the source fails here, and what `handshake` sends is its result.
-/

namespace HftOrderbook.Ws

open ByteText Mt5

/-! ### Header lines -/

/-- The line without a carriage return at its end. -/
def dropCr (line : List UInt8) : List UInt8 :=
  if line.getLast? = some 0x0D then line.dropLast else line

def tolower (b : UInt8) : UInt8 := if 0x41 ≤ b ∧ b ≤ 0x5A then b + 0x20 else b

def isBlank (b : UInt8) : Bool := b == 0x20 || b == 0x09

/-- What stands behind the colon of the header `name`, without the blanks around it. A header of
another name and one with nothing behind the colon have no value. -/
def headerValue (name line : List UInt8) : Option (List UInt8) :=
  if name.length ≤ line.length ∧ (line.take name.length).map tolower = name then
    -- `substr(npos + 1)` would be the whole line
    let v := line.drop ((find line [0x3A] 0).elim 0 (· + 1))
    let value := (v.dropWhile isBlank).rdropWhile isBlank
    if value = [] then none else some value
  else none

theorem recvLine_pending_lt {s s' : LineSocket} {line : List UInt8}
    (h : s.recvLine = (some line, s')) : s'.pending.length < s.pending.length := by
  have hreceive : s.receive = (.line line, s') := by
    rw [LineSocket.receive, h]
    rfl
  have hreads := LineSocket.receive_reads s
  rw [hreceive] at hreads
  exact hreads.length_pending_lt

/-- The loop over the header lines, with what has been kept of them. -/
def headerLoop {α : Type} (keep : α → List UInt8 → α) (kept : α) (s : LineSocket) :
    Option α × LineSocket :=
  match _h : s.recvLine with
  | (none, s') => (none, s')
  | (some line, s') =>
      if dropCr line = [] then (some kept, s') else headerLoop keep (keep kept (dropCr line)) s'
termination_by s.pending.length
decreasing_by exact recvLine_pending_lt _h

def readHeaders {α : Type} (keep : α → List UInt8 → α) (kept : α) : Reading α :=
  OptionT.mk fun s => headerLoop keep kept s

/-! ### The server -/

def keyHeader : List UInt8 := ascii "sec-websocket-key:"

/-- The value of the last header that has one. -/
def keepValue (name kept line : List UInt8) : List UInt8 := (headerValue name line).getD kept

/-- The response to a key. -/
def switchingProtocols (key : List UInt8) : List UInt8 :=
  ascii "HTTP/1.1 101 Switching Protocols\r\nUpgrade: websocket\r\nConnection: Upgrade\r\n" ++
    ascii "Sec-WebSocket-Accept: " ++ acceptKey key ++ ascii "\r\n\r\n"

def handshake : Reading (List UInt8) := do
  let key ← readHeaders (keepValue keyHeader) []
  if key = [] then failure else pure (switchingProtocols key)

/-! ### The client -/

def kKey : List UInt8 := ascii "dGhlIHNhbXBsZSBub25jZQ=="

def upgradeRequest (path : List UInt8) : List UInt8 :=
  ascii "GET " ++ path ++ ascii " HTTP/1.1\r\n" ++
    ascii "Host: localhost\r\nUpgrade: websocket\r\nConnection: Upgrade\r\nSec-WebSocket-Key: " ++
    kKey ++ ascii "\r\nSec-WebSocket-Version: 13\r\n\r\n"

def acceptHeader : List UInt8 := ascii "sec-websocket-accept:"

/-- `ok` and `accept` after another line. -/
def keepAnswer (kept : Bool × List UInt8) (line : List UInt8) : Bool × List UInt8 :=
  (kept.1 || (find line (ascii "101") 0).isSome, keepValue acceptHeader kept.2 line)

/-- `client_open` after the request has been sent. -/
def clientOpen : Reading Unit := do
  let (ok, accept) ← readHeaders keepAnswer (false, [])
  if ok ∧ accept = acceptKey kKey then pure () else failure

end HftOrderbook.Ws
