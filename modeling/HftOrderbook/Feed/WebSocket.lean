import HftOrderbook.Core.Sha1
import HftOrderbook.Feed.Encoding
import HftOrderbook.Mt5.Tcp

/-!
# WebSocket frames

`accept_key` is what a server answers the key of a client with.
`frame_text` puts the opcode and the length in front of a payload, the length in one of three forms.
`read_frame` reads a frame from a socket, and takes the mask off where there is one.
-/

namespace HftOrderbook.Ws

open Mt5

def kGuid : List UInt8 := ByteText.ascii "258EAFA5-E914-47DA-95CA-C5AB0DC85B11"

def acceptKey (clientKey : List UInt8) : List UInt8 := base64 (sha1 (clientKey ++ kGuid))

/-- What `frame_text` puts in front of a payload of `n` bytes. -/
def frameHead (n : UInt64) : List UInt8 :=
  0x81 ::
    (if n < 126 then [n.toUInt8]
    else if n ≤ 0xFFFF then 126 :: beN n 2
    else 127 :: beN n 8)

def frameText (payload : List UInt8) : List UInt8 :=
  frameHead (UInt64.ofNat payload.length) ++ payload

/-- Calls on one socket, the first that fails ends them. -/
abbrev Reading := OptionT (StateM LineSocket)

def recvExact (n : Nat) : Reading (List UInt8) := OptionT.mk fun s => s.recvExact n

/-- `payload[i] ^ mask[i & 3]` for every byte. -/
def unmask (mask payload : List UInt8) : List UInt8 :=
  payload.mapIdx fun i b => b ^^^ mask.getD (i &&& 3) 0

/-- The loop that reads the long form of a length. -/
def lengthOf (e : List UInt8) : UInt64 := e.foldl (fun len b => (len <<< 8) ||| b.toUInt64) 0

/-- The length behind the two bytes of the header, if the second does not hold it. -/
def readLength (len : UInt64) : Reading UInt64 :=
  if len = 126 then do
    let e ← recvExact 2
    pure (((e.getD 0 0).toUInt64 <<< 8) ||| (e.getD 1 0).toUInt64)
  else if len = 127 then do
    let e ← recvExact 8
    pure (lengthOf e)
  else pure len

def readMask (masked : Bool) : Reading (List UInt8) :=
  if masked then recvExact 4 else pure [0, 0, 0, 0]

def readPayload (len : UInt64) : Reading (List UInt8) :=
  if len != 0 then recvExact len.toNat else pure []

/-- The payload and the opcode. -/
def readFrame : Reading (List UInt8 × UInt8) := do
  let h ← recvExact 2
  let opcode := h.getD 0 0 &&& 0x0F
  let masked := h.getD 1 0 &&& 0x80 != 0
  let len ← readLength (h.getD 1 0 &&& 0x7F).toUInt64
  let mask ← readMask masked
  let payload ← readPayload len
  pure (if masked then unmask mask payload else payload, opcode)

/-- `read_frame` so many times. -/
def readFrames : Nat → Reading (List (List UInt8 × UInt8))
  | 0 => pure []
  | n + 1 => do
      let frame ← readFrame
      let frames ← readFrames n
      pure (frame :: frames)

end HftOrderbook.Ws
