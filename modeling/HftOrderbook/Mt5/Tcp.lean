import HftOrderbook.Library.ChunkedWire
import HftOrderbook.Library.LineProcesses

/-!
# Reading from a socket

`LineSocket` keeps what it has received beyond the last line it has returned. `recv_line` asks for
more until it finds a newline there, and `recv_exact` empties it before it asks for the rest.
-/

namespace HftOrderbook.Mt5

open ChunkedWire LineProcesses

structure LineSocket where
  buf : List UInt8 := []
  wire : Wire
  lastTimedOut : Bool := false

namespace LineSocket

/-- The loop of `recv_line`, which returns a line or fails. -/
def recvLineLoop (s : LineSocket) : Option (List UInt8) × LineSocket :=
  match takeLine s.buf with
  | some (line, rest) => (some line, { s with buf := rest })
  | none =>
      match _h : s.wire.recv 4096 with
      | (.data bytes, wire) => recvLineLoop { s with buf := s.buf ++ bytes, wire }
      | (.timedOut, wire) => (none, { s with wire, lastTimedOut := true })
      | (.closed, wire) =>
          -- the peer has closed: what is left goes out as a last line
          if s.buf ≠ [] then (some s.buf, { s with buf := [], wire }) else (none, { s with wire })
termination_by s.wire.rest.length
decreasing_by exact Wire.recv_data_lt (by decide) _h

def recvLine (s : LineSocket) : Option (List UInt8) × LineSocket :=
  recvLineLoop { s with lastTimedOut := false }

/-- The loop of `recv_exact` with what it has got so far. -/
def recvRest (s : LineSocket) (got : List UInt8) (n : Nat) : Option (List UInt8) × LineSocket :=
  if _hmore : got.length < n then
    match _h : s.wire.recv (n - got.length) with
    | (.data bytes, wire) => recvRest { s with wire } (got ++ bytes) n
    | (.timedOut, wire) => (none, { s with wire })
    | (.closed, wire) => (none, { s with wire })
  else (some got, s)
termination_by s.wire.rest.length
decreasing_by exact Wire.recv_data_lt (by omega) _h

def recvExact (s : LineSocket) (n : Nat) : Option (List UInt8) × LineSocket :=
  let take := if n < s.buf.length then n else s.buf.length
  recvRest { s with buf := s.buf.drop take } (s.buf.take take) n

end LineSocket

/-- How a call of `recv_line` ends, as `timed_out` tells it. -/
inductive Received
  | line (text : List UInt8)
  | timedOut
  | closed

def Received.of : Option (List UInt8) × LineSocket → Received × LineSocket
  | (some text, s) => (.line text, s)
  | (none, s) => (if s.lastTimedOut then .timedOut else .closed, s)

def LineSocket.receive (s : LineSocket) : Received × LineSocket :=
  Received.of s.recvLine

/-- So many calls of `recv_line` in a row. -/
def LineSocket.receives (s : LineSocket) : Nat → List Received × LineSocket
  | 0 => ([], s)
  | n + 1 =>
      let (r, s) := s.receive
      let (rs, s) := s.receives n
      (r :: rs, s)

inductive Call
  | line
  | exact (n : Nat)

inductive Result
  | line (r : Received)
  | exact (n : Nat) (out : Option (List UInt8))

def LineSocket.call (s : LineSocket) : Call → Result × LineSocket
  | .line =>
      let (r, s) := s.receive
      (.line r, s)
  | .exact n =>
      let (out, s) := s.recvExact n
      (.exact n out, s)

/-- Calls of both kinds in any order. -/
def LineSocket.calls (s : LineSocket) : List Call → List Result × LineSocket
  | [] => ([], s)
  | c :: cs =>
      let (r, s) := s.call c
      let (rs, s) := s.calls cs
      (r :: rs, s)

end HftOrderbook.Mt5
