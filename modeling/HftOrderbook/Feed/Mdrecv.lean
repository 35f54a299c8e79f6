import HftOrderbook.Book.BookSet
import HftOrderbook.Feed.MoldUdp64

/-!
# The market-data receiver

`mdrecv` feeds the datagrams of a socket to a session, and the messages to a set of books. The
buffer of a receive holds 2048 bytes, and what is longer is cut off. The list of datagrams ends
where the socket has been idle for too long.
-/

namespace HftOrderbook

def recvCapacity : Nat := 2048

/-- The loop of `mdrecv --listen`. -/
def mdrecvLoop (s : MoldSession) (book : BookSet) : List (List UInt8) → MoldSession × BookSet
  | [] => (s, book)
  | datagram :: later =>
      let buf := datagram.take recvCapacity
      if buf.length = 0 then (s, book)
      else
        let (s, sunk) := s.receive buf
        let book := (sunk.map Prod.snd).foldl BookSet.apply book
        if s.ended then (s, book) else mdrecvLoop s book later

def mdrecv (datagrams : List (List UInt8)) : MoldSession × BookSet := mdrecvLoop {} {} datagrams

end HftOrderbook
