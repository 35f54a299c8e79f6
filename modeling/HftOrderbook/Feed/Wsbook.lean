import HftOrderbook.Book.BookSet
import HftOrderbook.Book.Tape
import HftOrderbook.Library.ByteText

/-!
# The snapshots of a viewer

`wsbook` walks a framed stream into books and a tape, and hands out a snapshot of one book every so
many records. The text of a snapshot is a parameter, since its numbers are floating point; so is the
order in which the books are gone through when one of them is looked for by its symbol.
-/

namespace HftOrderbook

open ByteText LengthPrefix

variable {F : Type} [TapeFloat F]

/-- What `stream` keeps up to date: the books, and one tape for all of them. -/
structure Viewed (F : Type) where
  book : BookSet
  tape : TradeTape F

namespace Viewed

def start : Viewed F := ⟨{}, .new 1000000⟩

def onMessage (v : Viewed F) (message : Option Message) : Viewed F :=
  match message with
  | none => v
  | some m =>
      { book := v.book.apply m
        tape := if m.isPrint then v.tape.onTrade m.price m.shares m.timestamp else v.tape }

end Viewed

/-- `--symbol`, and the locates of a set in the order in which its books are iterated. -/
structure Focus where
  symbol : List UInt8
  locates : BookSet → List UInt16

namespace Focus

def locate (focus : Focus) (set : BookSet) : UInt16 :=
  if focus.symbol ≠ [] then
    ((focus.locates set).find? fun locate => set.symbol locate = focus.symbol).getD 1
  else 1

def name (set : BookSet) (locate : UInt16) : List UInt8 :=
  if set.symbol locate = [] then ascii "SYNTH" else set.symbol locate

end Focus

/-- What a snapshot shows, if there is a book to show. -/
def Viewed.shown (focus : Focus) (v : Viewed F) : Option (List UInt8 × OrderBook × TradeTape F) :=
  let loc := focus.locate v.book
  (v.book.book loc).map fun ob => (Focus.name v.book loc, ob, v.tape)

section Stream

variable {α : Type} (focus : Focus) (render : List UInt8 × OrderBook × TradeTape F → Nat → α)
  (emit : α → Bool) (data : List UInt8) (every target : Nat)

/-- The loop of `stream` from an offset on, as what it hands to `emit`. It ends when that returns
`false`, and is `none` if a read leaves the data or `fuel` rounds were not enough. -/
def streamFrom : Nat → Nat → Nat → Nat → Viewed F → Option (List α)
  | 0, _, _, _, _ => none
  | fuel + 1, off, applied, sent, v =>
      if off + 2 ≤ data.length ∧ sent < target then do
        let mlen ← lengthAt data off
        if mlen = 0 ∨ data.length < off + 2 + mlen then some []
        else do
          let body ← slice data (off + 2) mlen
          let message ← decode body
          let v := v.onMessage message
          if (applied + 1) % every = 0 then
            match v.shown focus with
            | some shown =>
                let text := render shown sent
                if emit text then do
                  let rest ← streamFrom fuel (off + 2 + mlen) (applied + 1) (sent + 1) v
                  some (text :: rest)
                else some [text]
            | none => streamFrom fuel (off + 2 + mlen) (applied + 1) sent v
          else streamFrom fuel (off + 2 + mlen) (applied + 1) sent v
      else some []

/-- `count_messages(data) / (target + 1) + 1`. -/
def snapshotEvery : Nat := (framedMessages data).length / (target + 1) + 1

def stream : Option (List α) :=
  streamFrom focus render emit data (snapshotEvery data target) target (data.length + 1) 0 0 0 .start

end Stream

end HftOrderbook
