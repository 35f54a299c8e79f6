import HftOrderbook.Feed.Encoding
import HftOrderbook.Library.RandomSource

/-!
# Synthetic feeds

Three generators write framed streams by drawing from a random source: a stress mix on one symbol, a
mix over many symbols, and a feed whose book never crosses. Each is modelled with the values it
chooses kept at full width beside the bytes these are narrowed to; the order of the draws is the
order of the source.
-/

namespace HftOrderbook

open RandomSource

/-! ### What is chosen and what is written -/

inductive ChosenBody where
  | add (ref : Nat) (side : Side) (shares : Nat) (stock : Symbol) (price : Int)
  | execute (ref shares matchNumber : Nat)
  | cancel (ref shares : Nat)
  | delete (ref : Nat)
  | replace (ref newRef shares : Nat) (price : Int)
  | trade (ref : Nat) (side : Side) (shares : Nat) (stock : Symbol) (price : Int)
      (matchNumber : Nat)
  | directory (stock : Symbol)

structure Chosen where
  locate : Nat
  ts : Nat
  body : ChosenBody

/-- Every field cast to its width on the wire. -/
def Chosen.record (c : Chosen) : FeedRecord where
  locate := UInt16.ofNat c.locate
  ts := UInt64.ofNat c.ts
  body :=
    match c.body with
    | .add ref side shares stock price =>
        .add (UInt64.ofNat ref) side.code (UInt32.ofNat shares) stock (UInt32.ofInt price)
    | .execute ref shares matchNumber =>
        .execute (UInt64.ofNat ref) (UInt32.ofNat shares) (UInt64.ofNat matchNumber)
    | .cancel ref shares => .cancel (UInt64.ofNat ref) (UInt32.ofNat shares)
    | .delete ref => .delete (UInt64.ofNat ref)
    | .replace ref newRef shares price =>
        .replace (UInt64.ofNat ref) (UInt64.ofNat newRef) (UInt32.ofNat shares)
          (UInt32.ofInt price)
    | .trade ref side shares stock price matchNumber =>
        .trade (UInt64.ofNat ref) side.code (UInt32.ofNat shares) stock (UInt32.ofInt price)
          (UInt64.ofNat matchNumber)
    | .directory stock => .directory stock

/-- The two-byte length and the body. -/
def frame (m : List UInt8) : List UInt8 := be16 (UInt16.ofNat m.length) ++ m

/-- The counters every generator has, and the messages it has framed so far. -/
structure FeedWriter where
  nextRef : Nat := 1
  ts : Nat := 34200 * 1000000000
  emitted : Nat := 0
  written : List Chosen := []

namespace FeedWriter

def write (t : FeedWriter) (locate : Nat) (body : ChosenBody) : FeedWriter :=
  { t with written := t.written ++ [⟨locate, t.ts, body⟩] }

/-- `next_ref++`. -/
def takeRef (t : FeedWriter) : FeedWriter := { t with nextRef := t.nextRef + 1 }

def advance (t : FeedWriter) (elapsed : Nat) : FeedWriter :=
  { t with ts := t.ts + elapsed, emitted := t.emitted + 1 }

def output (t : FeedWriter) : List UInt8 := t.written.flatMap fun c => frame c.record.bytes

end FeedWriter

/-- `SYNTH` and three spaces. -/
def stock8 : Symbol := ⟨[0x53, 0x59, 0x4E, 0x54, 0x48, 0x20, 0x20, 0x20], rfl⟩

def drawSide : Random Side := do
  let k ← below 2
  pure (if k = 0 then Side.buy else Side.sell)

def walkMid (mid : Int) : Random Int := do
  let k ← below 8
  if k = 0 then do
    let up ← below 2
    let moved := if up ≠ 0 then mid + 100 else mid - 100
    pure (if moved < 1000 then 1000 else moved)
  else pure mid

def addPx (mid : Int) (side : Side) : Random Int := do
  let k ← below 50
  let off : Int := if side = Side.buy then -(1 + k) else 1 + k
  let px := mid + off * 100
  pure (if px < 100 then 100 else px)

/-- `v[i] = v.back(); v.pop_back()`. -/
def swapPop {α : Type} (v : List α) (i : Nat) : List α :=
  match v.getLast? with
  | none => v
  | some back => (v.set i back).dropLast

/-! ### One symbol -/

structure ItchFeed where
  out : FeedWriter := {}
  live : List (Nat × Side) := []
  mid : Int := 1000000

namespace ItchFeed

def emitAdd (f : ItchFeed) : Random ItchFeed := do
  let side ← drawSide
  let ref := f.out.nextRef
  let k ← below 990
  let px ← addPx f.mid side
  pure { f with
    out := f.out.takeRef.write 1 (.add ref side (10 + k) stock8 px)
    live := f.live ++ [(ref, side)] }

/-- The live order at the drawn position; the pool is not empty where this is drawn. -/
def pick (f : ItchFeed) : Random (Nat × (Nat × Side)) := do
  let i ← below f.live.length
  pure (i, f.live.getD i (0, Side.none))

def emit (f : ItchFeed) (roll : Nat) : Random ItchFeed :=
  if f.live.length < 8 ∨ roll < 50 then f.emitAdd
  else if roll < 66 then do
    let (_, ref, _) ← f.pick
    let k ← below 20
    pure { f with out := f.out.write 1 (.execute ref (1 + k) f.out.emitted) }
  else if roll < 78 then do
    let (_, ref, _) ← f.pick
    let k ← below 20
    pure { f with out := f.out.write 1 (.cancel ref (1 + k)) }
  else if roll < 88 then do
    let (i, ref, _) ← f.pick
    pure { f with out := f.out.write 1 (.delete ref), live := swapPop f.live i }
  else if roll < 96 then do
    let (i, ref, side) ← f.pick
    let nref := f.out.nextRef
    let k ← below 990
    let px ← addPx f.mid side
    pure { f with
      out := f.out.takeRef.write 1 (.replace ref nref (10 + k) px)
      live := f.live.set i (nref, side) }
  else do
    let side ← drawSide
    let k ← below 200
    pure { f with out := f.out.write 1 (.trade 0 side (1 + k) stock8 f.mid f.out.emitted) }

def step (f : ItchFeed) : Random ItchFeed := do
  let mid ← walkMid f.mid
  let roll ← below 100
  let f ← emit { f with mid } roll
  let k ← below 1000
  pure { f with out := f.out.advance (1 + k) }

/-- The first sixteen messages seed a pool. -/
def seed (n : Nat) : Random (Nat × ItchFeed) :=
  loopWhile (fun state : Nat × ItchFeed => decide (state.1 < 16 ∧ state.2.out.emitted < n))
    (fun (i, f) => do
      let f ← f.emitAdd
      pure (i + 1, { f with out := f.out.advance 0 })) 17 (0, {})

end ItchFeed

def makeSyntheticItch (nMessages : Nat) : Random FeedWriter := do
  let (_, f) ← ItchFeed.seed nMessages
  let f ← loopWhile (fun f : ItchFeed => decide (f.out.emitted < nMessages)) ItchFeed.step
    (nMessages + 1) f
  pure f.out

/-! ### Many symbols -/

structure Sym where
  mid : Int
  live : List (Nat × Side) := []

structure MultiFeed where
  out : FeedWriter := {}
  syms : List Sym

namespace MultiFeed

def start (nSymbols : Nat) : MultiFeed where
  syms := (List.range nSymbols).map fun s : Nat => { mid := 1000000 + (s : Int) * 5000 }

/-- `SYN`, the last two decimal digits of the symbol's number, and three spaces. -/
def symbolName (s : Nat) : Symbol :=
  ⟨[0x53, 0x59, 0x4E, UInt8.ofNat (0x30 + s / 10 % 10), UInt8.ofNat (0x30 + s % 10), 0x20, 0x20,
    0x20], rfl⟩

def directories (nSymbols nMessages : Nat) : Random (Nat × MultiFeed) :=
  loopWhile
    (fun state : Nat × MultiFeed => decide (state.1 < nSymbols ∧ state.2.out.emitted < nMessages))
    (fun (s, f) => pure (s + 1, { f with
      out := (f.out.write (s + 1) (.directory (symbolName s))).advance 0 }))
    (nSymbols + 1) (0, start nSymbols)

def emit (t : FeedWriter) (locate : Nat) (sym : Sym) (roll : Nat) : Random (FeedWriter × Sym) :=
  if sym.live.length < 4 ∨ roll < 55 then do
    let side ← drawSide
    let ref := t.nextRef
    let k ← below 990
    let px ← addPx sym.mid side
    pure (t.takeRef.write locate (.add ref side (10 + k) stock8 px),
      { sym with live := sym.live ++ [(ref, side)] })
  else if roll < 72 then do
    let i ← below sym.live.length
    let k ← below 20
    pure (t.write locate (.execute (sym.live.getD i (0, Side.none)).1 (1 + k) t.emitted), sym)
  else if roll < 84 then do
    let i ← below sym.live.length
    let k ← below 20
    pure (t.write locate (.cancel (sym.live.getD i (0, Side.none)).1 (1 + k)), sym)
  else do
    let i ← below sym.live.length
    pure (t.write locate (.delete (sym.live.getD i (0, Side.none)).1),
      { sym with live := swapPop sym.live i })

def step (nSymbols : Nat) (f : MultiFeed) : Random MultiFeed := do
  let s ← below nSymbols
  let sym := f.syms.getD s { mid := 0 }
  let mid ← walkMid sym.mid
  let roll ← below 100
  let (out, sym) ← emit f.out (s + 1) { sym with mid } roll
  let k ← below 1000
  pure { out := out.advance (1 + k), syms := f.syms.set s sym }

end MultiFeed

def makeSyntheticMulti (nMessages nSymbols : Nat) : Random FeedWriter := do
  let nSymbols := if nSymbols < 1 then 1 else nSymbols
  let (_, f) ← MultiFeed.directories nSymbols nMessages
  let f ← loopWhile (fun f : MultiFeed => decide (f.out.emitted < nMessages))
    (MultiFeed.step nSymbols) (nMessages + 1) f
  pure f.out

/-! ### A book that never crosses -/

/-- A live order with its price, which the source keeps in a second vector beside `live`. -/
structure Resting where
  ref : Nat
  side : Side
  px : Int

structure BookFeed where
  out : FeedWriter := {}
  live : List Resting := []

namespace BookFeed

def seedBid : Int := 1001000

def seedAsk : Int := 1001100

def bestStep (side : Side) (v : Option Int) (o : Resting) : Option Int :=
  if o.side = side then
    match v with
    | none => some o.px
    | some v =>
        if side = Side.buy then (if v < o.px then some o.px else some v)
        else (if o.px < v then some o.px else some v)
  else v

def best (f : BookFeed) (side : Side) : Int :=
  (f.live.foldl (bestStep side) none).getD (if side = Side.buy then seedBid else seedAsk)

def add (f : BookFeed) (side : Side) : Random BookFeed := do
  let bb := f.best Side.buy
  let ba := f.best Side.sell
  let k ← below 10
  let price : Int := if side = Side.buy then ba - 100 - k * 100 else bb + 100 + k * 100
  let price := if price < 100 then 100 else price
  let ref := f.out.nextRef
  let j ← below 2500
  pure { f with
    out := f.out.takeRef.write 1 (.add ref side (50 + j) stock8 price)
    live := f.live ++ [⟨ref, side, price⟩] }

def emit (f : BookFeed) (roll : Nat) : Random BookFeed :=
  if roll < 42 ∨ f.live.length < 10 then do
    let side ← drawSide
    f.add side
  else if roll < 64 then do
    let i ← below f.live.length
    let k ← below 150
    pure { f with
      out := f.out.write 1
        (.execute (f.live.getD i ⟨0, Side.none, 0⟩).ref (5 + k) f.out.emitted) }
  else if roll < 82 then do
    let i ← below f.live.length
    pure { f with
      out := f.out.write 1 (.delete (f.live.getD i ⟨0, Side.none, 0⟩).ref)
      live := swapPop f.live i }
  else do
    let mid := (f.best Side.buy + f.best Side.sell).tdiv 2
    let side ← drawSide
    let k ← below 600
    pure { f with out := f.out.write 1 (.trade 0 side (10 + k) stock8 mid f.out.emitted) }

def step (f : BookFeed) : Random BookFeed := do
  let roll ← below 100
  let f ← f.emit roll
  let k ← below 800
  pure { f with out := f.out.advance (1 + k) }

/-- The first twenty messages build both sides, a bid and an ask in turn. -/
def seed (n : Nat) : Random (Nat × BookFeed) :=
  loopWhile (fun state : Nat × BookFeed => decide (state.1 < 20 ∧ state.2.out.emitted < n))
    (fun (i, f) => do
      let f ← f.add (if i % 2 = 1 then Side.sell else Side.buy)
      pure (i + 1, { f with out := f.out.advance 0 })) 21 (0, {})

end BookFeed

def makeSyntheticBook (nMessages : Nat) : Random FeedWriter := do
  let (_, f) ← BookFeed.seed nMessages
  let f ← loopWhile (fun f : BookFeed => decide (f.out.emitted < nMessages)) BookFeed.step
    (nMessages + 1) f
  pure f.out

end HftOrderbook
