import HftOrderbook.Library.LineStream
import HftOrderbook.Mt5.Advisor
import HftOrderbook.Mt5.Bridge

/-!
# The advisor and the bridge on a network

The handlers of the expert advisor on one side, `mt5d` on the other, and between them connections
that carry bytes in pieces and may break at any point. The advisor polls: it sends a tick without
waiting for the reply, and takes whatever lines have arrived. It connects again when it finds the
link down, while the bridge may still be reading what was sent over the old one; the bridge serves
one connection after the other, each with a fresh strategy.
-/

namespace HftOrderbook.Mt5

open ByteText ExpertAdvisor

variable {Double σ : Type} [FloatText Double]

/-! ### One connection -/

/-- The order that a round of the loop sends, if any. -/
def Bridge.orderFor (onTick : σ → Tick Double → σ × Option (Order Double)) (b : Bridge σ)
    (line : List UInt8) : Option (Order Double) :=
  if kindOf line = .tick then
    match parseTick line ({} : Tick Double) with
    | (false, _) => none
    | (true, t) => (onTick b.strat t).2.map fun ord => { ord with id := b.nextId }
  else none

/-- `up` goes to the bridge and `down` to the advisor; the buffers of the two receivers are the one
of `LineSocket` and `g_rxbuf`. `flushed`, `orders` and `executions` record the unfinished line the
bridge was given at the end, the orders it sent and those the advisor has executed. -/
structure Link (Double σ : Type) [FloatText Double] where
  up : LineStream := {}
  down : LineStream := {}
  bridge : Bridge σ
  idle : Int := 0
  flushed : Option (List UInt8) := none
  orders : List (Order Double) := []
  executions : List (Execution Double) := []

namespace Link

/-- The end of `run_bridge`, after which the socket is destroyed. -/
def finish (l : Link Double σ) : Link Double σ :=
  { l with bridge := { l.bridge with returned := true }, down := l.down.close }

/-- One round of the loop on a line. Of the reply, `n` bytes get out. -/
def serve (strategy : Strategy Double σ) (l : Link Double σ) (line : List UInt8) (n : Nat) :
    Link Double σ :=
  let b := l.bridge.onLine strategy line
  let l' := { l with
    down := match b.outbox with
      | some text => l.down.send text n
      | none => l.down
    bridge := { b with outbox := none }
    idle := 0
    orders := l.orders ++ (l.bridge.orderFor strategy.onTick line).toList }
  if b.returned then l'.finish else l'

/-- What `recv_line` and the loop around it do on this connection. -/
inductive ServerStep (strategy : Strategy Double σ) (maxIdleIntervals : Int)
    (l : Link Double σ) : Link Double σ → Prop
  | recv {chunk : List UInt8} (hnone : l.up.receive = none) (hflight : chunk <+: l.up.flight) :
      ServerStep strategy maxIdleIntervals l { l with up := l.up.carry id [chunk] }
  | line {line : List UInt8} {up : LineStream} (hreceive : l.up.receive = some (line, up))
      (n : Nat) :
      ServerStep strategy maxIdleIntervals l ({ l with up := up }.serve strategy line n)
  | timeout (hnone : l.up.receive = none) :
      ServerStep strategy maxIdleIntervals l
        (if 0 < maxIdleIntervals ∧ l.idle + 1 < maxIdleIntervals then { l with idle := l.idle + 1 }
        else l.finish)
  /-- The peer has closed: what is left goes out as a last line. -/
  | closed (hnone : l.up.receive = none) (hflight : l.up.flight = [])
      (hclosed : l.up.isOpen = false) (n : Nat) :
      ServerStep strategy maxIdleIntervals l
        (if l.up.buf = [] then l.finish
        else { l with up := { l.up with buf := [] }, flushed := some l.up.buf }.serve strategy
          l.up.buf n)

end Link

/-! ### The advisor -/

/-- Between events, in the loop of `OnTick` or `OnTimer` that takes the replies, or removed from the
chart. -/
inductive AdvisorPc
  | waiting
  | draining (onTick : Bool)
  | removed
  deriving DecidableEq

/-- `connected` is whether `g_sock` is a socket. -/
structure Advisor where
  pc : AdvisorPc := .waiting
  connected : Bool := false
  lastHb : Int := 0
  ticks : Nat := 0
  orders : Nat := 0
  acksOk : Nat := 0
  acksRej : Nat := 0
  nops : Nat := 0

/-- The connections there have been, the newest first. -/
structure Live (Double σ : Type) [FloatText Double] where
  advisor : Advisor := {}
  links : List (Link Double σ) := []

namespace Live

/-- `SocketClose` on the advisor's socket, if it has one. -/
def hangUp (s : Live Double σ) : List (Link Double σ) :=
  match s.links with
  | [] => []
  | l :: older => if s.advisor.connected then { l with up := l.up.close } :: older else l :: older

/-- What `OnTick` and `OnTimer` do with a line. Only `OnTick` counts the replies without an order.
Of an ack, `n` bytes get out. -/
def handle (terminal : Terminal Double) (onTick : Bool) (price : EnumOrderType → Double)
    (result : TradeResult) (n : Nat) (line : List UInt8) (a : Advisor) (l : Link Double σ) :
    Advisor × Link Double σ :=
  if isOrder line then
    let e := executeOrder terminal price result line
    ({ a with
        orders := a.orders + 1
        acksOk := if e.isDone then a.acksOk + 1 else a.acksOk
        acksRej := if e.isDone then a.acksRej else a.acksRej + 1 },
      { l with up := l.up.send (ackLine e) n, executions := l.executions ++ [e] })
  else if onTick && isNop line then ({ a with nops := a.nops + 1 }, l)
  else (a, l)

inductive Step (terminal : Terminal Double) (strategy : Strategy Double σ) (strat : σ)
    (maxIdleIntervals : Int) (s : Live Double σ) : Live Double σ → Prop
  /-- `Connect`, from `OnInit` or from `OnTimer`. -/
  | connect (hpc : s.advisor.pc = .waiting) (n n' : Nat) :
      Step terminal strategy strat maxIdleIntervals s
        { advisor := { s.advisor with connected := true }
          links :=
            { bridge := { strat := strat }
              up := (({} : LineStream).send (helloLine terminal) n).send (subscribeLine terminal)
                n' } ::
              s.hangUp }
  | connectFailed (hpc : s.advisor.pc = .waiting) :
      Step terminal strategy strat maxIdleIntervals s
        { advisor := { s.advisor with connected := false }, links := s.hangUp }
  | tick (hpc : s.advisor.pc = .waiting) (hconnected : s.advisor.connected = true)
      {l : Link Double σ} {older : List (Link Double σ)} (hlinks : s.links = l :: older)
      (t : MqlTick Double) (n : Nat) :
      Step terminal strategy strat maxIdleIntervals s
        { advisor := { s.advisor with pc := .draining true, ticks := s.advisor.ticks + 1 }
          links := { l with up := l.up.send (ExpertAdvisor.encodeTick terminal t) n } :: older }
  | timer (hpc : s.advisor.pc = .waiting) (hconnected : s.advisor.connected = true)
      {l : Link Double σ} {older : List (Link Double σ)} (hlinks : s.links = l :: older)
      (now : Int) (n : Nat) :
      Step terminal strategy strat maxIdleIntervals s
        (if terminal.heartbeatSecs ≤ now - s.advisor.lastHb then
          { advisor := { s.advisor with pc := .draining false, lastHb := now }
            links := { l with up := l.up.send (heartbeatLine now) n } :: older }
        else { s with advisor := { s.advisor with pc := .draining false } })
  /-- A `RecvLine` that finds no line ends the loop. -/
  | recvNone {onTick : Bool} (hpc : s.advisor.pc = .draining onTick) {l : Link Double σ}
      {older : List (Link Double σ)} (hlinks : s.links = l :: older)
      {chunks : List (List UInt8)} (hflight : chunks.flatten <+: l.down.flight)
      (hreceive : (l.down.carry terminal.charArrayToString chunks).receive = none) :
      Step terminal strategy strat maxIdleIntervals s
        { advisor := { s.advisor with pc := .waiting }
          links := { l with down := l.down.carry terminal.charArrayToString chunks } :: older }
  | recvLine {onTick : Bool} (hpc : s.advisor.pc = .draining onTick) {l : Link Double σ}
      {older : List (Link Double σ)} (hlinks : s.links = l :: older)
      {chunks : List (List UInt8)} (hflight : chunks.flatten <+: l.down.flight)
      {line : List UInt8} {down : LineStream}
      (hreceive : (l.down.carry terminal.charArrayToString chunks).receive = some (line, down))
      (price : EnumOrderType → Double) (result : TradeResult) (n : Nat) :
      Step terminal strategy strat maxIdleIntervals s
        { advisor := (handle terminal onTick price result n line s.advisor { l with down }).1
          links := (handle terminal onTick price result n line s.advisor { l with down }).2 ::
            older }
  /-- `OnDeinit` on a socket. -/
  | deinit (hpc : s.advisor.pc = .waiting) (hconnected : s.advisor.connected = true)
      {l : Link Double σ} {older : List (Link Double σ)} (hlinks : s.links = l :: older) (n : Nat) :
      Step terminal strategy strat maxIdleIntervals s
        { advisor := { s.advisor with pc := .removed, connected := false }
          links := { l with up := (l.up.send byeLine n).close } :: older }
  | deinitIdle (hpc : s.advisor.pc = .waiting) (hconnected : s.advisor.connected = false) :
      Step terminal strategy strat maxIdleIntervals s
        { s with advisor := { s.advisor with pc := .removed } }
  /-- A connection is served once the older ones are done with. -/
  | server {newer : List (Link Double σ)} {l l' : Link Double σ} {older : List (Link Double σ)}
      (hlinks : s.links = newer ++ l :: older) (hturn : ∀ o ∈ older, o.bridge.returned = true)
      (hrunning : l.bridge.returned = false)
      (hstep : l.ServerStep strategy maxIdleIntervals l') :
      Step terminal strategy strat maxIdleIntervals s { s with links := newer ++ l' :: older }
  /-- The network drops the connection. -/
  | cut {newer : List (Link Double σ)} {l : Link Double σ} {older : List (Link Double σ)}
      (hlinks : s.links = newer ++ l :: older) :
      Step terminal strategy strat maxIdleIntervals s
        { s with links := newer ++ { l with up := l.up.close, down := l.down.close } :: older }
  | loseUp {newer : List (Link Double σ)} {l : Link Double σ} {older : List (Link Double σ)}
      (hlinks : s.links = newer ++ l :: older) (hclosed : l.up.isOpen = false) (n : Nat) :
      Step terminal strategy strat maxIdleIntervals s
        { s with links := newer ++ { l with up := l.up.lose n } :: older }
  | loseDown {newer : List (Link Double σ)} {l : Link Double σ} {older : List (Link Double σ)}
      (hlinks : s.links = newer ++ l :: older) (hclosed : l.down.isOpen = false) (n : Nat) :
      Step terminal strategy strat maxIdleIntervals s
        { s with links := newer ++ { l with down := l.down.lose n } :: older }

end Live

end HftOrderbook.Mt5
