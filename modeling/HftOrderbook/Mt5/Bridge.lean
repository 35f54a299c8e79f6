import HftOrderbook.Mt5.Protocol
import HftOrderbook.Mt5.Tcp

/-!
# A bridge session

`run_bridge` on one end of a connection and an Expert Advisor on the other, each as a process that
sends and receives lines. The server runs without an idle timeout, so it waits for the next line
however long that takes.
-/

namespace HftOrderbook.Mt5

open ByteText LineProcesses

variable {Double σ : Type} [FloatText Double]

structure BridgeStats where
  ticks : Nat := 0
  orders : Nat := 0
  acks : Nat := 0
  nops : Nat := 0

/-- Any state machine from ticks to perhaps an order. -/
structure Strategy (Double σ : Type) [FloatText Double] where
  onTick : σ → Tick Double → σ × Option (Order Double)
  side : ∀ s t ord, (onTick s t).2 = some ord → ord.side = Side.buy ∨ ord.side = Side.sell

/-- The locals of `run_bridge`, the strategy's state, and the line it is about to send. -/
structure Bridge (σ : Type) where
  st : BridgeStats := {}
  nextId : UInt64 := 1
  strat : σ
  outbox : Option (List UInt8) := none
  returned : Bool := false

namespace Bridge

/-- One round of the loop on a line it has received, for whatever the strategy does with a tick. -/
def onLineWith (onTick : σ → Tick Double → σ × Option (Order Double)) (b : Bridge σ)
    (line : List UInt8) : Bridge σ :=
  match kindOf line with
  | .hello => { b with outbox := some (encodeHelloReply (ascii "mt5d") true) }
  | .subscribe => b
  | .tick =>
      match parseTick line ({} : Tick Double) with
      | (false, _) => b
      | (true, t) =>
          let st := { b.st with ticks := b.st.ticks + 1 }
          match onTick b.strat t with
          | (strat, some ord) =>
              { b with
                st := { st with orders := st.orders + 1 }
                nextId := b.nextId + 1
                strat
                outbox := some (encodeOrder { ord with id := b.nextId }) }
          | (strat, none) =>
              { b with
                st := { st with nops := st.nops + 1 }
                strat
                outbox := some encodeNop }
  | .ack => { b with st := { b.st with acks := b.st.acks + 1 } }
  | .bye => { b with returned := true }
  | .heartbeat | .order | .nop | .depth | .signal | .unknown => b

def onLine (strategy : Strategy Double σ) (b : Bridge σ) (line : List UInt8) : Bridge σ :=
  b.onLineWith strategy.onTick line

def action (strategy : Strategy Double σ) (b : Bridge σ) : Action (Bridge σ) :=
  if b.returned then .stop
  else
    match b.outbox with
    | some text => .send text { b with outbox := none }
    | none => .receive (b.onLine strategy)

end Bridge

inductive Event
  | received (text : List UInt8)
  | sent (text : List UInt8)

/-- The whole loop of `run_bridge`, with the idle limit it was given and the number of timeouts
since the last line, as the lines it takes and sends in their order. -/
def Bridge.serve (onTick : σ → Tick Double → σ × Option (Order Double)) (maxIdleIntervals : Int) :
    Bridge σ → Int → List Received → List Event
  | _, _, [] => []
  | _, _, .closed :: _ => []
  | b, idle, .timedOut :: calls =>
      if 0 < maxIdleIntervals then
        if maxIdleIntervals ≤ idle + 1 then [] else b.serve onTick maxIdleIntervals (idle + 1) calls
      else []
  | b, _, .line text :: calls =>
      let b := b.onLineWith onTick text
      .received text :: ((b.outbox.map Event.sent).toList ++
        if b.returned then [] else { b with outbox := none }.serve onTick maxIdleIntervals 0 calls)

/-- What the Expert Advisor sends besides its ticks, and what it answers to an order. -/
structure EaConfig (Double : Type) [FloatText Double] where
  client : List UInt8
  account : UInt64
  symbol : List UInt8
  execute : Order Double → Ack

inductive EaPhase (Double : Type) [FloatText Double]
  | hello
  | helloReply
  | subscribe
  | next
  | reply
  | ack (o : Order Double)
  | done

/-- The ticks it has still to send, what it has read in reply to the others and the acks it has
sent. -/
structure Ea (Double : Type) [FloatText Double] where
  phase : EaPhase Double := .hello
  todo : List (Tick Double)
  replies : List (Option (Order Double)) := []
  acks : List Ack := []

def Ea.action (config : EaConfig Double) (ea : Ea Double) : Action (Ea Double) :=
  match ea.phase with
  | .hello => .send (encodeHello config.client config.account) { ea with phase := .helloReply }
  | .helloReply => .receive fun _ => { ea with phase := .subscribe }
  | .subscribe => .send (encodeSubscribe config.symbol) { ea with phase := .next }
  | .next =>
      match ea.todo with
      | [] => .send encodeBye { ea with phase := .done }
      | t :: todo => .send (encodeTick t) { ea with phase := .reply, todo }
  | .reply =>
      .receive fun line =>
        if kindOf line = .order then
          let o := (parseOrder line ({} : Order Double)).2
          { ea with phase := .ack o, replies := ea.replies ++ [some o] }
        else { ea with phase := .next, replies := ea.replies ++ [none] }
  | .ack o =>
      let a := { config.execute o with id := o.id }
      .send (encodeAck a) { ea with phase := .next, acks := ea.acks ++ [a] }
  | .done => .stop

/-- The start of a session that will send these ticks. -/
def session (ticks : List (Tick Double)) (strat : σ) : Pair (Ea Double) (Bridge σ) :=
  { left := { todo := ticks }, right := { strat } }

end HftOrderbook.Mt5
