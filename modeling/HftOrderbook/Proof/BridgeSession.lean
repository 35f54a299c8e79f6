import HftOrderbook.Mt5.Bridge
import HftOrderbook.Proof.Mt5Codec

/-!
# Bridge sessions

Played in lock step, a session takes each tick to the server, its decision back and an ack to the
server, and ends with the server's return. Every other interleaving ends there too, so nothing can
get stuck on the way, and what has been read or counted at any time is the beginning of what will
have been at the end.
-/

namespace HftOrderbook.Mt5

open ByteText Decimal FlatJson LineProcesses

variable {Double σ : Type} [FloatText Double]

/-- A tick as the server parses it. -/
def Tick.seen (t : Tick Double) : Tick Double :=
  { t.received with time := saturated t.time, volume := saturated t.volume }

/-- An order as the Expert Advisor parses it. -/
def Order.seen (o : Order Double) : Order Double := { o.received with id := saturated o.id }

theorem Order.seen_eq_received {o : Order Double} (hid : o.id.toNat < 2 ^ 63) :
    o.seen = o.received := by
  rw [seen, saturated_eq_self hid]
  rfl

/-- The decisions on the ticks in turn, each order under the id it is sent with. -/
def decisions (strategy : Strategy Double σ) :
    σ → UInt64 → List (Tick Double) → List (Option (Order Double))
  | _, _, [] => []
  | s, id, t :: ticks =>
      match strategy.onTick s t.seen with
      | (s', some ord) => some { ord with id } :: decisions strategy s' (id + 1) ticks
      | (s', none) => none :: decisions strategy s' id ticks

def orders (answers : List (Option (Order Double))) : List (Order Double) := answers.filterMap id

theorem orders_some (o : Order Double) (answers : List (Option (Order Double))) :
    orders (some o :: answers) = o :: orders answers := rfl

theorem length_decisions (strategy : Strategy Double σ) (ticks : List (Tick Double)) :
    ∀ (s : σ) (id : UInt64), (decisions strategy s id ticks).length = ticks.length := by
  induction ticks with
  | nil => exact fun _ _ => rfl
  | cons t ticks ih =>
      intro s id
      rw [decisions]
      split
      · rw [List.length_cons, List.length_cons, ih]
      · rw [List.length_cons, List.length_cons, ih]

/-- The orders are numbered from the first id on. -/
theorem ids_decisions (strategy : Strategy Double σ) (ticks : List (Tick Double)) :
    ∀ (s : σ) (k : Nat), (orders (decisions strategy s (UInt64.ofNat k) ticks)).map Order.id =
      (List.range' k (orders (decisions strategy s (UInt64.ofNat k) ticks)).length).map
        UInt64.ofNat := by
  induction ticks with
  | nil => exact fun _ _ => rfl
  | cons t ticks ih =>
      intro s k
      rw [decisions]
      split
      · next s' ord _ =>
          have hnext : UInt64.ofNat k + 1 = UInt64.ofNat (k + 1) := (UInt64.ofNat_add k 1).symm
          rw [hnext, orders_some, List.map_cons, List.length_cons, List.range'_succ, List.map_cons,
            ih s' (k + 1)]
      · next s' _ => exact ih s' k

theorem toNat_range {n : Nat} (hn : n < 2 ^ 63) :
    ((List.range' 1 n).map UInt64.ofNat).map UInt64.toNat = List.range' 1 n := by
  calc
    ((List.range' 1 n).map UInt64.ofNat).map UInt64.toNat = (List.range' 1 n).map id := by
      rw [List.map_map]
      refine List.map_congr_left fun k hk => ?_
      have hlt := (List.mem_range'_1.mp hk).2
      exact UInt64.toNat_ofNat_of_lt' (by change k < 2 ^ 64; omega)
    _ = List.range' 1 n := List.map_id _

/-! ### The server -/

namespace Bridge

variable (strategy : Strategy Double σ) {b : Bridge σ}

/-- After a tick without an order. -/
def nopped (b : Bridge σ) (s : σ) : Bridge σ :=
  { b with
    st := { b.st with ticks := b.st.ticks + 1, nops := b.st.nops + 1 }
    strat := s
    outbox := some encodeNop }

/-- After a tick with an order. -/
def ordered (b : Bridge σ) (s : σ) (ord : Order Double) : Bridge σ :=
  { b with
    st := { b.st with ticks := b.st.ticks + 1, orders := b.st.orders + 1 }
    nextId := b.nextId + 1
    strat := s
    outbox := some (encodeOrder { ord with id := b.nextId }) }

/-- After the line has left. -/
def sent (b : Bridge σ) : Bridge σ := { b with outbox := none }

def acked (b : Bridge σ) : Bridge σ := { b with st := { b.st with acks := b.st.acks + 1 } }

theorem action_receive (hreturned : b.returned = false) (houtbox : b.outbox = none) :
    b.action strategy = .receive (b.onLine strategy) := by
  rw [action, hreturned, houtbox]
  rfl

theorem action_send {text : List UInt8} (hreturned : b.returned = false)
    (houtbox : b.outbox = some text) :
    b.action strategy = .send text b.sent := by
  rw [action, if_neg (by rw [hreturned]; decide), houtbox]
  rfl

theorem onLine_tick (hfloat : FloatText.Lawful Double) (t : Tick Double) :
    b.onLine strategy (line [] (tickFields t)) =
      match strategy.onTick b.strat t.seen with
      | (s, some ord) => b.ordered s ord
      | (s, none) => b.nopped s := by
  rw [onLine, onLineWith, kindOf_tickLine hfloat List.not_mem_nil,
    parseTick_line hfloat List.not_mem_nil]
  change (match strategy.onTick b.strat t.seen with
    | (strat, some ord) => _
    | (strat, none) => _) = _
  rcases strategy.onTick b.strat t.seen with ⟨s, _ | ord⟩ <;> rfl

theorem onLine_nop (hfloat : FloatText.Lawful Double) {t : Tick Double} {s : σ}
    (hdecision : strategy.onTick b.strat t.seen = (s, none)) :
    b.onLine strategy (line [] (tickFields t)) = b.nopped s := by
  rw [onLine_tick strategy hfloat, hdecision]

theorem onLine_order (hfloat : FloatText.Lawful Double) {t : Tick Double} {s : σ}
    {ord : Order Double} (hdecision : strategy.onTick b.strat t.seen = (s, some ord)) :
    b.onLine strategy (line [] (tickFields t)) = b.ordered s ord := by
  rw [onLine_tick strategy hfloat, hdecision]

theorem onLine_ack (hfloat : FloatText.Lawful Double) (a : Ack) :
    b.onLine strategy (line [] (ackFields a : List (List UInt8 × Field Double))) =
      b.acked := by
  rw [onLine, onLineWith, kindOf_ackLine hfloat List.not_mem_nil]
  rfl

end Bridge

/-! ### The other lines -/

def helloFields (client : List UInt8) (account : UInt64) : List (List UInt8 × Field Double) :=
  [(ascii "t", .text (ascii "hello")), (ascii "v", .int kProtocolVersion.toInt),
    (ascii "client", .text client), (ascii "account", .int account.toNat)]

def subscribeFields (symbol : List UInt8) : List (List UInt8 × Field Double) :=
  [(ascii "t", .text (ascii "subscribe")), (ascii "v", .int kProtocolVersion.toInt),
    (ascii "symbol", .text symbol)]

variable (Double) in
theorem encodeHello_eq_line (client : List UInt8) (account : UInt64) :
    encodeHello client account =
      line (ascii "\n") (helloFields client account : List (List UInt8 × Field Double)) := by
  simp only [encodeHello, line, helloFields, List.map_cons, List.map_nil, object, following,
    member, Member.text, Field.value, Value.text, quoted, signedNumeral_natCast,
    List.append_assoc, List.cons_append, List.nil_append]
  rfl

variable (Double) in
theorem encodeSubscribe_eq_line (symbol : List UInt8) :
    encodeSubscribe symbol =
      line (ascii "\n") (subscribeFields symbol : List (List UInt8 × Field Double)) := by
  simp only [encodeSubscribe, line, subscribeFields, List.map_cons, List.map_nil, object,
    following, member, Member.text, Field.value, Value.text, quoted, List.append_assoc,
    List.cons_append, List.nil_append]
  rfl

omit [FloatText Double] in
variable (Double) in
theorem isKey_helloFields (client : List UInt8) (account : UInt64) :
    ∀ key ∈ (helloFields client account : List (List UInt8 × Field Double)).map Prod.fst,
      IsKey key := by
  change ∀ key ∈ [ascii "t", ascii "v", ascii "client", ascii "account"], IsKey key
  decide

omit [FloatText Double] in
variable (Double) in
theorem isKey_subscribeFields (symbol : List UInt8) :
    ∀ key ∈ (subscribeFields symbol : List (List UInt8 × Field Double)).map Prod.fst,
      IsKey key := by
  change ∀ key ∈ [ascii "t", ascii "v", ascii "symbol"], IsKey key
  decide

section Session

variable (hfloat : FloatText.Lawful Double) (strategy : Strategy Double σ)
  (config : EaConfig Double)

/-- Some interleaving of the two parties leads from one state to the other. -/
abbrev Leads (w z : Pair (Ea Double) (Bridge σ)) : Prop :=
  Relation.ReflTransGen (Step (Ea.action config) (Bridge.action strategy)) w z

include hfloat

variable {strategy config}

/-- A line of the Expert Advisor is sent and handled. -/
theorem leads_toServer {ea ea' : Ea Double} {b b' : Bridge σ}
    {fields : List (List UInt8 × Field Double)} (hkeys : ∀ key ∈ fields.map Prod.fst, IsKey key)
    (hsend : ea.action config = .send (line (ascii "\n") fields) ea')
    (hreturned : b.returned = false) (houtbox : b.outbox = none)
    (hline : b.onLine strategy (line [] fields) = b') :
    Leads strategy config ⟨ea, b, [], []⟩ ⟨ea', b', [], []⟩ := by
  rw [line_newline] at hsend
  rw [← hline]
  exact deliver_right (newline_not_mem_line hfloat hkeys) hsend
    (Bridge.action_receive strategy hreturned houtbox)

omit hfloat in
/-- A line of the server is sent and read. -/
theorem leads_toEa {ea ea' : Ea Double} {b : Bridge σ} {text : List UInt8}
    {next : List UInt8 → Ea Double} (htext : (0x0A : UInt8) ∉ text)
    (hreturned : b.returned = false) (houtbox : b.outbox = some (text ++ [0x0A]))
    (hreceive : ea.action config = .receive next) (hnext : next text = ea') :
    Leads strategy config ⟨ea, b, [], []⟩ ⟨ea', b.sent, [], []⟩ := by
  rw [← hnext]
  exact deliver_left htext (Bridge.action_send strategy hreturned houtbox) hreceive

/-- Greeting and subscription. -/
theorem leads_greeting (ticks : List (Tick Double)) (s : σ) :
    Leads strategy config (session ticks s)
      ⟨{ phase := .next, todo := ticks }, { strat := s }, [], []⟩ := by
  have hhello : Leads strategy config (session ticks s)
      ⟨{ phase := .helloReply, todo := ticks },
        { strat := s, outbox := some (encodeHelloReply (ascii "mt5d") true) }, [], []⟩ := by
    have hkeys := isKey_helloFields Double config.client config.account
    refine leads_toServer hfloat hkeys ?_ rfl rfl ?_
    · rw [← encodeHello_eq_line]
      rfl
    · rw [Bridge.onLine, Bridge.onLineWith, kindOf,
        jsonGetStr_line hfloat List.not_mem_nil hkeys rfl]
      rfl
  have hreply : Leads strategy config
      ⟨{ phase := .helloReply, todo := ticks },
        { strat := s, outbox := some (encodeHelloReply (ascii "mt5d") true) }, [], []⟩
      ⟨{ phase := .subscribe, todo := ticks }, { strat := s }, [], []⟩ := by
    have htext : (0x0A : UInt8) ∉ (encodeHelloReply (ascii "mt5d") true).dropLast := by decide
    have hline : encodeHelloReply (ascii "mt5d") true =
        (encodeHelloReply (ascii "mt5d") true).dropLast ++ [0x0A] := by decide
    exact leads_toEa htext rfl (congrArg some hline) rfl rfl
  have hsubscribe : Leads strategy config
      ⟨{ phase := .subscribe, todo := ticks }, { strat := s }, [], []⟩
      ⟨{ phase := .next, todo := ticks }, { strat := s }, [], []⟩ := by
    have hkeys := isKey_subscribeFields Double config.symbol
    refine leads_toServer hfloat hkeys ?_ rfl rfl ?_
    · rw [← encodeSubscribe_eq_line]
      rfl
    · rw [Bridge.onLine, Bridge.onLineWith, kindOf,
        jsonGetStr_line hfloat List.not_mem_nil hkeys rfl]
      rfl
  exact hhello.trans (hreply.trans hsubscribe)

variable (config) in
theorem leads_tick {ea : Ea Double} {b b' : Bridge σ} {t : Tick Double}
    {ticks : List (Tick Double)} (hphase : ea.phase = .next) (htodo : ea.todo = t :: ticks)
    (hreturned : b.returned = false) (houtbox : b.outbox = none)
    (hline : b.onLine strategy (line [] (tickFields t)) = b') :
    Leads strategy config ⟨ea, b, [], []⟩
      ⟨{ ea with phase := .reply, todo := ticks }, b', [], []⟩ := by
  refine leads_toServer hfloat (isKey_tickFields t) ?_ hreturned houtbox hline
  rw [Ea.action, hphase, htodo, ← encodeTick_eq_line]

/-- A tick on which the strategy does nothing. -/
theorem leads_nop {ea : Ea Double} {b : Bridge σ} {t : Tick Double} {ticks : List (Tick Double)}
    {s : σ} (hphase : ea.phase = .next) (htodo : ea.todo = t :: ticks)
    (hreturned : b.returned = false) (houtbox : b.outbox = none)
    (hdecision : strategy.onTick b.strat t.seen = (s, none)) :
    Leads strategy config ⟨ea, b, [], []⟩
      ⟨{ ea with phase := .next, todo := ticks, replies := ea.replies ++ [none] },
        (b.nopped s).sent, [], []⟩ := by
  have htick := leads_tick hfloat config hphase htodo hreturned houtbox
    (Bridge.onLine_nop strategy hfloat hdecision)
  have htext : (0x0A : UInt8) ∉ encodeNop.dropLast := by decide
  have hnop : encodeNop = encodeNop.dropLast ++ [0x0A] := by decide
  refine htick.trans (leads_toEa htext hreturned (congrArg some hnop) rfl ?_)
  exact if_neg (by decide : ¬ kindOf encodeNop.dropLast = .order)

variable (config) in
/-- A tick on which it orders, and the ack. -/
theorem leads_order {ea : Ea Double} {b : Bridge σ} {t : Tick Double} {ticks : List (Tick Double)}
    {s : σ} {ord : Order Double} (hphase : ea.phase = .next) (htodo : ea.todo = t :: ticks)
    (hreturned : b.returned = false) (houtbox : b.outbox = none)
    (hdecision : strategy.onTick b.strat t.seen = (s, some ord)) :
    ∃ a : Ack, a.id = saturated b.nextId ∧ Leads strategy config ⟨ea, b, [], []⟩
      ⟨{ ea with
          phase := .next
          todo := ticks
          replies := ea.replies ++ [some { ord with id := b.nextId }.seen]
          acks := ea.acks ++ [a] },
        (b.ordered s ord).sent.acked, [], []⟩ := by
  set order : Order Double := { ord with id := b.nextId } with horder
  have htick := leads_tick hfloat config hphase htodo hreturned houtbox
    (Bridge.onLine_order strategy hfloat hdecision)
  have hside : order.side = Side.buy ∨ order.side = Side.sell :=
    strategy.side b.strat t.seen ord (by rw [hdecision])
  have hparse : (parseOrder (line [] (orderFields order)) ({} : Order Double)).2 = order.seen := by
    rw [parseOrder_line hfloat List.not_mem_nil order hside]
    rfl
  have hsend : encodeOrder order = line [] (orderFields order) ++ [0x0A] := by
    rw [encodeOrder_eq_line, line_newline]
  have hreply : Leads strategy config
      ⟨{ ea with phase := .reply, todo := ticks }, b.ordered s ord, [], []⟩
      ⟨{ ea with
          phase := .ack order.seen
          todo := ticks
          replies := ea.replies ++ [some order.seen] }, (b.ordered s ord).sent, [], []⟩ := by
    refine leads_toEa (newline_not_mem_line hfloat (isKey_orderFields order)) hreturned
      (congrArg some hsend) rfl ?_
    dsimp only
    rw [if_pos (kindOf_orderLine hfloat List.not_mem_nil order), hparse]
  refine ⟨{ config.execute order.seen with id := order.seen.id }, rfl,
    htick.trans (hreply.trans ?_)⟩
  refine leads_toServer hfloat (isKey_ackFields Double
    { config.execute order.seen with id := order.seen.id }) ?_ hreturned rfl
    (Bridge.onLine_ack strategy hfloat _)
  rw [← encodeAck_eq_line]
  rfl

/-- How a session ends that goes on from a state with these ticks left. -/
structure Ended (strategy : Strategy Double σ) (ticks : List (Tick Double)) (ea : Ea Double)
    (b : Bridge σ) (z : Pair (Ea Double) (Bridge σ)) : Prop where
  done : z.left.phase = .done
  returned : z.right.returned = true
  replies : z.left.replies =
    ea.replies ++ (decisions strategy b.strat b.nextId ticks).map (Option.map Order.seen)
  acks : z.left.acks.map Ack.id = ea.acks.map Ack.id ++
    (orders (decisions strategy b.strat b.nextId ticks)).map fun o => o.seen.id
  tickCount : z.right.st.ticks = b.st.ticks + ticks.length
  orderCount : z.right.st.orders =
    b.st.orders + (orders (decisions strategy b.strat b.nextId ticks)).length
  nopCount : z.right.st.orders + z.right.st.nops =
    b.st.orders + b.st.nops + ticks.length
  ackCount : z.right.st.acks =
    b.st.acks + (orders (decisions strategy b.strat b.nextId ticks)).length

omit hfloat in
/-- The end seen from before a tick without an order. -/
theorem Ended.of_nop {t : Tick Double} {ticks : List (Tick Double)} {ea ea' : Ea Double}
    {b : Bridge σ} {s : σ} {z : Pair (Ea Double) (Bridge σ)}
    (h : Ended strategy ticks ea' (b.nopped s).sent z)
    (hdecision : strategy.onTick b.strat t.seen = (s, none))
    (hreplies : ea'.replies = ea.replies ++ [none]) (hacks : ea'.acks = ea.acks) :
    Ended strategy (t :: ticks) ea b z := by
  have hanswers : decisions strategy b.strat b.nextId (t :: ticks) =
      none :: decisions strategy s b.nextId ticks := by
    rw [decisions, hdecision]
  refine ⟨h.done, h.returned, ?_, ?_, ?_, ?_, ?_, ?_⟩
  · rw [h.replies, hanswers, hreplies, List.append_assoc]
    rfl
  · rw [h.acks, hanswers, hacks]
    rfl
  · rw [h.tickCount, List.length_cons]
    change b.st.ticks + 1 + _ = _
    omega
  · rw [h.orderCount, hanswers]
    rfl
  · rw [h.nopCount, List.length_cons]
    change b.st.orders + (b.st.nops + 1) + _ = _
    omega
  · rw [h.ackCount, hanswers]
    rfl

omit hfloat in
/-- The end seen from before a tick with an order and its ack. -/
theorem Ended.of_order {t : Tick Double} {ticks : List (Tick Double)} {ea ea' : Ea Double}
    {b : Bridge σ} {s : σ} {ord : Order Double} {a : Ack} {z : Pair (Ea Double) (Bridge σ)}
    (h : Ended strategy ticks ea' (b.ordered s ord).sent.acked z)
    (hdecision : strategy.onTick b.strat t.seen = (s, some ord)) (ha : a.id = saturated b.nextId)
    (hreplies : ea'.replies = ea.replies ++ [some { ord with id := b.nextId }.seen])
    (hacks : ea'.acks = ea.acks ++ [a]) :
    Ended strategy (t :: ticks) ea b z := by
  have hanswers : decisions strategy b.strat b.nextId (t :: ticks) =
      some { ord with id := b.nextId } :: decisions strategy s (b.nextId + 1) ticks := by
    rw [decisions, hdecision]
  refine ⟨h.done, h.returned, ?_, ?_, ?_, ?_, ?_, ?_⟩
  · rw [h.replies, hanswers, hreplies, List.append_assoc]
    rfl
  · rw [h.acks, hanswers, hacks, List.map_append, List.append_assoc]
    change _ ++ ([a.id] ++ _) = _
    rw [ha]
    rfl
  · rw [h.tickCount, List.length_cons]
    change b.st.ticks + 1 + _ = _
    omega
  · rw [h.orderCount, hanswers, orders_some, List.length_cons]
    change b.st.orders + 1 + (orders (decisions strategy s (b.nextId + 1) ticks)).length = _
    omega
  · rw [h.nopCount, List.length_cons]
    change b.st.orders + 1 + b.st.nops + _ = _
    omega
  · rw [h.ackCount, hanswers, orders_some, List.length_cons]
    change b.st.acks + 1 + (orders (decisions strategy s (b.nextId + 1) ticks)).length = _
    omega

omit hfloat in
variable (config) in
theorem leads_bye {ea : Ea Double} {b : Bridge σ} (hphase : ea.phase = .next) (htodo : ea.todo = [])
    (hreturned : b.returned = false) (houtbox : b.outbox = none) :
    ∃ z, Leads strategy config ⟨ea, b, [], []⟩ z ∧ Ended strategy [] ea b z := by
  have htext : (0x0A : UInt8) ∉ encodeBye.dropLast := by decide
  have hbye : encodeBye = encodeBye.dropLast ++ [0x0A] := by decide
  have hkind : kindOf encodeBye.dropLast = .bye := by decide
  have hsend : ea.action config =
      .send (encodeBye.dropLast ++ [0x0A]) { ea with phase := .done } := by
    rw [Ea.action, hphase, htodo, ← hbye]
  have hline : b.onLine strategy encodeBye.dropLast = { b with returned := true } := by
    rw [Bridge.onLine, Bridge.onLineWith, hkind]
  refine ⟨_, deliver_right htext hsend (Bridge.action_receive strategy hreturned houtbox), ?_⟩
  rw [hline]
  exact ⟨rfl, rfl, (List.append_nil _).symm, (List.append_nil _).symm, rfl, rfl, rfl, rfl⟩

variable (strategy config) in
/-- The session in lock step. -/
theorem leads_end (ticks : List (Tick Double)) :
    ∀ (ea : Ea Double) (b : Bridge σ), ea.phase = .next → ea.todo = ticks →
      b.returned = false → b.outbox = none →
      ∃ z, Leads strategy config ⟨ea, b, [], []⟩ z ∧ Ended strategy ticks ea b z := by
  induction ticks with
  | nil =>
      intro ea b hphase htodo hreturned houtbox
      exact leads_bye config hphase htodo hreturned houtbox
  | cons t ticks ih =>
      intro ea b hphase htodo hreturned houtbox
      cases hdecision : strategy.onTick b.strat t.seen with
      | mk s decision =>
      cases decision with
      | none =>
          obtain ⟨z, hz, hend⟩ := ih { ea with
              phase := .next, todo := ticks, replies := ea.replies ++ [none] }
            (b.nopped s).sent rfl rfl hreturned rfl
          exact ⟨z, (leads_nop hfloat hphase htodo hreturned houtbox hdecision).trans hz,
            hend.of_nop hdecision rfl rfl⟩
      | some ord =>
          obtain ⟨a, ha, hleads⟩ := leads_order hfloat config hphase htodo hreturned houtbox
            hdecision
          obtain ⟨z, hz, hend⟩ := ih { ea with
              phase := .next
              todo := ticks
              replies := ea.replies ++ [some { ord with id := b.nextId }.seen]
              acks := ea.acks ++ [a] }
            (b.ordered s ord).sent.acked rfl rfl hreturned rfl
          exact ⟨z, hleads.trans hz, hend.of_order hdecision ha rfl rfl⟩

end Session

/-! ### Every interleaving -/

section Interleavings

variable {strategy : Strategy Double σ} {config : EaConfig Double}
  {w z : Pair (Ea Double) (Bridge σ)}

theorem action_of_returned {b : Bridge σ} (hreturned : b.returned = true) :
    b.action strategy = .stop := by
  rw [Bridge.action, if_pos hreturned]

variable (config) in
theorem Ended.finished {ticks : List (Tick Double)} {ea : Ea Double} {b : Bridge σ}
    (h : Ended strategy ticks ea b z) :
    Finished (Ea.action config) (Bridge.action strategy) z := by
  constructor
  · rw [stepLeft, Ea.action, h.done]
  · rw [stepRight, action_of_returned h.returned]

/-- What the Expert Advisor has read and acked only grows. -/
theorem Ea.grows_of_send {ea ea' : Ea Double} {text : List UInt8}
    (h : ea.action config = .send text ea') :
    ea.replies <+: ea'.replies ∧ ea.acks <+: ea'.acks := by
  unfold Ea.action at h
  split at h
  · obtain ⟨-, rfl⟩ := Action.send.inj h
    exact ⟨List.prefix_rfl, List.prefix_rfl⟩
  · cases h
  · obtain ⟨-, rfl⟩ := Action.send.inj h
    exact ⟨List.prefix_rfl, List.prefix_rfl⟩
  · split at h
    · obtain ⟨-, rfl⟩ := Action.send.inj h
      exact ⟨List.prefix_rfl, List.prefix_rfl⟩
    · obtain ⟨-, rfl⟩ := Action.send.inj h
      exact ⟨List.prefix_rfl, List.prefix_rfl⟩
  · cases h
  · obtain ⟨-, rfl⟩ := Action.send.inj h
    exact ⟨List.prefix_rfl, List.prefix_append _ _⟩
  · cases h

theorem Ea.grows_of_receive {ea : Ea Double} {next : List UInt8 → Ea Double}
    (h : ea.action config = .receive next) (line : List UInt8) :
    ea.replies <+: (next line).replies ∧ ea.acks <+: (next line).acks := by
  unfold Ea.action at h
  split at h
  · cases h
  · obtain rfl := Action.receive.inj h
    exact ⟨List.prefix_rfl, List.prefix_rfl⟩
  · cases h
  · split at h
    · cases h
    · cases h
  · obtain rfl := Action.receive.inj h
    dsimp only
    split_ifs
    · exact ⟨List.prefix_append _ _, List.prefix_rfl⟩
    · exact ⟨List.prefix_append _ _, List.prefix_rfl⟩
  · cases h
  · cases h

theorem grows_of_step (hstep : Step (Ea.action config) (Bridge.action strategy) w z) :
    w.left.replies <+: z.left.replies ∧ w.left.acks <+: z.left.acks := by
  rcases hstep with hleft | hright
  · obtain ⟨-, ⟨text, hsend⟩ | ⟨next, line, hreceive, hnext⟩⟩ := stepLeft_cases hleft
    · exact Ea.grows_of_send hsend
    · rw [hnext]
      exact Ea.grows_of_receive hreceive line
  · rw [stepRight_left hright]
    exact ⟨List.prefix_rfl, List.prefix_rfl⟩

theorem grows_of_leads (hleads : Leads strategy config w z) :
    w.left.replies <+: z.left.replies ∧ w.left.acks <+: z.left.acks := by
  induction hleads with
  | refl => exact ⟨List.prefix_rfl, List.prefix_rfl⟩
  | tail _ hstep ih =>
      obtain ⟨hreplies, hacks⟩ := grows_of_step hstep
      exact ⟨ih.1.trans hreplies, ih.2.trans hacks⟩

/-- Once the server has returned it stays as it is. -/
theorem right_of_returned (hreturned : w.right.returned = true)
    (hleads : Leads strategy config w z) : z.right = w.right := by
  induction hleads with
  | refl => rfl
  | @tail v z _ hstep ih =>
      rcases hstep with hleft | hright
      · exact (stepLeft_cases hleft).1.trans ih
      · rw [stepRight, ih, action_of_returned hreturned] at hright
        cases hright

end Interleavings

/-- However the two parties are interleaved, the session goes on until the server returns and ends
after a bounded number of steps; the Expert Advisor reads for each tick the decision on that tick,
with orders numbered from one on and acked under the numbers it has read, and the server's counts
agree. An id has 64 bits and is read back with a sign: below 2^63 orders no two share an id and each
is read as it was sent. -/
theorem bridge_sessions_agree (Double σ : Type) [FloatText Double]
    (hfloat : FloatText.Lawful Double) (strategy : Strategy Double σ) (config : EaConfig Double)
    (ticks : List (Tick Double)) (s : σ) :
    let answers := decisions strategy s 1 ticks
    answers.length = ticks.length ∧
    (orders answers).map Order.id = (List.range' 1 (orders answers).length).map UInt64.ofNat ∧
    ((orders answers).length < 2 ^ 63 →
      (orders answers).map (fun o => o.id.toNat) = List.range' 1 (orders answers).length ∧
      ∀ o ∈ orders answers, o.seen = o.received) ∧
    (∃ n, ∀ m w, Run (Ea.action config) (Bridge.action strategy) m (session ticks s) w → m ≤ n) ∧
    ∀ w, Leads strategy config (session ticks s) w →
      (w.right.returned = false →
        ∃ w', Step (Ea.action config) (Bridge.action strategy) w w') ∧
      w.left.replies <+: answers.map (Option.map Order.seen) ∧
      w.left.acks.map Ack.id <+: (orders answers).map (fun o => o.seen.id) ∧
      (w.right.returned = true →
        w.right.st.ticks = ticks.length ∧ w.right.st.orders = (orders answers).length ∧
        w.right.st.orders + w.right.st.nops = w.right.st.ticks ∧
        w.right.st.acks = w.right.st.orders) ∧
      ∃ z, Leads strategy config w z ∧ z.right.returned = true ∧
        z.left.replies = answers.map (Option.map Order.seen) ∧
        z.left.acks.map Ack.id = (orders answers).map fun o => o.seen.id := by
  intro answers
  obtain ⟨z, hz, hend⟩ := leads_end hfloat strategy config ticks
    { phase := .next, todo := ticks } { strat := s } rfl rfl rfl rfl
  obtain ⟨n, hrun⟩ := exists_run ((leads_greeting hfloat ticks s).trans hz)
  have hfinished := hend.finished config
  have hreplies : z.left.replies = answers.map (Option.map Order.seen) := hend.replies
  have hacks : z.left.acks.map Ack.id = (orders answers).map fun o => o.seen.id := hend.acks
  have hids : (orders answers).map Order.id =
      (List.range' 1 (orders answers).length).map UInt64.ofNat := ids_decisions strategy ticks s 1
  refine ⟨length_decisions strategy ticks s 1, hids, fun hcount => ?_, ⟨n, fun m w hother => ?_⟩,
    fun w hw => ?_⟩
  · have htoNat : (orders answers).map (fun o => o.id.toNat) =
        List.range' 1 (orders answers).length := by
      rw [← toNat_range hcount, ← hids, List.map_map]
      rfl
    refine ⟨htoNat, fun o ho => Order.seen_eq_received ?_⟩
    have hmem : o.id.toNat ∈ List.range' 1 (orders answers).length :=
      htoNat ▸ List.mem_map_of_mem ho
    have hlt := (List.mem_range'_1.mp hmem).2
    omega
  · obtain ⟨k, hk, -⟩ := hrun.of_run hfinished hother
    omega
  · obtain ⟨m, hother⟩ := exists_run hw
    obtain ⟨k, -, hrest⟩ := hrun.of_run hfinished hother
    have hleads : Leads strategy config w z := hrest.reachable
    obtain ⟨hgrowReplies, hgrowAcks⟩ := grows_of_leads hleads
    refine ⟨fun hreturned => ?_, hreplies ▸ hgrowReplies, hacks ▸ hgrowAcks.map _,
      fun hreturned => ?_, z, hleads, hend.returned, hreplies, hacks⟩
    · refine exists_step hleads fun heq => ?_
      rw [heq, hend.returned] at hreturned
      cases hreturned
    · rw [← right_of_returned hreturned hleads]
      have htickCount : z.right.st.ticks = 0 + ticks.length := hend.tickCount
      have horderCount : z.right.st.orders = 0 + (orders answers).length := hend.orderCount
      have hnopCount : z.right.st.orders + z.right.st.nops = 0 + 0 + ticks.length := hend.nopCount
      have hackCount : z.right.st.acks = 0 + (orders answers).length := hend.ackCount
      omega

/-- Buys one whenever the bid is above the last price. -/
def buyAboveLast : Strategy Int Unit where
  onTick _ t := ((),
    if t.last < t.bid then some { symbol := t.symbol, side := Side.buy, volume := 1 } else none)
  side := by
    intro s t ord hdecision
    split_ifs at hdecision
    exact Or.inl (Option.some.inj hdecision ▸ rfl)

theorem bridge_sessions_agree_sample :
    let config : EaConfig Int := ⟨ascii "EA", 12345, ascii "EURUSD", fun _ => { ok := true }⟩
    let ticks : List (Tick Int) := [{ symbol := ascii "EURUSD", bid := 2, last := 1 }, { bid := 1 },
      { bid := 1, last := 1 }]
    ∀ w, Leads buyAboveLast config (session ticks ()) w →
      (w.right.returned = true → w.right.st.ticks = 3 ∧ w.right.st.acks = w.right.st.orders) ∧
      ∃ z, Leads buyAboveLast config w z ∧ z.right.returned = true := by
  intro config ticks w hw
  obtain ⟨-, -, -, -, hsession⟩ :=
    bridge_sessions_agree Int Unit wholeNumbers_lawful buyAboveLast config ticks ()
  obtain ⟨-, -, -, hstats, z, hz, hreturned, -⟩ := hsession w hw
  exact ⟨fun h => ⟨(hstats h).1, (hstats h).2.2.2⟩, z, hz, hreturned⟩

end HftOrderbook.Mt5
