import HftOrderbook.Proof.AdvisorTexts
import HftOrderbook.Proof.BridgeSession
import HftOrderbook.Proof.LiveSchedule
import HftOrderbook.Proof.Strategy

/-!
# Orders and acks over connections that break

On every connection each side takes a beginning of the lines the other has sent, so what the bridge
counts and what the advisor does stay in step: the advisor executes the orders of a connection in
their order and each once, and the bridge hears their acks in the same order.
-/

namespace HftOrderbook.Mt5

open ByteText Decimal ExpertAdvisor LineStream

variable {Double σ : Type} [FloatText Double]

/-! ### Text that is read out of a line -/

theorem isAscii_of_readStr {text out : List UInt8} (h : readStr text = some out)
    (htext : IsAscii text) : IsAscii out := by
  -- a byte is taken over, or stands for an escape
  have hcons {b : UInt8} {out : List UInt8} {read : Option (List UInt8)}
      (h : read.map (b :: ·) = some out) (hb : 0 < b ∧ b < 0x80)
      (ih : ∀ {out}, read = some out → IsAscii out) : IsAscii out := by
    obtain ⟨out', hread, rfl⟩ := Option.map_eq_some_iff.mp h
    exact List.forall_mem_cons.mpr ⟨hb, ih hread⟩
  have hnil : IsAscii [] := fun b hb => absurd hb List.not_mem_nil
  fun_induction readStr text generalizing out with
  | case1 => cases h
  | case2 => exact Option.some.inj h ▸ hnil
  | case3 ch hquote => cases h
  | case4 nx rest hplain ih =>
      obtain ⟨-, hnx, hrest⟩ := List.forall_mem_cons.mp htext |>.imp_right List.forall_mem_cons.mp
      exact hcons h hnx fun hread => ih hread hrest
  | case5 rest hother ih =>
      obtain ⟨-, -, hrest⟩ := List.forall_mem_cons.mp htext |>.imp_right List.forall_mem_cons.mp
      exact hcons h (by decide) fun hread => ih hread hrest
  | case6 rest hother hnewline ih =>
      obtain ⟨-, -, hrest⟩ := List.forall_mem_cons.mp htext |>.imp_right List.forall_mem_cons.mp
      exact hcons h (by decide) fun hread => ih hread hrest
  | case7 nx rest hother hnewline htab ih =>
      obtain ⟨-, hrest⟩ := List.forall_mem_cons.mp htext
      exact hcons h (by decide) fun hread => ih hread hrest
  | case8 nx rest hslash => exact Option.some.inj h ▸ hnil
  | case9 ch nx rest hslash hquote ih =>
      obtain ⟨hch, hrest⟩ := List.forall_mem_cons.mp htext
      exact hcons h hch fun hread => ih hread hrest

theorem isAscii_of_jsonGetStr {text key out : List UInt8} (h : jsonGetStr text key = some out)
    (htext : IsAscii text) : IsAscii out := by
  unfold jsonGetStr at h
  obtain ⟨i, -, h⟩ := Option.bind_eq_some_iff.mp h
  have hdrop : IsAscii (text.drop i) := fun b hb => htext b (List.mem_of_mem_drop hb)
  cases hrest : text.drop i with
  | nil =>
      rw [hrest] at h
      cases h
  | cons ch rest =>
      rw [hrest] at h hdrop
      dsimp only at h
      split_ifs at h
      exact isAscii_of_readStr h (List.forall_mem_cons.mp hdrop).2

theorem isAscii_of_parseTick {line : List UInt8} {out t : Tick Double}
    (h : parseTick line out = (true, t)) (hline : IsAscii line) : IsAscii t.symbol := by
  unfold parseTick at h
  cases hsymbol : jsonGetStr line (ascii "symbol") with
  | none => simp [hsymbol] at h
  | some symbol =>
      have hascii := isAscii_of_jsonGetStr hsymbol hline
      simp only [hsymbol] at h
      split at h
      · cases h
      · split at h
        · cases h
        · obtain ⟨-, rfl⟩ := Prod.mk.inj h
          exact hascii

/-! ### One round of the bridge -/

/-- A strategy that names instruments as the ticks do. -/
def Strategy.KeepsAscii (strategy : Strategy Double σ) : Prop :=
  ∀ s t ord, IsAscii t.symbol → (strategy.onTick s t).2 = some ord →
    IsAscii ord.symbol ∧ IsAscii ord.kind

theorem ExampleStrategy.keepsAscii [StrategyFloat Double] :
    (ExampleStrategy.strategy : Strategy Double (ExampleStrategy Double)).KeepsAscii := by
  intro s t ord hsymbol hdecision
  have hmarket : IsAscii (ascii "market") := by decide
  change (s.onTick t).2 = some ord at hdecision
  unfold onTick at hdecision
  dsimp only at hdecision
  split_ifs at hdecision
  · exact Option.some.inj hdecision ▸ ⟨hsymbol, hmarket⟩
  · exact Option.some.inj hdecision ▸ ⟨hsymbol, hmarket⟩

theorem isPlainText_encodeOrder (hfloat : FloatText.Lawful Double) {o : Order Double}
    (hsymbol : IsAscii o.symbol) (hkind : IsAscii o.kind) : IsPlainText (encodeOrder o) := by
  have hside : IsAscii [sideByte o] :=
    sideByte_induction (p := fun b => IsAscii [b]) (by decide) (by decide) o
  have hid : IsAscii (numeral o.id.toNat) := by
    rw [← signedNumeral_natCast]
    exact (isPlain_signedNumeral _).1
  have hnumber (v : Double) : IsAscii (fmtDouble v) := (isPlain_of_token (hfloat.token v)).1
  have hascii : IsAscii (encodeOrder o) := by
    unfold encodeOrder
    simp only [isAscii_append]
    exact ⟨⟨⟨⟨⟨⟨⟨⟨⟨⟨⟨⟨⟨⟨⟨⟨by decide, (isPlain_signedNumeral _).1⟩, by decide⟩, hid⟩, by decide⟩,
      (isPlain_esc hsymbol).1⟩, by decide⟩, by decide⟩, hside⟩, by decide⟩, by decide⟩, hnumber _⟩,
      by decide⟩, hnumber _⟩, by decide⟩, (isPlain_esc hkind).1⟩, by decide⟩
  rw [encodeOrder_eq_line, line_newline] at hascii ⊢
  exact ⟨_, rfl, (isAscii_append.mp hascii).1, newline_not_mem_line hfloat (isKey_orderFields o)⟩

/-- What a round does to the counters, and what it sends. -/
structure Bridge.Round (b b' : Bridge σ) (line : List UInt8) (order : Option (Order Double)) :
    Prop where
  acks : b'.st.acks = b.st.acks + if kindOf line = .ack then 1 else 0
  ticks : b'.st.ticks ≤ b.st.ticks + if kindOf line = .tick then 1 else 0
  balance : b.st.ticks = b.st.orders + b.st.nops → b'.st.ticks = b'.st.orders + b'.st.nops
  orders : b'.st.orders = b.st.orders + order.toList.length
  nextId : b'.nextId = b.nextId + UInt64.ofNat order.toList.length
  id : ∀ o ∈ order, o.id = b.nextId
  sent : ∀ o ∈ order, b'.outbox = some (encodeOrder o)
  other : order = none → ∀ text ∈ b'.outbox, isOrder text = false
  plain : ∀ text ∈ b'.outbox, IsPlainText text

/-- A round that counts nothing. -/
theorem Bridge.Round.of_quiet {b b' : Bridge σ} {line : List UInt8} (hst : b'.st = b.st)
    (hnextId : b'.nextId = b.nextId) (hkind : kindOf line ≠ .ack)
    (houtbox : ∀ text ∈ b'.outbox, isOrder text = false ∧ IsPlainText text) :
    Bridge.Round b b' line (none : Option (Order Double)) :=
  { acks := by rw [hst, if_neg hkind]; rfl
    ticks := hst ▸ Nat.le_add_right _ _
    balance := fun h => by rw [hst, h]
    orders := hst ▸ rfl
    nextId := hnextId.trans (UInt64.add_zero _).symm
    id := fun o ho => by cases ho
    sent := fun o ho => by cases ho
    other := fun _ text htext => (houtbox text htext).1
    plain := fun text htext => (houtbox text htext).2 }

theorem Bridge.round_onLine (hfloat : FloatText.Lawful Double) {strategy : Strategy Double σ}
    (hstrategy : strategy.KeepsAscii) {b : Bridge σ} (houtbox : b.outbox = none)
    {line : List UInt8} (hline : IsAscii line) :
    Bridge.Round b (b.onLine strategy line) line (b.orderFor strategy.onTick line) := by
  have hsilent : ∀ text ∈ b.outbox, isOrder text = false ∧ IsPlainText text := by
    rw [houtbox]
    exact fun text htext => by cases htext
  unfold onLine onLineWith orderFor
  cases hkind : kindOf line with
  | tick =>
      rw [if_pos rfl]
      rcases hparse : parseTick line ({} : Tick Double) with ⟨_ | _, t⟩
      · exact .of_quiet rfl rfl (by rw [hkind]; decide) hsilent
      · rcases hdecision : strategy.onTick b.strat t with ⟨s, _ | ord⟩
        · simp only [hdecision, Option.map_none]
          exact
            { acks := by rw [if_neg (by rw [hkind]; decide)]; rfl
              ticks := by rw [if_pos hkind]
              balance := fun h => by dsimp only; omega
              orders := rfl
              nextId := (UInt64.add_zero _).symm
              id := fun o ho => by cases ho
              sent := fun o ho => by cases ho
              other := fun _ text htext => by
                obtain rfl := Option.some.inj htext
                exact isOrder_encodeNop
              plain := fun text htext => by
                obtain rfl := Option.some.inj htext
                exact ⟨ascii "\x7b\"t\":\"nop\",\"v\":1\x7d", rfl, by decide⟩ }
        · have hascii := hstrategy b.strat t ord (isAscii_of_parseTick hparse hline)
            (by rw [hdecision])
          simp only [hdecision, Option.map_some]
          exact
            { acks := by rw [if_neg (by rw [hkind]; decide)]; rfl
              ticks := by rw [if_pos hkind]
              balance := fun h => by dsimp only; omega
              orders := rfl
              nextId := rfl
              id := fun o ho => by
                obtain rfl := Option.some.inj ho
                rfl
              sent := fun o ho => by
                obtain rfl := Option.some.inj ho
                rfl
              other := fun hnone => by cases hnone
              plain := fun text htext => by
                obtain rfl := Option.some.inj htext
                exact isPlainText_encodeOrder hfloat hascii.1 hascii.2 }
  | ack =>
      exact
        { acks := by rw [if_pos hkind]
          ticks := Nat.le_add_right _ _
          balance := id
          orders := rfl
          nextId := (UInt64.add_zero _).symm
          id := fun o ho => by cases ho
          sent := fun o ho => by cases ho
          other := fun _ text htext => (hsilent text htext).1
          plain := fun text htext => (hsilent text htext).2 }
  | hello =>
      refine .of_quiet rfl rfl (by rw [hkind]; decide) fun text htext => ?_
      obtain rfl := Option.some.inj htext
      exact ⟨isOrder_encodeHelloReply,
        ascii "\x7b\"t\":\"hello\",\"v\":1,\"server\":\"mt5d\",\"ok\":true\x7d", by decide,
        by decide⟩
  | _ => exact .of_quiet rfl rfl (by rw [hkind]; decide) hsilent

/-! ### One connection -/

namespace Link

/-- The lines the bridge was given. -/
def heard (l : Link Double σ) : List (List UInt8) := l.up.taken ++ l.flushed.toList

/-- The bridge was given the rest of a broken stream, the beginning of the next text. -/
def Flushed (l : Link Double σ) (part : List UInt8) : Prop :=
  l.up.isOpen = false ∧ l.up.flight = [] ∧ l.up.buf = [] ∧
    ∃ text later, l.up.sent = l.up.taken.map (· ++ [0x0A]) ++ text :: later ∧ part <+: text

structure Inv (terminal : Terminal Double) (l : Link Double σ) : Prop where
  up : l.up.Inv
  down : l.down.Inv
  utters : ∀ text ∈ l.up.sent, ∃ k, Utters k text
  replies : ∀ text ∈ l.down.sent, IsPlainText text
  outbox : l.bridge.outbox = none
  flushed : ∀ part ∈ l.flushed, l.Flushed part
  acks : l.bridge.st.acks = l.heard.countP (kindOf · = .ack)
  ticks : l.bridge.st.ticks ≤ l.heard.countP (kindOf · = .tick)
  balance : l.bridge.st.ticks = l.bridge.st.orders + l.bridge.st.nops
  orders : l.bridge.st.orders = l.orders.length
  nextId : l.bridge.nextId = UInt64.ofNat (l.orders.length + 1)
  ids : ∀ i o, l.orders[i]? = some o → o.id = UInt64.ofNat (i + 1)
  replied : l.down.sent.filter isOrder <+: l.orders.map encodeOrder
  repliedAll : l.down.isOpen = true → l.down.sent.filter isOrder = l.orders.map encodeOrder
  executed : l.executions.map Execution.line = l.down.taken.filter isOrder
  executions : ∀ e ∈ l.executions, ∃ price result, e = executeOrder terminal price result e.line
  acked : l.up.sent.filter (kindOf · = .ack) <+: l.executions.map ackLine
  ackedAll : l.up.isOpen = true →
    l.up.sent.filter (kindOf · = .ack) = l.executions.map ackLine

namespace Inv

variable {terminal : Terminal Double} {l : Link Double σ}

theorem start (terminal : Terminal Double) (strat : σ) :
    ({ bridge := { strat } } : Link Double σ).Inv terminal :=
  { up := inv_empty
    down := inv_empty
    utters := fun text htext => absurd htext List.not_mem_nil
    replies := fun text htext => absurd htext List.not_mem_nil
    outbox := rfl
    flushed := fun part hpart => by cases hpart
    acks := rfl
    ticks := le_rfl
    balance := rfl
    orders := rfl
    nextId := rfl
    ids := fun i o ho => by cases ho
    replied := List.prefix_rfl
    repliedAll := fun _ => rfl
    executed := rfl
    executions := fun e he => absurd he List.not_mem_nil
    acked := List.prefix_rfl
    ackedAll := fun _ => rfl }

/-! #### What the advisor sends -/

theorem flushed_send (h : l.Inv terminal) (text : List UInt8) (n : Nat) :
    ∀ part ∈ l.flushed, ({ l with up := l.up.send text n } : Link Double σ).Flushed part := by
  intro part hpart
  have hflushed := h.flushed part hpart
  unfold Flushed at hflushed ⊢
  dsimp only
  rwa [send_closed hflushed.1]

/-- The advisor sends anything but an ack. -/
theorem say (h : l.Inv terminal) {k : MsgKind} {text : List UInt8} (hutters : Utters k text)
    (hk : k ≠ .ack) (n : Nat) : ({ l with up := l.up.send text n } : Link Double σ).Inv terminal := by
  have hheard : ({ l with up := l.up.send text n } : Link Double σ).heard = l.heard := by
    unfold heard
    dsimp only
    rw [send_taken]
  have hfilter : (l.up.send text n).sent.filter (kindOf · = .ack) =
      l.up.sent.filter (kindOf · = .ack) := by
    cases hopen : l.up.isOpen with
    | false => rw [send_closed hopen]
    | true =>
        rw [send_sent hopen, List.filter_append, List.filter_singleton, hutters.kindOf_text,
          decide_eq_false hk]
        exact List.append_nil _
  refine { h with
    up := h.up.send hutters.isPlainText.isText n
    utters := fun t ht => ?_
    flushed := h.flushed_send text n
    acks := by rw [hheard]; exact h.acks
    ticks := by rw [hheard]; exact h.ticks
    acked := by dsimp only; rw [hfilter]; exact h.acked
    ackedAll := fun hopen => by
      dsimp only
      rw [hfilter]
      exact h.ackedAll (isOpen_of_send hopen) }
  rcases mem_send ht with ht | rfl
  · exact h.utters t ht
  · exact ⟨k, hutters⟩

/-- The advisor executes an order and sends the ack. -/
theorem ack (h : l.Inv terminal) {e : Execution Double} {down : LineStream} (hdown : down.Inv)
    (htaken : down.taken = l.down.taken ++ [e.line]) (hsent : down.sent = l.down.sent)
    (hopen : down.isOpen = l.down.isOpen) (horder : isOrder e.line = true)
    (he : ∃ price result, e = executeOrder terminal price result e.line) (n : Nat) :
    ({ l with
      down := down
      up := l.up.send (ackLine e) n
      executions := l.executions ++ [e] } : Link Double σ).Inv terminal := by
  have hheard : ({ l with
      down := down
      up := l.up.send (ackLine e) n
      executions := l.executions ++ [e] } : Link Double σ).heard = l.heard := by
    unfold heard
    dsimp only
    rw [send_taken]
  have hutters := utters_ackLine e
  refine { h with
    up := h.up.send hutters.isPlainText.isText n
    down := hdown
    utters := fun t ht => ?_
    replies := fun text htext => h.replies text (hsent ▸ htext)
    flushed := h.flushed_send (ackLine e) n
    acks := by rw [hheard]; exact h.acks
    ticks := by rw [hheard]; exact h.ticks
    replied := by dsimp only; rw [hsent]; exact h.replied
    repliedAll := fun hdownOpen => by
      dsimp only
      rw [hsent]
      exact h.repliedAll (hopen ▸ hdownOpen)
    executed := ?_
    executions := fun e' he' => ?_
    acked := ?_
    ackedAll := fun hup => ?_ }
  · rcases mem_send ht with ht | rfl
    · exact h.utters t ht
    · exact ⟨_, hutters⟩
  · dsimp only
    rw [htaken, List.filter_append, List.filter_singleton, horder, List.map_append, h.executed]
    rfl
  · rcases List.mem_append.mp he' with he' | he'
    · exact h.executions e' he'
    · exact List.mem_singleton.mp he' ▸ he
  · dsimp only
    rw [List.map_append]
    cases hup : l.up.isOpen with
    | false =>
        rw [send_closed hup]
        exact h.acked.trans (List.prefix_append _ _)
    | true =>
        rw [send_sent hup, List.filter_append, h.ackedAll hup, List.filter_singleton,
          hutters.kindOf_text]
        exact List.prefix_rfl
  · have hup := isOpen_of_send hup
    dsimp only
    rw [send_sent hup, List.filter_append, h.ackedAll hup, List.filter_singleton,
      hutters.kindOf_text, List.map_append]
    rfl

/-- The advisor takes a line that is no order. -/
theorem skip (h : l.Inv terminal) {line : List UInt8} {down : LineStream} (hdown : down.Inv)
    (htaken : down.taken = l.down.taken ++ [line]) (hsent : down.sent = l.down.sent)
    (hopen : down.isOpen = l.down.isOpen) (horder : isOrder line = false) :
    ({ l with down := down } : Link Double σ).Inv terminal := by
  refine { h with
    down := hdown
    replies := fun text htext => h.replies text (hsent ▸ htext)
    replied := by dsimp only; rw [hsent]; exact h.replied
    repliedAll := fun hdownOpen => by
      dsimp only
      rw [hsent]
      exact h.repliedAll (hopen ▸ hdownOpen)
    executed := ?_ }
  dsimp only
  rw [htaken, List.filter_append, List.filter_singleton, horder, h.executed]
  exact (List.append_nil _).symm

theorem isAscii_flight (h : l.Inv terminal) : IsAscii l.down.flight := by
  intro b hb
  obtain ⟨text, htext, hb⟩ := h.down.mem_flight hb
  exact (h.replies text htext).isAscii b hb

/-- Pieces of what the bridge has sent arrive and are decoded as they are. -/
theorem arrive (h : l.Inv terminal) (hterminal : terminal.Lawful) {chunks : List (List UInt8)}
    (hflight : chunks.flatten <+: l.down.flight) :
    ({ l with down := l.down.carry terminal.charArrayToString chunks } : Link Double σ).Inv
      terminal := by
  refine { h with down := h.down.carry hflight fun chunk hchunk => hterminal.decoded chunk ?_ }
  intro b hb
  exact h.isAscii_flight b (hflight.subset (List.mem_flatten.mpr ⟨chunk, hchunk, hb⟩))

/-! #### What the bridge does -/

theorem finish (h : l.Inv terminal) : l.finish.Inv terminal :=
  { h with
    down := h.down.close
    repliedAll := fun hopen => by cases hopen }

/-- The orders among the replies are those of the strategy, as far as the stream is whole. -/
theorem replied_round (h : l.Inv terminal) {b : Bridge σ} {line : List UInt8}
    {order : Option (Order Double)} (hround : Bridge.Round l.bridge b line order) {down : LineStream}
    {n : Nat}
    (hdown : down = match b.outbox with
      | some text => l.down.send text n
      | none => l.down) :
    down.sent.filter isOrder <+: (l.orders ++ order.toList).map encodeOrder ∧
      (down.isOpen = true →
        down.sent.filter isOrder = (l.orders ++ order.toList).map encodeOrder) := by
  cases order with
  | some o =>
      rw [hround.sent o rfl] at hdown
      dsimp only at hdown
      subst hdown
      cases hopen : l.down.isOpen with
      | false =>
          rw [send_closed hopen, List.map_append]
          exact ⟨h.replied.trans (List.prefix_append _ _),
            fun hopen' => absurd (hopen'.symm.trans hopen) (by simp)⟩
      | true =>
          have hfilter : (l.down.send (encodeOrder o) n).sent.filter isOrder =
              (l.orders ++ [o]).map encodeOrder := by
            rw [send_sent hopen, List.filter_append, h.repliedAll hopen, List.filter_singleton,
              isOrder_encodeOrder, List.map_append]
            rfl
          exact ⟨hfilter ▸ List.prefix_rfl, fun _ => hfilter⟩
  | none =>
      rw [Option.toList_none, List.append_nil]
      cases houtbox : b.outbox with
      | none =>
          rw [houtbox] at hdown
          dsimp only at hdown
          subst hdown
          exact ⟨h.replied, h.repliedAll⟩
      | some text =>
          rw [houtbox] at hdown
          dsimp only at hdown
          subst hdown
          have hfilter : (l.down.send text n).sent.filter isOrder = l.down.sent.filter isOrder := by
            cases hopen : l.down.isOpen with
            | false => rw [send_closed hopen]
            | true =>
                rw [send_sent hopen, List.filter_append, List.filter_singleton,
                  hround.other rfl text houtbox]
                exact List.append_nil _
          rw [hfilter]
          exact ⟨h.replied, fun hopen => h.repliedAll (isOpen_of_send hopen)⟩

theorem ids_round (h : l.Inv terminal) {b : Bridge σ} {line : List UInt8}
    {order : Option (Order Double)} (hround : Bridge.Round l.bridge b line order) {i : Nat}
    {o : Order Double} (ho : (l.orders ++ order.toList)[i]? = some o) :
    o.id = UInt64.ofNat (i + 1) := by
  rcases lt_or_ge i l.orders.length with hlt | hge
  · rw [List.getElem?_append_left hlt] at ho
    exact h.ids i o ho
  · rw [List.getElem?_append_right hge] at ho
    cases order with
    | none => cases ho
    | some o' =>
        rw [Option.toList_some, List.getElem?_singleton] at ho
        split_ifs at ho with hi
        obtain rfl := Option.some.inj ho
        rw [hround.id o' rfl, h.nextId, Nat.le_antisymm (Nat.sub_eq_zero_iff_le.mp hi) hge]

theorem serve (hfloat : FloatText.Lawful Double) {strategy : Strategy Double σ}
    (hstrategy : strategy.KeepsAscii) (h : l.Inv terminal) {up : LineStream}
    {flushed : Option (List UInt8)} {line : List UInt8} (hup : up.Inv)
    (hsent : up.sent = l.up.sent) (hopen : up.isOpen = l.up.isOpen)
    (hflushed : ∀ part ∈ flushed,
      ({ l with up := up, flushed := flushed } : Link Double σ).Flushed part)
    (hheard : up.taken ++ flushed.toList = l.heard ++ [line]) (hline : IsAscii line) (n : Nat) :
    (({ l with up := up, flushed := flushed } : Link Double σ).serve strategy line n).Inv
      terminal := by
  have hround := Bridge.round_onLine hfloat hstrategy h.outbox hline
  have hcount (k : MsgKind) : (up.taken ++ flushed.toList).countP (kindOf · = k) =
      l.heard.countP (kindOf · = k) + if kindOf line = k then 1 else 0 := by
    rw [hheard, List.countP_append, List.countP_singleton]
    simp only [decide_eq_true_eq]
  have hreply := h.replied_round hround (n := n) rfl
  have hserved : ({ l with
      up := up
      flushed := flushed
      down := match (l.bridge.onLine strategy line).outbox with
        | some text => l.down.send text n
        | none => l.down
      bridge := { l.bridge.onLine strategy line with outbox := none }
      idle := 0
      orders := l.orders ++ (l.bridge.orderFor strategy.onTick line).toList } :
        Link Double σ).Inv terminal := by
    refine
      { up := hup
        down := ?_
        utters := hsent ▸ h.utters
        replies := fun text htext => ?_
        outbox := rfl
        flushed := hflushed
        acks := ?_
        ticks := ?_
        balance := hround.balance h.balance
        orders := ?_
        nextId := ?_
        ids := fun i o ho => h.ids_round hround ho
        replied := hreply.1
        repliedAll := hreply.2
        executed := ?_
        executions := h.executions
        acked := hsent ▸ h.acked
        ackedAll := fun hopen' => hsent ▸ h.ackedAll (hopen ▸ hopen') }
    · cases houtbox : (l.bridge.onLine strategy line).outbox with
      | none => exact h.down
      | some text => exact h.down.send (hround.plain text houtbox).isText n
    · cases houtbox : (l.bridge.onLine strategy line).outbox with
      | none =>
          simp only [houtbox] at htext
          exact h.replies text htext
      | some reply =>
          simp only [houtbox] at htext
          rcases mem_send htext with htext | rfl
          · exact h.replies text htext
          · exact hround.plain text houtbox
    · exact hround.acks.trans (by rw [h.acks]; exact (hcount .ack).symm)
    · exact hround.ticks.trans (by
        refine le_of_le_of_eq (Nat.add_le_add_right h.ticks _) (hcount .tick).symm)
    · dsimp only
      rw [hround.orders, h.orders, List.length_append]
    · dsimp only
      rw [hround.nextId, h.nextId, List.length_append, ← UInt64.ofNat_add, Nat.add_right_comm]
    · dsimp only
      rw [h.executed]
      cases (l.bridge.onLine strategy line).outbox with
      | none => rfl
      | some text => rw [send_taken]
  unfold Link.serve
  dsimp only
  split_ifs
  · exact hserved.finish
  · exact hserved

/-- A stream that has been given up on brings nothing more. -/
theorem flushed_carry (h : l.Inv terminal) {chunk : List UInt8} (hchunk : chunk <+: l.up.flight) :
    ∀ part ∈ l.flushed, ({ l with up := l.up.carry id [chunk] } : Link Double σ).Flushed part := by
  intro part hpart
  obtain ⟨hclosed, hflight, hbuf, hnext⟩ := h.flushed part hpart
  rw [hflight] at hchunk
  obtain rfl := List.prefix_nil.mp hchunk
  refine ⟨hclosed, ?_, ?_, hnext⟩
  · dsimp only [LineStream.carry]
    rw [hflight]
    rfl
  · dsimp only [LineStream.carry]
    rw [hbuf]
    rfl

theorem isAscii_of_mem_sent (h : l.Inv terminal) {text : List UInt8} (htext : text ∈ l.up.sent) :
    IsAscii text := by
  obtain ⟨k, hutters⟩ := h.utters text htext
  exact hutters.isPlainText.isAscii

theorem serverStep (hfloat : FloatText.Lawful Double) {strategy : Strategy Double σ}
    (hstrategy : strategy.KeepsAscii) {maxIdleIntervals : Int} {l' : Link Double σ}
    (h : l.Inv terminal) (hstep : l.ServerStep strategy maxIdleIntervals l') :
    l'.Inv terminal ∧ l'.up.sent = l.up.sent ∧ l'.executions = l.executions := by
  have hserve (l₁ : Link Double σ) (line : List UInt8) (n : Nat) :
      (l₁.serve strategy line n).up.sent = l₁.up.sent ∧
        (l₁.serve strategy line n).executions = l₁.executions := by
    unfold Link.serve
    dsimp only
    split_ifs <;> exact ⟨rfl, rfl⟩
  cases hstep with
  | @recv chunk hnone hflight =>
      have hup : (l.up.carry id [chunk]).Inv :=
        h.up.carry (by rwa [List.flatten_singleton]) fun _ _ => rfl
      exact ⟨{ h with up := hup, flushed := h.flushed_carry hflight }, rfl, rfl⟩
  | @line line up hreceive n =>
      obtain ⟨hup, htaken, hsent, hopen⟩ := h.up.receive hreceive
      have hnone : l.flushed = none := by
        cases hflushed : l.flushed with
        | none => rfl
        | some part =>
            obtain ⟨-, -, hbuf, -⟩ := h.flushed part hflushed
            rw [LineStream.receive, hbuf] at hreceive
            cases hreceive
      have hmem : line ++ [0x0A] ∈ l.up.sent := by
        rw [← hsent]
        refine hup.taken_prefix.subset ?_
        rw [htaken]
        simp
      have hascii := (isAscii_append.mp (h.isAscii_of_mem_sent hmem)).1
      have hheard : up.taken ++ l.flushed.toList = l.heard ++ [line] := by
        unfold heard
        rw [htaken, hnone]
        simp
      obtain ⟨hsent', hexecutions⟩ := hserve { l with up := up } line n
      refine ⟨h.serve hfloat hstrategy hup hsent hopen (fun part hpart => ?_) hheard hascii n,
        hsent'.trans hsent, hexecutions⟩
      rw [hnone] at hpart
      cases hpart
  | timeout hnone =>
      split_ifs
      · exact ⟨{ h with }, rfl, rfl⟩
      · exact ⟨h.finish, rfl, rfl⟩
  | closed hnone hflight hclosed n =>
      split_ifs with hbuf
      · exact ⟨h.finish, rfl, rfl⟩
      · have hflushed : l.flushed = none := by
          cases hflushed : l.flushed with
          | none => rfl
          | some part => exact absurd (h.flushed part hflushed).2.2.1 hbuf
        have hnewline : (0x0A : UInt8) ∉ l.up.buf :=
          LineProcesses.takeLine_eq_none (Option.map_eq_none_iff.mp hnone)
        obtain ⟨text, later, hsent, hpart⟩ := h.up.unfinished hflight hbuf hnewline
        have hmem : text ∈ l.up.sent := by
          rw [hsent]
          simp
        obtain ⟨hsent', hexecutions⟩ := hserve { l with
          up := { l.up with buf := [] }
          flushed := some l.up.buf } l.up.buf n
        refine ⟨h.serve hfloat hstrategy (h.up.dropRest hclosed hflight) rfl rfl
          (fun part hmemPart => ?_) ?_ (fun b hb => h.isAscii_of_mem_sent hmem b (hpart.subset hb)) n,
          hsent', hexecutions⟩
        · obtain rfl := Option.some.inj hmemPart
          exact ⟨hclosed, hflight, rfl, text, later, hsent, hpart⟩
        · unfold heard
          rw [hflushed]
          simp

/-! #### What the network does -/

theorem closeUp (h : l.Inv terminal) : ({ l with up := l.up.close } : Link Double σ).Inv terminal :=
  { h with
    up := h.up.close
    flushed := fun part hpart => ⟨rfl, (h.flushed part hpart).2⟩
    ackedAll := fun hopen => by cases hopen }

theorem closeDown (h : l.Inv terminal) :
    ({ l with down := l.down.close } : Link Double σ).Inv terminal :=
  { h with
    down := h.down.close
    repliedAll := fun hopen => by cases hopen }

theorem loseUp (h : l.Inv terminal) (hclosed : l.up.isOpen = false) (n : Nat) :
    ({ l with up := l.up.lose n } : Link Double σ).Inv terminal := by
  refine { h with up := h.up.lose hclosed n, flushed := fun part hpart => ?_ }
  obtain ⟨_, hflight, hbuf, hnext⟩ := h.flushed part hpart
  refine ⟨hclosed, ?_, hbuf, hnext⟩
  dsimp only [LineStream.lose]
  rw [hflight, List.take_nil]

theorem loseDown (h : l.Inv terminal) (hclosed : l.down.isOpen = false) (n : Nat) :
    ({ l with down := l.down.lose n } : Link Double σ).Inv terminal :=
  { h with down := h.down.lose hclosed n }

end Inv

/-- How many ticks the advisor has sent over the connection. -/
def ticksSent (l : Link Double σ) : Nat := l.up.sent.countP (kindOf · = .tick)

theorem countP_send {k : MsgKind} {text : List UInt8} (hutters : Utters k text) (up : LineStream)
    (n : Nat) :
    (up.send text n).sent.countP (kindOf · = .tick) ≤
      up.sent.countP (kindOf · = .tick) + if k = .tick then 1 else 0 := by
  cases hopen : up.isOpen with
  | false =>
      rw [send_closed hopen]
      exact Nat.le_add_right _ _
  | true =>
      rw [send_sent hopen, List.countP_append, List.countP_singleton, hutters.kindOf_text]
      simp only [decide_eq_true_eq]
      exact le_rfl

end Link

/-! ### The advisor and all its connections -/

namespace Live

structure Inv (terminal : Terminal Double) (s : Live Double σ) : Prop where
  links : ∀ l ∈ s.links, l.Inv terminal
  executed : s.advisor.orders = (s.links.map fun l => l.executions.length).sum
  answered : s.advisor.orders = s.advisor.acksOk + s.advisor.acksRej
  ticks : (s.links.map Link.ticksSent).sum ≤ s.advisor.ticks

namespace Inv

variable {terminal : Terminal Double} {s : Live Double σ}

/-- A step on one connection, with what it adds on both sides of the accounts. -/
theorem update (h : s.Inv terminal) {newer older : List (Link Double σ)} {l l' : Link Double σ}
    (hlinks : s.links = newer ++ l :: older) (hl' : l'.Inv terminal) {a : Advisor}
    (hexecuted : a.orders + l.executions.length = s.advisor.orders + l'.executions.length)
    (hanswered : a.orders = a.acksOk + a.acksRej)
    (hticks : l'.ticksSent + s.advisor.ticks ≤ l.ticksSent + a.ticks) :
    ({ advisor := a, links := newer ++ l' :: older } : Live Double σ).Inv terminal := by
  have hexecuted' := h.executed
  have hticks' := h.ticks
  rw [hlinks, List.map_append, List.map_cons, List.sum_append, List.sum_cons]
    at hexecuted' hticks'
  refine ⟨fun m hm => ?_, ?_, hanswered, ?_⟩
  · rcases List.mem_append.mp hm with hm | hm
    · exact h.links m (hlinks ▸ List.mem_append_left _ hm)
    · rcases List.mem_cons.mp hm with rfl | hm
      · exact hl'
      · exact h.links m (hlinks ▸ List.mem_append_right _ (List.mem_cons_of_mem _ hm))
  · dsimp only
    rw [List.map_append, List.map_cons, List.sum_append, List.sum_cons]
    omega
  · dsimp only
    rw [List.map_append, List.map_cons, List.sum_append, List.sum_cons]
    omega

/-- A step of the advisor, which has to do with the newest connection. -/
theorem updateNewest (h : s.Inv terminal) {older : List (Link Double σ)} {l l' : Link Double σ}
    (hlinks : s.links = l :: older) (hl' : l'.Inv terminal) {a : Advisor}
    (hexecuted : a.orders + l.executions.length = s.advisor.orders + l'.executions.length)
    (hanswered : a.orders = a.acksOk + a.acksRej)
    (hticks : l'.ticksSent + s.advisor.ticks ≤ l.ticksSent + a.ticks) :
    ({ advisor := a, links := l' :: older } : Live Double σ).Inv terminal :=
  h.update (show s.links = [] ++ l :: older from hlinks) hl' hexecuted hanswered hticks

/-- The advisor sends a line that is no ack. -/
theorem say (h : s.Inv terminal) {l : Link Double σ} {older : List (Link Double σ)}
    (hlinks : s.links = l :: older) {k : MsgKind} {text : List UInt8} (hutters : Utters k text)
    (hk : k ≠ .ack) (n : Nat) {a : Advisor} (horders : a.orders = s.advisor.orders)
    (hok : a.acksOk = s.advisor.acksOk) (hrej : a.acksRej = s.advisor.acksRej)
    (hticks : s.advisor.ticks + (if k = .tick then 1 else 0) ≤ a.ticks) :
    ({ advisor := a, links := { l with up := l.up.send text n } :: older } :
      Live Double σ).Inv terminal := by
  have hl := h.links l (hlinks ▸ List.mem_cons_self)
  refine h.updateNewest hlinks (hl.say hutters hk n) (by rw [horders]) ?_ ?_
  · rw [horders, hok, hrej]
    exact h.answered
  · have hcount := Link.countP_send hutters l.up n
    unfold Link.ticksSent
    dsimp only
    omega

theorem hangUp (h : s.Inv terminal) :
    (∀ l ∈ s.hangUp, l.Inv terminal) ∧
      (s.hangUp.map fun l => l.executions.length).sum = s.advisor.orders ∧
      (s.hangUp.map Link.ticksSent).sum ≤ s.advisor.ticks := by
  have hlinks := h.links
  have hexecuted := h.executed
  have hticks := h.ticks
  unfold Live.hangUp
  cases hs : s.links with
  | nil =>
      rw [hs] at hexecuted
      exact ⟨fun l hl => absurd hl List.not_mem_nil, hexecuted.symm, Nat.zero_le _⟩
  | cons l older =>
      rw [hs] at hlinks hexecuted hticks
      obtain ⟨hl, holder⟩ := List.forall_mem_cons.mp hlinks
      dsimp only
      split_ifs
      · exact ⟨List.forall_mem_cons.mpr ⟨hl.closeUp, holder⟩, hexecuted.symm, hticks⟩
      · exact ⟨hlinks, hexecuted.symm, hticks⟩

theorem handle (h : s.Inv terminal) (hterminal : terminal.Lawful) {l : Link Double σ}
    {older : List (Link Double σ)} (hlinks : s.links = l :: older)
    {chunks : List (List UInt8)} (hflight : chunks.flatten <+: l.down.flight)
    {line : List UInt8} {down : LineStream}
    (hreceive : (l.down.carry terminal.charArrayToString chunks).receive = some (line, down))
    (onTick : Bool) (price : EnumOrderType → Double) (result : TradeResult) (n : Nat) :
    ({ advisor := (Live.handle terminal onTick price result n line s.advisor { l with down }).1
       links := (Live.handle terminal onTick price result n line s.advisor { l with down }).2 ::
         older } : Live Double σ).Inv terminal := by
  have harrived := (h.links l (hlinks ▸ List.mem_cons_self)).arrive hterminal hflight
  obtain ⟨hdown, htaken, hsent, hopen⟩ := harrived.down.receive hreceive
  have hanswered := h.answered
  unfold Live.handle
  split_ifs with horder hnop
  · have hl' := harrived.ack hdown htaken hsent hopen (e := executeOrder terminal price result line)
      horder ⟨price, result, rfl⟩ n
    refine h.updateNewest hlinks hl' ?_ ?_ ?_
    · dsimp only
      rw [List.length_append, List.length_singleton]
      omega
    · dsimp only
      split_ifs <;> omega
    · have hcount := Link.countP_send (utters_ackLine (executeOrder terminal price result line))
        l.up n
      unfold Link.ticksSent
      dsimp only
      rw [if_neg (by decide)] at hcount
      omega
  · exact h.updateNewest hlinks
      (harrived.skip hdown htaken hsent hopen (by simpa using horder)) rfl hanswered le_rfl
  · exact h.updateNewest hlinks
      (harrived.skip hdown htaken hsent hopen (by simpa using horder)) rfl hanswered le_rfl

/-- A step that only has to do with a connection. -/
theorem updateLink (h : s.Inv terminal) {newer older : List (Link Double σ)}
    {l l' : Link Double σ} (hlinks : s.links = newer ++ l :: older) (hl' : l'.Inv terminal)
    (hsent : l'.up.sent = l.up.sent) (hexecutions : l'.executions = l.executions) :
    ({ s with links := newer ++ l' :: older } : Live Double σ).Inv terminal := by
  refine h.update hlinks hl' (by rw [hexecutions]) h.answered ?_
  unfold Link.ticksSent
  rw [hsent]

theorem step (hfloat : FloatText.Lawful Double) (hterminal : terminal.Lawful)
    {strategy : Strategy Double σ} (hstrategy : strategy.KeepsAscii) {strat : σ}
    {maxIdleIntervals : Int} {s' : Live Double σ} (h : s.Inv terminal)
    (hstep : s.Step terminal strategy strat maxIdleIntervals s') : s'.Inv terminal := by
  cases hstep with
  | connect hpc n n' =>
      obtain ⟨hlinks, hexecuted, hticks⟩ := h.hangUp
      have hhello := utters_helloLine terminal
      have hsubscribe := utters_subscribeLine hterminal
      have hfirst := (Link.Inv.start terminal strat).say hhello (by decide) n
      have hfresh := hfirst.say hsubscribe (by decide) n'
      have hnone : ((({} : LineStream).send (helloLine terminal) n).send (subscribeLine terminal)
          n').sent.countP (kindOf · = .tick) = 0 := by
        have hcount := Link.countP_send hsubscribe (({} : LineStream).send (helloLine terminal) n) n'
        have hcount' := Link.countP_send hhello {} n
        rw [if_neg (by decide)] at hcount hcount'
        exact Nat.le_zero.mp (hcount.trans hcount')
      refine ⟨List.forall_mem_cons.mpr ⟨hfresh, hlinks⟩, ?_, h.answered, ?_⟩
      · dsimp only
        rw [List.map_cons, List.sum_cons, hexecuted]
        exact (Nat.zero_add _).symm
      · dsimp only
        rw [List.map_cons, List.sum_cons]
        unfold Link.ticksSent at hticks ⊢
        dsimp only
        rw [hnone, Nat.zero_add]
        exact hticks
  | connectFailed hpc =>
      obtain ⟨hlinks, hexecuted, hticks⟩ := h.hangUp
      exact ⟨hlinks, hexecuted.symm, h.answered, hticks⟩
  | tick hpc hconnected hlinks t n =>
      exact h.say hlinks (utters_encodeTick hterminal t) (by decide) n rfl rfl rfl le_rfl
  | timer hpc hconnected hlinks now n =>
      split_ifs
      · exact h.say hlinks (utters_heartbeatLine now) (by decide) n rfl rfl rfl le_rfl
      · exact { h with }
  | recvNone hpc hlinks hflight hreceive =>
      have hl := h.links _ (hlinks ▸ List.mem_cons_self)
      exact h.updateNewest hlinks (hl.arrive hterminal hflight) rfl h.answered le_rfl
  | recvLine hpc hlinks hflight hreceive price result n =>
      exact h.handle hterminal hlinks hflight hreceive _ price result n
  | @deinit hpc hconnected l older hlinks n =>
      have hl := h.links _ (hlinks ▸ List.mem_cons_self)
      have hbye := (hl.say utters_byeLine (by decide) n).closeUp
      have hcount := Link.countP_send utters_byeLine l.up n
      rw [if_neg (by decide)] at hcount
      exact h.updateNewest hlinks hbye rfl h.answered (Nat.add_le_add_right hcount _)
  | deinitIdle hpc hconnected => exact { h with }
  | server hlinks hturn hrunning hserver =>
      have hl := h.links _ (hlinks ▸ List.mem_append_right _ List.mem_cons_self)
      obtain ⟨hl', hsent, hexecutions⟩ := hl.serverStep hfloat hstrategy hserver
      exact h.updateLink hlinks hl' hsent hexecutions
  | cut hlinks =>
      have hl := h.links _ (hlinks ▸ List.mem_append_right _ List.mem_cons_self)
      exact h.updateLink hlinks hl.closeUp.closeDown rfl rfl
  | loseUp hlinks hclosed n =>
      have hl := h.links _ (hlinks ▸ List.mem_append_right _ List.mem_cons_self)
      exact h.updateLink hlinks (hl.loseUp hclosed n) rfl rfl
  | loseDown hlinks hclosed n =>
      have hl := h.links _ (hlinks ▸ List.mem_append_right _ List.mem_cons_self)
      exact h.updateLink hlinks (hl.loseDown hclosed n) rfl rfl

end Inv

theorem inv_of_reachable {terminal : Terminal Double} (hfloat : FloatText.Lawful Double)
    (hterminal : terminal.Lawful) {strategy : Strategy Double σ}
    (hstrategy : strategy.KeepsAscii) {strat : σ} {maxIdleIntervals : Int} {s : Live Double σ}
    (hreach : Relation.ReflTransGen (Step terminal strategy strat maxIdleIntervals) {} s) :
    s.Inv terminal := by
  induction hreach with
  | refl => exact ⟨fun l hl => absurd hl List.not_mem_nil, rfl, rfl, le_rfl⟩
  | tail _ hstep ih => exact ih.step hfloat hterminal hstrategy hstep

end Live

/-! ### In step -/

namespace Link.Inv

variable {terminal : Terminal Double} {l : Link Double σ}

/-- The orders the advisor has taken are the first ones the bridge has sent. -/
theorem executed_prefix (h : l.Inv terminal) :
    l.executions.map (·.line ++ [0x0A]) <+: l.orders.map encodeOrder := by
  have hlines : l.executions.map (·.line ++ [0x0A]) =
      (l.down.taken.map (· ++ [0x0A])).filter isOrder := by
    have hsame : isOrder ∘ (· ++ [0x0A]) = isOrder := funext isOrder_newline
    rw [List.filter_map, hsame, ← h.executed, List.map_map]
    rfl
  rw [hlines]
  exact (h.down.taken_prefix.filter isOrder).trans h.replied

theorem execution (h : l.Inv terminal) (hfloat : FloatText.Lawful Double)
    (hterminal : terminal.Lawful) {i : Nat} {e : Execution Double}
    (he : l.executions[i]? = some e) :
    ∃ o, l.orders[i]? = some o ∧ e.line ++ [0x0A] = encodeOrder o ∧ o.id = UInt64.ofNat (i + 1) ∧
      (i + 1 < 2 ^ 53 → e.id = i + 1) ∧ (e.request.type = .buy ↔ o.side = Side.buy) := by
  have hline : (l.orders.map encodeOrder)[i]? = some (e.line ++ [0x0A]) := by
    obtain ⟨later, hlater⟩ := h.executed_prefix
    have hlt : i < (l.executions.map (·.line ++ [0x0A])).length := by
      rw [List.length_map]
      exact (List.getElem?_eq_some_iff.mp he).1
    rw [← hlater, List.getElem?_append_left hlt, List.getElem?_map, he]
    rfl
  rw [List.getElem?_map] at hline
  obtain ⟨o, ho, horder⟩ := Option.map_eq_some_iff.mp hline
  obtain ⟨price, result, hexecution⟩ := h.executions e (List.mem_of_getElem? he)
  have hid := h.ids i o ho
  refine ⟨o, ho, horder.symm, hid, fun hlt => ?_, ?_⟩
  · have htoNat : o.id.toNat = i + 1 := by
      rw [hid]
      exact UInt64.toNat_ofNat_of_lt' (hlt.trans (by norm_num))
    rw [hexecution, executeOrder_id horder.symm price result hterminal (htoNat ▸ hlt), htoNat]
    rfl
  · rw [hexecution]
    exact executeOrder_type horder.symm price result hfloat

theorem kindOf_taken (h : l.Inv terminal) {line : List UInt8} (hline : line ∈ l.up.taken) :
    kindOf (line ++ [0x0A]) = kindOf line := by
  have hmem : line ++ [0x0A] ∈ l.up.sent :=
    h.up.taken_prefix.subset (List.mem_map_of_mem hline)
  obtain ⟨k, hutters⟩ := h.utters _ hmem
  rw [hutters.kindOf_text, hutters.kindOf_line]

theorem filter_taken (h : l.Inv terminal) (k : MsgKind) :
    (l.up.taken.map (· ++ [0x0A])).filter (kindOf · = k) =
      (l.up.taken.filter (kindOf · = k)).map (· ++ [0x0A]) := by
  rw [List.filter_map]
  refine congrArg (List.map _) (List.filter_congr fun line hline => ?_)
  rw [Function.comp_apply, h.kindOf_taken hline]

/-- The acks the bridge has heard are those of the first executions. -/
theorem ack_heard (h : l.Inv terminal) {i : Nat} {line : List UInt8}
    (hline : (l.up.taken.filter (kindOf · = .ack))[i]? = some line) :
    ∃ e, l.executions[i]? = some e ∧ line ++ [0x0A] = ackLine e := by
  have hacks := (h.up.taken_prefix.filter (kindOf · = .ack)).trans h.acked
  rw [h.filter_taken] at hacks
  obtain ⟨later, hlater⟩ := hacks
  have hlt : i < ((l.up.taken.filter (kindOf · = .ack)).map (· ++ [0x0A])).length := by
    rw [List.length_map]
    exact (List.getElem?_eq_some_iff.mp hline).1
  have hack : (l.executions.map ackLine)[i]? = some (line ++ [0x0A]) := by
    rw [← hlater, List.getElem?_append_left hlt, List.getElem?_map, hline]
    rfl
  rw [List.getElem?_map] at hack
  obtain ⟨e, he, htext⟩ := Option.map_eq_some_iff.mp hack
  exact ⟨e, he, htext.symm⟩

/-- If the rest of a broken stream passes for an ack, it is the beginning of the next one. -/
theorem ack_flushed (h : l.Inv terminal) {part : List UInt8} (hflushed : l.flushed = some part)
    (hkind : kindOf part = .ack) :
    ∃ e, l.executions[(l.up.taken.filter (kindOf · = .ack)).length]? = some e ∧
      part <+: ackLine e := by
  obtain ⟨-, -, -, text, later, hsent, hprefix⟩ := h.flushed part hflushed
  obtain ⟨k, hutters⟩ := h.utters text (by rw [hsent]; simp)
  have htext : kindOf text = .ack := by
    rcases hutters.kindOf_prefix hprefix with hsame | hnone
    · rw [hutters.kindOf_text, ← hsame, hkind]
    · rw [hkind] at hnone
      cases hnone
  obtain ⟨more, hmore⟩ := h.acked
  rw [hsent, List.filter_append, h.filter_taken, List.filter_cons, if_pos (decide_eq_true htext),
    List.append_assoc] at hmore
  have hack : (l.executions.map ackLine)[(l.up.taken.filter (kindOf · = .ack)).length]? =
      some text := by
    rw [← hmore, List.getElem?_append_right (by rw [List.length_map]), List.length_map,
      Nat.sub_self]
    rfl
  rw [List.getElem?_map] at hack
  obtain ⟨e, he, hline⟩ := Option.map_eq_some_iff.mp hack
  exact ⟨e, he, hline ▸ hprefix⟩

/-- All that the bridge takes for acks are those of the first executions, the last perhaps cut
off. -/
theorem ack_heard_prefix (h : l.Inv terminal) {i : Nat} {part : List UInt8}
    (hpart : (l.heard.filter (kindOf · = .ack))[i]? = some part) :
    ∃ e, l.executions[i]? = some e ∧ part <+: ackLine e := by
  rw [heard, List.filter_append] at hpart
  rcases lt_or_ge i (l.up.taken.filter (kindOf · = .ack)).length with hlt | hge
  · rw [List.getElem?_append_left hlt] at hpart
    obtain ⟨e, he, hline⟩ := h.ack_heard hpart
    exact ⟨e, he, hline ▸ List.prefix_append _ _⟩
  · rw [List.getElem?_append_right hge] at hpart
    obtain ⟨hmem, hack⟩ := List.mem_filter.mp (List.mem_of_getElem? hpart)
    have hflushed : l.flushed = some part := Option.mem_toList.mp hmem
    have hi : i = (l.up.taken.filter (kindOf · = .ack)).length := by
      rw [hflushed, Option.toList_some, List.filter_singleton, hack] at hpart
      have hlt := (List.getElem?_eq_some_iff.mp hpart).1
      rw [cond_true, List.length_singleton] at hlt
      omega
    exact hi ▸ h.ack_flushed hflushed (of_decide_eq_true hack)

/-- The bridge has been given no more lines of a kind than were sent. -/
theorem countP_heard_le (h : l.Inv terminal) {k : MsgKind} (hk : k ≠ .unknown) :
    l.heard.countP (kindOf · = k) ≤ l.up.sent.countP (kindOf · = k) := by
  have htaken : (l.up.taken.map (· ++ [0x0A])).countP (kindOf · = k) =
      l.up.taken.countP (kindOf · = k) := by
    rw [List.countP_eq_length_filter, h.filter_taken, List.length_map, ← List.countP_eq_length_filter]
  cases hflushed : l.flushed with
  | none =>
      rw [heard, hflushed, Option.toList_none, List.append_nil, ← htaken]
      exact h.up.taken_prefix.sublist.countP_le
  | some part =>
      obtain ⟨-, -, -, text, later, hsent, hpart⟩ := h.flushed part hflushed
      obtain ⟨k', hutters⟩ := h.utters text (by rw [hsent]; simp)
      have hlast : (if kindOf part = k then 1 else 0) ≤ if kindOf text = k then 1 else 0 := by
        rcases hutters.kindOf_prefix hpart with hkind | hkind
        · rw [hkind, hutters.kindOf_text]
        · rw [hkind, if_neg hk.symm]
          exact Nat.zero_le _
      rw [heard, hflushed, Option.toList_some, hsent, List.countP_append, List.countP_append, htaken,
        List.countP_singleton, List.countP_cons]
      simp only [decide_eq_true_eq]
      omega

theorem acks_le (h : l.Inv terminal) : l.bridge.st.acks ≤ l.executions.length := by
  rw [h.acks]
  refine (h.countP_heard_le (by decide)).trans ?_
  rw [List.countP_eq_length_filter, ← List.length_map ackLine]
  exact h.acked.length_le

theorem executions_le (h : l.Inv terminal) : l.executions.length ≤ l.bridge.st.orders := by
  have hle := h.executed_prefix.length_le
  rw [List.length_map, List.length_map] at hle
  exact h.orders ▸ hle

theorem ticks_le (h : l.Inv terminal) : l.bridge.st.ticks ≤ l.ticksSent :=
  h.ticks.trans (h.countP_heard_le (by decide))

/-- With both streams whole and nothing under way, every order has been executed and acked. -/
theorem settled (h : l.Inv terminal) (hup : l.up.isOpen = true) (hdown : l.down.isOpen = true)
    (hupFlight : l.up.flight = []) (hdownFlight : l.down.flight = [])
    (hupBuf : (0x0A : UInt8) ∉ l.up.buf) (hdownBuf : (0x0A : UInt8) ∉ l.down.buf) :
    l.executions.length = l.bridge.st.orders ∧ l.bridge.st.acks = l.bridge.st.orders := by
  have hexecuted : l.executions.length = l.bridge.st.orders := by
    have hall := h.repliedAll hdown
    rw [← h.down.taken_eq hdown hdownFlight hdownBuf] at hall
    have hlength := congrArg List.length hall
    have hsame : isOrder ∘ (· ++ [0x0A]) = isOrder := funext isOrder_newline
    rw [List.filter_map, hsame, ← h.executed, List.length_map, List.length_map, List.length_map]
      at hlength
    rw [hlength, h.orders]
  refine ⟨hexecuted, le_antisymm (h.acks_le.trans hexecuted.le) ?_⟩
  have hall := congrArg List.length (h.ackedAll hup)
  rw [← h.up.taken_eq hup hupFlight hupBuf, h.filter_taken, List.length_map, List.length_map,
    ← List.countP_eq_length_filter] at hall
  rw [← hexecuted, ← hall, h.acks, heard, List.countP_append]
  exact Nat.le_add_right _ _

end Link.Inv

/-! ### A terminal that trades in whole numbers -/

def wholeTerminal : Terminal Int where
  symbol := ascii "EURUSD"
  accountLogin := 12345
  heartbeatSecs := 5
  charArrayToString := id
  stringToDouble text := ((readInt text).map Prod.fst).getD 0
  doubleToString := signedNumeral
  toLong := id
  isPositive v := 0 < v
  zero := 0
  tenthOfALot := 1

theorem wholeTerminal_lawful : wholeTerminal.Lawful where
  symbol := by decide
  printed := isPlain_signedNumeral
  decoded _ _ := rfl
  whole n _ rest := by
    have hcomma : ∀ b ∈ ((0x2C : UInt8) :: rest).head?, isDigit b = false := by
      intro b hb
      cases hb
      decide
    change ((readInt (numeral n ++ 0x2C :: rest)).map Prod.fst).getD 0 = n
    rw [readInt_numeral n hcomma]
    rfl

/-- The mid price rises with the second of two ticks, and the advisor executes the order that this
brings. Of its ack, `n` bytes get out. -/
def riseMoves (n : Nat) : List (Move Int) :=
  let bridge : Move Int := .bridge 0
  let poll : Move Int := .poll (fun _ => 5) ⟨true, tradeRetcodeDone⟩ n
  [.connect, .tick ⟨1, 3, 3, 3, 5⟩, bridge, bridge, bridge, bridge, poll, poll, poll,
    .tick ⟨2, 5, 5, 5, 5⟩, bridge, bridge, poll, poll]

/-- The connection breaks within the first ack. The bridge is given the part of it that got out, and
then serves the connection that the advisor has opened again. -/
def brokenMoves : List (Move Int) :=
  riseMoves 40 ++ [.cut 0, .bridge 0, .bridge 0, .bridge 0] ++ riseMoves 200 ++
    [.bridge 0, .bridge 0]

/-- With the strategy and the idle limit of `mt5d`. -/
abbrev ExampleStep := Live.Step wholeTerminal ExampleStrategy.strategy (.new (1 : Int) 1) 12

def brokenRun : Live Int (ExampleStrategy Int) :=
  (Live.carryOut wholeTerminal ExampleStrategy.strategy (.new (1 : Int) 1) {} brokenMoves).getD {}

theorem reachable_brokenRun : Relation.ReflTransGen ExampleStep {} brokenRun := by
  have hrun : (Live.carryOut wholeTerminal ExampleStrategy.strategy (.new (1 : Int) 1) {}
      brokenMoves).isSome := by decide +kernel
  obtain ⟨s, hs⟩ := Option.isSome_iff_exists.mp hrun
  rw [brokenRun, hs]
  exact Live.reachable_of_carryOut brokenMoves hs

section Reachable

variable {terminal : Terminal Double} {strategy : Strategy Double σ} {s : Live Double σ}

/-- On every connection there has been, whatever broke or got lost: the `i`-th order the advisor has
executed is the `i`-th the bridge has sent, on its side, and the `i`-th ack the bridge has heard is
the one for it, or a part of that if it was cut off. So no order is executed twice, out of order, or
on another connection, and none is acked for another. -/
theorem executions_follow_orders (hfloat : FloatText.Lawful Double) (hterminal : terminal.Lawful)
    (hstrategy : strategy.KeepsAscii) (strat : σ) (maxIdleIntervals : Int)
    (hreach : Relation.ReflTransGen (Live.Step terminal strategy strat maxIdleIntervals) {} s) :
    ∀ l ∈ s.links,
      l.up.taken.map (· ++ [0x0A]) <+: l.up.sent ∧
      l.down.taken.map (· ++ [0x0A]) <+: l.down.sent ∧
      (∀ (i : Nat) (e : Execution Double), l.executions[i]? = some e →
        ∃ o, l.orders[i]? = some o ∧ e.line ++ [0x0A] = encodeOrder o ∧
          o.id = UInt64.ofNat (i + 1) ∧ (i + 1 < 2 ^ 53 → e.id = i + 1) ∧
          (e.request.type = .buy ↔ o.side = Side.buy)) ∧
      (∀ (i : Nat) (line : List UInt8), (l.up.taken.filter (kindOf · = .ack))[i]? = some line →
        ∃ e, l.executions[i]? = some e ∧ line ++ [0x0A] = ackLine e) ∧
      ∀ (i : Nat) (part : List UInt8), (l.heard.filter (kindOf · = .ack))[i]? = some part →
        ∃ e, l.executions[i]? = some e ∧ part <+: ackLine e := by
  intro l hl
  have h := (Live.inv_of_reachable hfloat hterminal hstrategy hreach).links l hl
  exact ⟨h.up.taken_prefix, h.down.taken_prefix, fun i e he => h.execution hfloat hterminal he,
    fun i line hline => h.ack_heard hline, fun i part hpart => h.ack_heard_prefix hpart⟩

theorem executions_follow_orders_broken :
    Relation.ReflTransGen ExampleStep {} brokenRun ∧
      brokenRun.links.map (·.flushed.isSome) = [false, true] ∧
      ∀ l ∈ brokenRun.links, ∃ e o part,
        l.executions = [e] ∧ l.orders = [o] ∧ l.heard.filter (kindOf · = .ack) = [part] ∧
        o.id = 1 ∧ e.id = 1 ∧ e.request.type = .buy ∧ o.side = Side.buy ∧ part <+: ackLine e := by
  have hone : ∀ l ∈ brokenRun.links, l.executions.length = 1 ∧ l.orders.length = 1 ∧
      (l.heard.filter (kindOf · = .ack)).length = 1 ∧
      ∀ e ∈ l.executions, e.request.type = .buy := by decide +kernel
  refine ⟨reachable_brokenRun, by decide +kernel, fun l hl => ?_⟩
  obtain ⟨hexecuted, hsent, hheard, hbuys⟩ := hone l hl
  obtain ⟨-, -, hexecutions, -, hacks⟩ := executions_follow_orders wholeNumbers_lawful
    wholeTerminal_lawful ExampleStrategy.keepsAscii (.new 1 1) 12 reachable_brokenRun l hl
  obtain ⟨e, he⟩ := List.length_eq_one_iff.mp hexecuted
  obtain ⟨o, ho⟩ := List.length_eq_one_iff.mp hsent
  obtain ⟨part, hpart⟩ := List.length_eq_one_iff.mp hheard
  have hbuy : e.request.type = .buy := hbuys e (by rw [he]; exact List.mem_singleton_self e)
  obtain ⟨o', ho', -, hid, hread, hside⟩ := hexecutions 0 e (by rw [he]; rfl)
  obtain ⟨e', he', hack⟩ := hacks 0 part (by rw [hpart]; rfl)
  rw [ho] at ho'
  rw [he] at he'
  obtain rfl : o = o' := Option.some.inj ho'
  obtain rfl : e = e' := Option.some.inj he'
  exact ⟨e, o, part, he, ho, hpart, hid, hread (by decide), hbuy, hside.mp hbuy, hack⟩

/-- What the two sides count over all connections never gets out of step, and it agrees on a
connection that is whole and has come to rest. -/
theorem counters_in_step (hfloat : FloatText.Lawful Double) (hterminal : terminal.Lawful)
    (hstrategy : strategy.KeepsAscii) (strat : σ) (maxIdleIntervals : Int)
    (hreach : Relation.ReflTransGen (Live.Step terminal strategy strat maxIdleIntervals) {} s) :
    (s.links.map (·.bridge.st.acks)).sum ≤ s.advisor.acksOk + s.advisor.acksRej ∧
    s.advisor.acksOk + s.advisor.acksRej = s.advisor.orders ∧
    s.advisor.orders ≤ (s.links.map (·.bridge.st.orders)).sum ∧
    (s.links.map (·.bridge.st.orders)).sum + (s.links.map (·.bridge.st.nops)).sum =
      (s.links.map (·.bridge.st.ticks)).sum ∧
    (s.links.map (·.bridge.st.ticks)).sum ≤ s.advisor.ticks ∧
    ∀ l ∈ s.links, l.up.isOpen = true → l.down.isOpen = true → l.up.flight = [] →
      l.down.flight = [] → (0x0A : UInt8) ∉ l.up.buf → (0x0A : UInt8) ∉ l.down.buf →
      l.executions.length = l.bridge.st.orders ∧ l.bridge.st.acks = l.bridge.st.orders := by
  have h := Live.inv_of_reachable hfloat hterminal hstrategy hreach
  refine ⟨?_, h.answered.symm, ?_, ?_, ?_, fun l hl => (h.links l hl).settled⟩
  · rw [← h.answered, h.executed]
    exact List.sum_le_sum fun l hl => (h.links l hl).acks_le
  · rw [h.executed]
    exact List.sum_le_sum fun l hl => (h.links l hl).executions_le
  · rw [← List.sum_map_add]
    exact congrArg List.sum (List.map_congr_left fun l hl => (h.links l hl).balance.symm)
  · exact (List.sum_le_sum fun l hl => (h.links l hl).ticks_le).trans h.ticks

theorem counters_in_step_broken :
    Relation.ReflTransGen ExampleStep {} brokenRun ∧ brokenRun.advisor.acksOk = 2 ∧
      2 ≤ brokenRun.advisor.orders ∧ brokenRun.advisor.orders ≤ brokenRun.advisor.ticks ∧
      ∃ l ∈ brokenRun.links, l.executions.length = l.bridge.st.orders ∧
        l.bridge.st.acks = l.bridge.st.orders := by
  have hok : brokenRun.advisor.acksOk = 2 := by decide +kernel
  -- the second connection has come to rest
  have hrest : ∃ l ∈ brokenRun.links, l.up.isOpen = true ∧ l.down.isOpen = true ∧
      l.up.flight = [] ∧ l.down.flight = [] ∧ (0x0A : UInt8) ∉ l.up.buf ∧
      (0x0A : UInt8) ∉ l.down.buf := by decide +kernel
  obtain ⟨-, hanswered, horders, hbalance, hticks, hsettled⟩ := counters_in_step
    wholeNumbers_lawful wholeTerminal_lawful ExampleStrategy.keepsAscii (.new 1 1) 12
    reachable_brokenRun
  obtain ⟨l, hl, hup, hdown, hupFlight, hdownFlight, hupBuf, hdownBuf⟩ := hrest
  exact ⟨reachable_brokenRun, hok, by omega, by omega, l, hl,
    hsettled l hl hup hdown hupFlight hdownFlight hupBuf hdownBuf⟩

end Reachable

end HftOrderbook.Mt5
