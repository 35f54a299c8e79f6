import HftOrderbook.Mt5.Publish
import HftOrderbook.Proof.BookLadders
import HftOrderbook.Proof.BookRefinement
import HftOrderbook.Proof.LineSocket
import HftOrderbook.Proof.Mt5Depth

/-!
# What a subscriber sees

The lines that the engine publishes, taken off a socket by `recv_line` and parsed: snapshot by
snapshot they are the ladders of the live orders at the calls where they were published.
-/

namespace HftOrderbook.Mt5

open ByteText Decimal FlatJson ChunkedWire

/-! ### A line without its newline -/

section Depth

variable (symbol : List UInt8) (bids asks : List Level) {trail : List UInt8}
  (htrail : (0x22 : UInt8) ∉ trail)

include htrail

theorem kindOf_depthObject :
    kindOf (object trail (depthMembers symbol bids asks)) = .depth := by
  have ht := jsonGetStr_object htrail [] _ _ (depthMembers_ok symbol bids asks) (by simp)
    (by decide)
  rw [kindOf, show jsonGetStr (object trail (depthMembers symbol bids asks)) (ascii "t") = _ from
    ht.trans (congrArg some (unescape_esc _))]
  rfl

theorem parseDepth_depthObject (symbol' : List UInt8) (bids' asks' : List Level) :
    parseDepth (object trail (depthMembers symbol bids asks)) symbol' bids' asks' =
      some (true, symbol, bids, asks) := by
  have hok := depthMembers_ok symbol bids asks
  have hsymbol := jsonGetStr_object htrail ((depthMembers symbol bids asks).take 2) _ _ hok
    (show ascii "symbol" ∉ [ascii "t", ascii "v"] by decide)
    (show IsKey (ascii "symbol") by decide)
  obtain ⟨i, hbidPos, hbidDrop⟩ := valuePos_object htrail
    ((depthMembers symbol bids asks).take 3) _ _ hok
    (show ascii "bids" ∉ [ascii "t", ascii "v", ascii "symbol"] by decide)
    (show IsKey (ascii "bids") by decide)
  obtain ⟨j, haskPos, haskDrop⟩ := valuePos_object htrail
    ((depthMembers symbol bids asks).take 4) _ _ hok
    (show ascii "asks" ∉ [ascii "t", ascii "v", ascii "symbol", ascii "bids"] by decide)
    (show IsKey (ascii "asks") by decide)
  rw [parseDepth, show jsonGetStr (object trail (depthMembers symbol bids asks))
    (ascii "symbol") = _ from hsymbol.trans (congrArg some (unescape_esc _))]
  dsimp only
  rw [show parseLevels (object trail (depthMembers symbol bids asks)) (ascii "bids") bids' = _ from
      parseLevels_of_valuePos hbidPos hbidDrop bids',
    show parseLevels (object trail (depthMembers symbol bids asks)) (ascii "asks") asks' = _ from
      parseLevels_of_valuePos haskPos haskDrop asks']
  rfl

end Depth

theorem newline_not_mem_levels (levels : List Level) : (0x0A : UInt8) ∉ encodeLevels levels := by
  have hlevel (l : Level) : (0x0A : UInt8) ∉ encodeLevel l := by
    have hprice : (0x0A : UInt8) ∉ signedNumeral l.1.toInt := fun hmem =>
      (of_isTokenByte (isTokenByte_of_mem_signedNumeral hmem)).2.2 rfl
    have hqty : (0x0A : UInt8) ∉ numeral l.2.toNat := fun hmem =>
      absurd (isDigit_of_mem_numeral hmem) (by decide)
    have hopen : (0x0A : UInt8) ∉ ascii "[" := by decide
    have hcomma : (0x0A : UInt8) ∉ ascii "," := by decide
    have hclose : (0x0A : UInt8) ∉ ascii "]" := by decide
    simp only [encodeLevel, List.mem_append, not_or]
    exact ⟨⟨⟨⟨hopen, hprice⟩, hcomma⟩, hqty⟩, hclose⟩
  cases levels with
  | nil => exact List.not_mem_nil
  | cons l levels =>
      have hcomma : (0x0A : UInt8) ∉ ascii "," := by decide
      simp only [encodeLevels, List.mem_append, List.mem_flatMap, not_or, not_exists, not_and]
      exact ⟨hlevel l, fun l' _ => ⟨hcomma, hlevel l'⟩⟩

theorem newline_not_mem_depthObject (symbol : List UInt8) (bids asks : List Level) :
    (0x0A : UInt8) ∉ object [] (depthMembers symbol bids asks) := by
  have hmember : ∀ (key : List UInt8) (v : Value), (0x0A : UInt8) ∉ key → (0x0A : UInt8) ∉ v.text →
      (0x0A : UInt8) ∉ ({ key := key, value := v } : Member).text := by
    intro key v hkey hv
    simp [Member.text, quoted, hkey, hv]
  have hstr (text : List UInt8) : (0x0A : UInt8) ∉ (Value.str (esc text)).text := by
    simp [Value.text, quoted, newline_not_mem_esc text]
  have hladder (levels : List Level) : (0x0A : UInt8) ∉ (ladder levels).text := by
    simp [ladder, Value.text, newline_not_mem_levels levels]
  refine not_mem_object (by decide) ?_
  simp only [depthMembers, List.forall_mem_cons]
  exact ⟨hmember _ _ (by decide) (hstr _), hmember _ _ (by decide) (by decide),
    hmember _ _ (by decide) (hstr _), hmember _ _ (by decide) (hladder _),
    hmember _ _ (by decide) (hladder _), by simp⟩

/-! ### Signals -/

section Signals

variable {Double : Type} [FloatText Double]

def signalFields (s : Signal Double) : List (List UInt8 × Field Double) :=
  [(ascii "t", .text (ascii "signal")), (ascii "v", .int kProtocolVersion.toInt),
    (ascii "symbol", .text s.symbol), (ascii "mid", .double s.mid),
    (ascii "microprice", .double s.microprice), (ascii "imbalance", .double s.imbalance),
    (ascii "spread_bps", .double s.spreadBps)]

theorem encodeSignal_eq_line (s : Signal Double) :
    encodeSignal s = line (ascii "\n") (signalFields s) := by
  simp only [encodeSignal, line, signalFields, List.map_cons, List.map_nil, object, following,
    member, Member.text, Field.value, Value.text, quoted, List.append_assoc, List.cons_append,
    List.nil_append]
  rfl

theorem isKey_signalFields (s : Signal Double) :
    ∀ key ∈ (signalFields s).map Prod.fst, IsKey key := by
  change ∀ key ∈ [ascii "t", ascii "v", ascii "symbol", ascii "mid", ascii "microprice",
    ascii "imbalance", ascii "spread_bps"], IsKey key
  decide

def Signal.received (s : Signal Double) : Signal Double :=
  { s with
    mid := reread s.mid
    microprice := reread s.microprice
    imbalance := reread s.imbalance
    spreadBps := reread s.spreadBps }

variable (hfloat : FloatText.Lawful Double) {trail : List UInt8} (htrail : (0x22 : UInt8) ∉ trail)

include hfloat htrail

theorem kindOf_signalLine (s : Signal Double) : kindOf (line trail (signalFields s)) = .signal := by
  rw [kindOf, jsonGetStr_line hfloat htrail (isKey_signalFields s) rfl]
  rfl

theorem parseSignal_line (s out : Signal Double) :
    parseSignal (line trail (signalFields s)) out = (true, s.received) := by
  have hkeys := isKey_signalFields s
  rw [parseSignal, jsonGetStr_line hfloat htrail hkeys rfl,
    jsonGetDouble_line hfloat htrail hkeys rfl, jsonGetDouble_line hfloat htrail hkeys rfl,
    jsonGetDouble_line hfloat htrail hkeys rfl, jsonGetDouble_line hfloat htrail hkeys rfl]
  rfl

end Signals

/-! ### Publications -/

/-- One line that the engine sends: the top `n` levels of the book after so many calls, or a
signal. -/
inductive Publication (Double : Type) [FloatText Double]
  | depth (after : Nat) (symbol : List UInt8) (n : Nat)
  | signal (s : Signal Double)

namespace Publication

variable {Double : Type} [FloatText Double] (ops : List BookOp)

def text : Publication Double → List UInt8
  | .depth after symbol n => publishDepth symbol (BasicOrderBook.run MapLevels (ops.take after)) n
  | .signal s => encodeSignal s

/-- The line tells the subscriber what was published: of a book, the best levels of the orders that
were live then. -/
def Told (line : List UInt8) : Publication Double → Prop
  | .depth after symbol n => kindOf line = .depth ∧ ∃ bids asks : List Level,
      (∀ symbol' bids' asks',
        parseDepth line symbol' bids' asks' = some (true, symbol, bids, asks)) ∧
      (∃ l, IsLadder .greater ((LiveOrders.run (ops.take after)).qtyAt Side.buy) l ∧
        bids.map (fun level => (level.1.toInt, level.2)) = l.take n) ∧
      ∃ l, IsLadder .less ((LiveOrders.run (ops.take after)).qtyAt Side.sell) l ∧
        asks.map (fun level => (level.1.toInt, level.2)) = l.take n
  | .signal s => kindOf line = .signal ∧ ∀ out, parseSignal line out = (true, s.received)

end Publication

/-- A price that the 64-bit words of the source can hold. -/
def Price64 (p : Price) : Prop := -2 ^ 63 ≤ p ∧ p < 2 ^ 63

theorem map_wireLevel {levels : List (Price × Qty)} (h : ∀ l ∈ levels, Price64 l.1) :
    (levels.map wireLevel).map (fun level => (level.1.toInt, level.2)) = levels := by
  rw [List.map_map]
  calc
    levels.map _ = levels.map id := by
      refine List.map_congr_left fun l hl => ?_
      have hprice : (Int64.ofInt l.1).toInt = l.1 :=
        Int64.toInt_ofInt_of_le (h l hl).1 (h l hl).2
      exact Prod.ext hprice rfl
    _ = levels := List.map_id levels

section Sent

variable {Double : Type} [FloatText Double] {ops : List BookOp}

theorem text_depth_told (hfresh : FreshRefs ops) (hsided : RealSides ops) (hfits : LevelsFit ops)
    (hslots : SlotsFit ops) (hpriced : ∀ op ∈ ops, op.Priced Price64) (after : Nat)
    (symbol : List UInt8) (n : Nat) :
    ∃ line, (0x0A : UInt8) ∉ line ∧
      (Publication.depth after symbol n : Publication Double).text ops = line ++ [0x0A] ∧
      (Publication.depth after symbol n : Publication Double).Told ops line := by
  have hpre := List.take_prefix after ops
  obtain ⟨hinv, hreal⟩ := orderBookInv_run hfresh hsided hfits hslots hpre
  have hanswers := hinv.answersAs hreal
  have hsums := levelSumsFit_of_levelsFit hfresh hsided hfits hslots
  have hfilled := filled_run (fun pre op hop => hsums pre op (hop.trans hpre))
    (fun op hop => hpriced op (hpre.subset hop))
  set b := BasicOrderBook.run MapLevels (ops.take after)
  have hquote : (0x22 : UInt8) ∉ ([] : List UInt8) := List.not_mem_nil
  refine ⟨object [] (depthMembers symbol ((LevelStore.top b.bids n).map wireLevel)
      ((LevelStore.top b.asks n).map wireLevel)), newline_not_mem_depthObject _ _ _, ?_,
    kindOf_depthObject _ _ _ hquote, _, _, parseDepth_depthObject _ _ _ hquote, ?_, ?_⟩
  · exact (encodeDepth_eq_object _ _ _).trans (object_eq_append _ _)
  · obtain ⟨l, hladder, hdepth⟩ := hanswers.bidDepth
    refine ⟨l, hladder, (map_wireLevel fun e he => ?_).trans (hdepth n)⟩
    exact (hfilled.1 e (List.mem_of_mem_take he)).2
  · obtain ⟨l, hladder, hdepth⟩ := hanswers.askDepth
    refine ⟨l, hladder, (map_wireLevel fun e he => ?_).trans (hdepth n)⟩
    exact (hfilled.2 e (List.mem_of_mem_take he)).2

theorem text_signal_told (hfloat : FloatText.Lawful Double) (ops : List BookOp)
    (s : Signal Double) :
    ∃ line, (0x0A : UInt8) ∉ line ∧ (Publication.signal s).text ops = line ++ [0x0A] ∧
      (Publication.signal s).Told ops line := by
  have hquote : (0x22 : UInt8) ∉ ([] : List UInt8) := List.not_mem_nil
  refine ⟨line [] (signalFields s), newline_not_mem_line hfloat (isKey_signalFields s), ?_,
    kindOf_signalLine hfloat hquote s, parseSignal_line hfloat hquote s⟩
  exact (encodeSignal_eq_line s).trans (line_newline _)

end Sent

theorem splitLines_flatMap {lines : List (List UInt8)}
    (hlines : ∀ line ∈ lines, (0x0A : UInt8) ∉ line) :
    splitLines (lines.flatMap (· ++ [0x0A])) = lines := by
  induction lines with
  | nil => rfl
  | cons line lines ih =>
      rw [List.flatMap_cons, List.append_assoc, List.singleton_append,
        splitLines_append (hlines line List.mem_cons_self),
        ih fun line' h => hlines line' (List.mem_cons_of_mem _ h)]

/-- Whatever the chunks and the timeouts on the way to a subscriber are, the lines it reads tell it
one by one what was published, of a book the best levels of the orders that were live then; and if
the timeouts do not go on forever it reads them all. -/
theorem subscriber_told_live_orders (Double : Type) [FloatText Double]
    (hfloat : FloatText.Lawful Double) (ops : List BookOp) (hfresh : FreshRefs ops)
    (hsided : RealSides ops) (hfits : LevelsFit ops) (hslots : SlotsFit ops)
    (hpriced : ∀ op ∈ ops, op.Priced Price64) (publications : List (Publication Double)) :
    ∃ lines, List.Forall₂ (fun p line => Publication.Told ops line p) publications lines ∧
      ∀ script, let socket := LineSocket.start (publications.flatMap (·.text ops)) script
        (∀ n, (socket.receives n).1.flatMap Received.lines <+: lines) ∧
        (Fair script → ∃ n, (socket.receives n).1.flatMap Received.lines = lines) := by
  have htold : ∀ p : Publication Double, ∃ line, (0x0A : UInt8) ∉ line ∧
      p.text ops = line ++ [0x0A] ∧ p.Told ops line := by
    intro p
    cases p with
    | depth after symbol n =>
        exact text_depth_told hfresh hsided hfits hslots hpriced after symbol n
    | signal s => exact text_signal_told hfloat ops s
  choose lineOf hnewline htext htells using htold
  refine ⟨publications.map lineOf, ?_, fun script => ?_⟩
  · rw [List.forall₂_map_right_iff, List.forall₂_same]
    exact fun p _ => htells p
  · have hsent : publications.flatMap (·.text ops) =
        (publications.map lineOf).flatMap (· ++ [0x0A]) := by
      rw [List.flatMap_map]
      exact List.flatMap_congr fun p _ => htext p
    have hlines : splitLines (publications.flatMap (·.text ops)) = publications.map lineOf := by
      rw [hsent]
      refine splitLines_flatMap fun line hline => ?_
      obtain ⟨p, -, rfl⟩ := List.mem_map.mp hline
      exact hnewline p
    intro socket
    have hreads (n : Nat) : (socket.receives n).1.flatMap Received.lines ++
        splitLines (socket.receives n).2.pending = publications.map lineOf :=
      (LineSocket.receives_splitLines n socket).trans hlines
    refine ⟨fun n => ⟨_, hreads n⟩, fun hfair => ?_⟩
    obtain ⟨n, hclosed⟩ := LineSocket.exists_closed socket hfair
    refine ⟨n, ?_⟩
    have hall := hreads n
    rw [LineSocket.receives_closed n _ (Or.inr hclosed)] at hall
    exact (List.append_nil _).symm.trans hall

theorem sampleOps_priced : ∀ op ∈ sampleOps, op.Priced Price64 := by
  simp only [sampleOps, List.forall_mem_cons, BookOp.Priced, Price64]
  exact ⟨by decide, by decide, trivial, by decide, trivial, by simp⟩

/-- A snapshot between two signals. -/
def samplePublications : List (Publication Int) :=
  [.signal { mid := 7 }, .depth 3 (ascii "AAPL") 5, .signal {}]

/-- They come in chunks of seven bytes. -/
theorem subscriber_told_live_orders_sample :
    ∃ lines, List.Forall₂ (fun p line => Publication.Told sampleOps line p) samplePublications
        lines ∧
      ∃ n, ((LineSocket.start (samplePublications.flatMap (·.text sampleOps))
        (Stream'.const (.chunk 7))).receives n).1.flatMap Received.lines = lines := by
  have hfair : Fair (Stream'.const (.chunk 7)) := fun n => ⟨n, le_rfl, Choice.noConfusion⟩
  obtain ⟨lines, htold, hreads⟩ := subscriber_told_live_orders Int wholeNumbers_lawful sampleOps
    sampleOps_freshRefs sampleOps_realSides sampleOps_levelsFit sampleOps_slotsFit sampleOps_priced
    samplePublications
  exact ⟨lines, htold, (hreads _).2 hfair⟩

end HftOrderbook.Mt5
