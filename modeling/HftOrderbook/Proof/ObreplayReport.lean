import HftOrderbook.Feed.Obreplay
import HftOrderbook.Library.KeyedTable
import HftOrderbook.Proof.BookRuns
import HftOrderbook.Proof.ReplayParity

/-!
# What the offline replay reports

Books, symbols and tapes are tables with an entry for each instrument, so that each entry is what the
messages of its own instrument make of it, and the counts are sums over the instruments.
-/

namespace HftOrderbook

open KeyedTable

variable {F : Type} [TapeFloat F]

/-! ### The tables -/

/-- The instrument whose book a message brings up to date, if it is an order message or a directory
entry. -/
def bookKey (m : Message) : Option UInt16 :=
  match m.type with
  | .stockDirectory | .addOrder | .addOrderMpid | .orderExecuted | .orderExecutedWithPrice
  | .orderCancel | .orderDelete | .orderReplace => some m.stockLocate
  | _ => none

def symbolKey (m : Message) : Option UInt16 :=
  if m.type = .stockDirectory then some m.stockLocate else none

def tapeKey (m : Message) : Option UInt16 :=
  if m.type = .trade ∨ m.type = .crossTrade then some m.stockLocate else none

theorem BookSet.books_apply (set : BookSet) (m : Message) :
    (set.apply m).books =
      update bookKey (fun entry m => (entry.getD .empty).apply m) set.books m := by
  unfold BookSet.apply update bookKey BookSet.bookAt
  cases htype : m.type <;> simp only [BasicOrderBook.apply, htype]

theorem BookSet.symbols_apply (set : BookSet) (m : Message) :
    (set.apply m).symbols = update symbolKey (fun _ m => trim m.stock) set.symbols m := by
  unfold BookSet.apply update symbolKey
  cases m.type <;> rfl

theorem TradeTapes.onMessage_eq (tapes : TradeTapes F) (m : Message) :
    tapes.onMessage m = update tapeKey
      (fun entry m => (entry.getD (.new 1000000)).onTrade m.price m.shares m.timestamp) tapes m := by
  unfold TradeTapes.onMessage update tapeKey Message.isPrint
  cases m.type <;> rfl

theorem BookSet.books_foldl (messages : List Message) (set : BookSet) :
    (messages.foldl BookSet.apply set).books = messages.foldl
      (update bookKey fun entry m => (entry.getD .empty).apply m) set.books := by
  induction messages generalizing set with
  | nil => rfl
  | cons m messages ih => rw [List.foldl_cons, List.foldl_cons, ih, books_apply]

theorem BookSet.symbols_foldl (messages : List Message) (set : BookSet) :
    (messages.foldl BookSet.apply set).symbols = messages.foldl
      (update symbolKey fun _ m => trim m.stock) set.symbols := by
  induction messages generalizing set with
  | nil => rfl
  | cons m messages ih => rw [List.foldl_cons, List.foldl_cons, ih, symbols_apply]

/-! ### What they hold for an instrument -/

section Instruments

variable (messages : List Message)

def instruments : Finset UInt16 := (messages.filterMap bookKey).toFinset

/-- The calls that the messages of an instrument make on its book. -/
def instrumentOps (locate : UInt16) : List BookOp :=
  (messages.filter (·.stockLocate = locate)).filterMap Message.bookOp?

def directoryEntries (locate : UInt16) : List Message :=
  messages.filter fun m => m.type = .stockDirectory ∧ m.stockLocate = locate

def trades (locate : UInt16) : List Message :=
  messages.filter fun m => (m.type = .trade ∨ m.type = .crossTrade) ∧ m.stockLocate = locate

theorem mem_instruments_iff {locate : UInt16} :
    locate ∈ instruments messages ↔ grouped bookKey messages locate ≠ [] := by
  rw [instruments, List.mem_toFinset, List.mem_filterMap, grouped, Ne, List.filter_eq_nil_iff]
  push Not
  simp only [decide_eq_true_eq]

theorem filterMap_bookOp?_grouped (locate : UInt16) :
    (grouped bookKey messages locate).filterMap Message.bookOp? = instrumentOps messages locate := by
  rw [grouped, instrumentOps, List.filterMap_filter, List.filterMap_filter]
  refine List.filterMap_congr fun m _ => ?_
  simp only [decide_eq_true_eq]
  unfold bookKey Message.bookOp?
  cases m.type <;> simp

theorem books_lookup (locate : UInt16) :
    (messages.foldl BookSet.apply {}).books.lookup locate =
      if locate ∈ instruments messages then
        some (BasicOrderBook.run MapLevels (instrumentOps messages locate)) else none := by
  have hmem : locate ∈ instruments messages ↔ _ := mem_instruments_iff messages
  have hlookup := lookup_foldl_update_empty bookKey (BasicOrderBook.empty : OrderBook)
    BasicOrderBook.apply messages locate
  rw [foldl_apply_eq_run, filterMap_bookOp?_grouped] at hlookup
  rw [BookSet.books_foldl]
  refine hlookup.trans ?_
  split_ifs with hnone hlocate hlocate
  · exact absurd hnone (hmem.mp hlocate)
  · rfl
  · rfl
  · exact absurd (hmem.mpr hnone) hlocate

theorem foldl_some_eq_getLast? {α β : Type} (f : α → β) (items : List α) :
    items.foldl (fun _ a => some (f a)) none = items.getLast?.map f := by
  induction items using List.reverseRecOn with
  | nil => rfl
  | append_singleton items a _ => rw [List.foldl_append, List.getLast?_concat]; rfl

theorem symbols_lookup (locate : UInt16) :
    (messages.foldl BookSet.apply {}).symbols.lookup locate =
      (directoryEntries messages locate).getLast?.map fun m => BookSet.trim m.stock := by
  have hgrouped : grouped symbolKey messages locate = directoryEntries messages locate := by
    refine List.filter_congr fun m _ => ?_
    unfold symbolKey
    by_cases htype : m.type = .stockDirectory
    · simp [htype]
    · simp [htype]
  rw [BookSet.symbols_foldl, lookup_foldl_update, hgrouped]
  exact foldl_some_eq_getLast? _ _

theorem tapes_lookup (locate : UInt16) :
    (messages.foldl TradeTapes.onMessage (∅ : TradeTapes F)).lookup locate =
      if trades messages locate = [] then none
      else some ((trades messages locate).foldl
        (fun tape m => tape.onTrade m.price m.shares m.timestamp) (.new 1000000)) := by
  have hgrouped : grouped tapeKey messages locate = trades messages locate := by
    refine List.filter_congr fun m _ => ?_
    unfold tapeKey
    by_cases htype : m.type = .trade ∨ m.type = .crossTrade
    · simp [htype]
    · simp [htype]
  have hstep : (TradeTapes.onMessage : TradeTapes F → Message → TradeTapes F) =
      update tapeKey fun entry m =>
        (entry.getD (.new 1000000)).onTrade m.price m.shares m.timestamp := by
    funext tapes m
    exact tapes.onMessage_eq m
  rw [hstep, ← hgrouped]
  exact lookup_foldl_update_empty tapeKey (.new 1000000 : TradeTape F)
    (fun tape m => tape.onTrade m.price m.shares m.timestamp) messages locate

end Instruments

/-! ### Counts -/

section Counts

variable {messages : List Message} {set : BookSet}
  (hagree : ∀ locate, BookSet.AgreeAt locate set (messages.foldl BookSet.apply {}))

include hagree

theorem keys_of_agreeAt : set.books.keys.toFinset = instruments messages := by
  ext locate
  rw [List.mem_toFinset, ← AList.mem_keys, ← AList.lookup_isSome, (hagree locate).1, books_lookup]
  by_cases hmem : locate ∈ instruments messages
  · simp [hmem]
  · simp [hmem]

theorem bookCount_of_agreeAt : set.bookCount = (instruments messages).card := by
  rw [← keys_of_agreeAt hagree]
  exact length_entries set.books

theorem totalOrders_of_agreeAt : set.totalOrders = ∑ locate ∈ instruments messages,
    (BasicOrderBook.run MapLevels (instrumentOps messages locate)).orderCount := by
  have hsum : set.totalOrders = (set.books.entries.map fun kv => kv.2.orderCount).sum := by
    rw [BookSet.totalOrders, List.sum_eq_foldl, List.foldl_map]
  rw [hsum, sum_entries set.books fun book => book.orderCount, keys_of_agreeAt hagree]
  refine Finset.sum_congr rfl fun locate hlocate => ?_
  rw [(hagree locate).1, books_lookup, if_pos hlocate]
  rfl

end Counts

/-! ### The report -/

/-- With threads or without, the books agree with those of the plain replay. -/
theorem obreplay_agreeAt {buf : List UInt8} {threads : Int}
    {schedule : List (Thread (Fin (workerCount (obreplayWorkers threads)).toNat))}
    {report : Replayed F} (hrun : obreplay buf threads schedule = some report) :
    report.n = (framedMessages buf).length ∧
      report.tapes = replayTapes F buf ∧
      ∀ locate, BookSet.AgreeAt locate report.book
        ((framedMessages buf).foldl BookSet.apply {}) := by
  obtain ⟨⟨book, n⟩, hbook, rfl⟩ := Option.map_eq_some_iff.mp hrun
  unfold obreplayBooks at hbook
  split_ifs at hbook
  · obtain ⟨hagree, hn⟩ := agreeAt_of_replaySharded hbook
    exact ⟨hn, rfl, hagree⟩
  · obtain ⟨rfl, rfl⟩ := Prod.mk.inj (Option.some.inj hbook)
    exact ⟨rfl, rfl, fun locate => ⟨rfl, rfl⟩⟩

/-- Whatever the number of threads and their schedule are: the books are those of the calls of each
instrument, their number is the number of instruments, the resting orders are the live orders of all
of them, the name of an instrument is in its last directory entry, and its tape holds its own
trades. -/
theorem obreplay_report (buf : List UInt8) (threads : Int)
    (schedule : List (Thread (Fin (workerCount (obreplayWorkers threads)).toNat)))
    {report : Replayed F} (hrun : obreplay buf threads schedule = some report) :
    let messages := framedMessages buf
    report.n = messages.length ∧
      (∀ locate, report.book.book locate = if locate ∈ instruments messages then
        some (BasicOrderBook.run MapLevels (instrumentOps messages locate)) else none) ∧
      (∀ locate, report.book.symbol locate =
        ((directoryEntries messages locate).getLast?.map fun m => BookSet.trim m.stock).getD []) ∧
      report.book.bookCount = (instruments messages).card ∧
      ((∀ locate, SlotsFit (instrumentOps messages locate)) →
        report.book.totalOrders = ∑ locate ∈ instruments messages,
          (LiveOrders.run (instrumentOps messages locate)).keys.card) ∧
      ∀ locate, report.tapes.lookup locate = if trades messages locate = [] then none
        else some ((trades messages locate).foldl
          (fun tape m => tape.onTrade m.price m.shares m.timestamp) (.new 1000000)) := by
  obtain ⟨hn, htapes, hagree⟩ := obreplay_agreeAt hrun
  refine ⟨hn, fun locate => (hagree locate).1.trans (books_lookup _ locate), fun locate => ?_,
    bookCount_of_agreeAt hagree, fun hslots => ?_, fun locate => ?_⟩
  · rw [BookSet.symbol, (hagree locate).2, symbols_lookup]
  · rw [totalOrders_of_agreeAt hagree]
    refine Finset.sum_congr rfl fun locate _ => ?_
    exact (tracks_run (hslots locate) _ List.prefix_rfl).orderCount_eq
  · rw [htapes, replayTapes]
    exact tapes_lookup _ locate

/-- Two workers, one after the other. -/
theorem obreplay_report_twoAdds :
    ∃ report : Replayed ℚ, obreplay twoAdds 2 (oneByOne 2) = some report ∧
      report.book.bookCount = (instruments (framedMessages twoAdds)).card := by
  obtain ⟨report, hrun⟩ :
      ∃ report : Replayed ℚ, obreplay twoAdds 2 (oneByOne 2) = some report := by
    refine Option.isSome_iff_exists.mp ?_
    decide
  exact ⟨report, hrun, (obreplay_report twoAdds 2 (oneByOne 2) hrun).2.2.2.1⟩

end HftOrderbook
