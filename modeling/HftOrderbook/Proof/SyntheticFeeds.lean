import HftOrderbook.Feed.Synthetic
import HftOrderbook.Feed.Framing
import HftOrderbook.Proof.FreshFeeds

/-!
# Synthetic feeds are well formed

Whatever the random source returns, a generator stays within the wire: its counters fit their
fields, references are taken in turn, and shares and prices are small. From that alone the stream
decodes to what was chosen and drives consistent books, so for each generator only the bounds have
to be carried along its loops.
-/

namespace HftOrderbook

open RandomSource LengthPrefix

/-! ### Messages that fit the wire -/

def ChosenBody.Fits : ChosenBody → Prop
  | .add ref _ shares _ price => ref < 2 ^ 64 ∧ shares < 2 ^ 32 ∧ 0 ≤ price ∧ price < 2 ^ 32
  | .execute ref shares matchNumber => ref < 2 ^ 64 ∧ shares < 2 ^ 32 ∧ matchNumber < 2 ^ 64
  | .cancel ref shares => ref < 2 ^ 64 ∧ shares < 2 ^ 32
  | .delete ref => ref < 2 ^ 64
  | .replace ref newRef shares price =>
      ref < 2 ^ 64 ∧ newRef < 2 ^ 64 ∧ shares < 2 ^ 32 ∧ 0 ≤ price ∧ price < 2 ^ 32
  | .trade ref _ shares _ price matchNumber =>
      ref < 2 ^ 64 ∧ shares < 2 ^ 32 ∧ (0 ≤ price ∧ price < 2 ^ 32) ∧ matchNumber < 2 ^ 64
  | .directory _ => True

def Chosen.Fits (c : Chosen) : Prop := c.locate < 2 ^ 16 ∧ c.ts < 2 ^ 48 ∧ c.body.Fits

/-- The message has the type of the choice and every value at full width. -/
def Chosen.Describes (c : Chosen) (m : Message) : Prop :=
  m.stockLocate.toNat = c.locate ∧ m.timestamp.toNat = c.ts ∧
    match c.body with
    | .add ref side shares stock price =>
        m.type = .addOrder ∧ m.orderRef.toNat = ref ∧ m.side = side ∧ m.shares.toNat = shares ∧
          m.stock = stock.bytes ∧ m.price = price
    | .execute ref shares matchNumber =>
        m.type = .orderExecuted ∧ m.orderRef.toNat = ref ∧ m.shares.toNat = shares ∧
          m.matchNumber.toNat = matchNumber
    | .cancel ref shares =>
        m.type = .orderCancel ∧ m.orderRef.toNat = ref ∧ m.shares.toNat = shares
    | .delete ref => m.type = .orderDelete ∧ m.orderRef.toNat = ref
    | .replace ref newRef shares price =>
        m.type = .orderReplace ∧ m.orderRef.toNat = ref ∧ m.newOrderRef.toNat = newRef ∧
          m.shares.toNat = shares ∧ m.price = price
    | .trade ref side shares stock price matchNumber =>
        m.type = .trade ∧ m.orderRef.toNat = ref ∧ m.side = side ∧ m.shares.toNat = shares ∧
          m.stock = stock.bytes ∧ m.price = price ∧ m.matchNumber.toNat = matchNumber
    | .directory stock => m.type = .stockDirectory ∧ m.stock = stock.bytes

theorem toNat_ofInt_of_fits {price : Int} (hlow : 0 ≤ price) (hhigh : price < 2 ^ 32) :
    ((UInt32.ofInt price).toNat : Int) = price := by
  have hlt : (price % 2 ^ 32).toNat < 2 ^ 32 := by omega
  rw [UInt32.ofInt, UInt32.toNat_ofNat_of_lt' hlt]
  omega

theorem Chosen.describes_message {c : Chosen} (h : c.Fits) : c.Describes c.record.message := by
  obtain ⟨locate, ts, body⟩ := c
  obtain ⟨hlocate, hts, hbody⟩ := h
  have hlocate' : (UInt16.ofNat locate).toNat = locate := UInt16.toNat_ofNat_of_lt' hlocate
  have hts' : (UInt64.ofNat ts).toNat = ts :=
    UInt64.toNat_ofNat_of_lt' (hts.trans (by norm_num))
  have href : ∀ {ref : Nat}, ref < 2 ^ 64 → (UInt64.ofNat ref).toNat = ref :=
    fun h => UInt64.toNat_ofNat_of_lt' h
  have hshares : ∀ {shares : Nat}, shares < 2 ^ 32 → (UInt32.ofNat shares).toNat = shares :=
    fun h => UInt32.toNat_ofNat_of_lt' h
  cases body with
  | add ref side shares stock price =>
      obtain ⟨h₁, h₂, h₃, h₄⟩ := hbody
      exact ⟨hlocate', hts', rfl, href h₁, rfl, hshares h₂, rfl, toNat_ofInt_of_fits h₃ h₄⟩
  | execute ref shares matchNumber =>
      obtain ⟨h₁, h₂, h₃⟩ := hbody
      exact ⟨hlocate', hts', rfl, href h₁, hshares h₂, href h₃⟩
  | cancel ref shares => exact ⟨hlocate', hts', rfl, href hbody.1, hshares hbody.2⟩
  | delete ref => exact ⟨hlocate', hts', rfl, href hbody⟩
  | replace ref newRef shares price =>
      obtain ⟨h₁, h₂, h₃, h₄, h₅⟩ := hbody
      exact ⟨hlocate', hts', rfl, href h₁, href h₂, hshares h₃, toNat_ofInt_of_fits h₄ h₅⟩
  | trade ref side shares stock price matchNumber =>
      obtain ⟨h₁, h₂, ⟨h₃, h₄⟩, h₅⟩ := hbody
      exact ⟨hlocate', hts', rfl, href h₁, rfl, hshares h₂, rfl, toNat_ofInt_of_fits h₃ h₄, href h₅⟩
  | directory stock => exact ⟨hlocate', hts', rfl, rfl⟩

theorem Chosen.decoded_bytes {c : Chosen} (h : c.Fits) :
    decoded c.record.bytes = some c.record.message := by
  have hts : c.record.ts.toNat < 2 ^ 48 := by
    change (UInt64.ofNat c.ts).toNat < 2 ^ 48
    rw [UInt64.toNat_ofNat_of_lt' (h.2.1.trans (by norm_num))]
    exact h.2.1
  rw [decoded, c.record.decode_bytes hts]
  rfl

/-! ### Frames -/

theorem FeedRecord.length_bytes (r : FeedRecord) : 19 ≤ r.bytes.length ∧ r.bytes.length ≤ 44 := by
  obtain ⟨locate, ts, body⟩ := r
  cases body <;>
    simp [FeedRecord.bytes, FeedRecord.padTo, length_hdr, length_beN, be32, Symbol.length_eq]

theorem FeedRecord.body_bytes (r : FeedRecord) : Body r.bytes := by
  obtain ⟨hlow, hhigh⟩ := r.length_bytes
  refine ⟨fun hnil => ?_, by omega⟩
  rw [hnil] at hlow
  simp at hlow

theorem frame_eq_encode {m : List UInt8} (h : m.length < 2 ^ 16) : frame m = encode m := by
  have hlength : (UInt16.ofNat m.length).toNat = m.length := UInt16.toNat_ofNat_of_lt' h
  have hhi : (UInt16.ofNat m.length >>> 8).toUInt8 = UInt8.ofNat (m.length / 2 ^ 8) := by
    rw [← UInt8.toNat_inj, UInt16.toNat_toUInt8, UInt16.toNat_shiftRight, hlength,
      UInt8.toNat_ofNat']
    exact congrArg (· % 2 ^ 8) (Nat.shiftRight_eq_div_pow m.length 8)
  have hlo : (UInt16.ofNat m.length).toUInt8 = UInt8.ofNat m.length := by
    rw [← UInt8.toNat_inj, UInt16.toNat_toUInt8, hlength, UInt8.toNat_ofNat']
  rw [frame, be16, hhi, hlo]
  rfl

theorem FeedWriter.output_eq (t : FeedWriter) :
    t.output = encodeAll (t.written.map fun c => c.record.bytes) := by
  rw [FeedWriter.output, encodeAll, List.flatMap_map]
  congr 1
  funext c
  exact frame_eq_encode c.record.body_bytes.2

theorem FeedWriter.forEachFramedMessage_output {t : FeedWriter} (h : ∀ c ∈ t.written, c.Fits) :
    forEachFramedMessage t.output =
      some (t.written.map fun c => c.record.message, t.output.length) := by
  have hframes : frames t.output = t.written.map fun c => c.record.bytes := by
    have hbodies : ∀ body ∈ t.written.map fun c => c.record.bytes, Body body := by
      intro body hmem
      obtain ⟨c, -, rfl⟩ := List.mem_map.mp hmem
      exact c.record.body_bytes
    have hall := frames_encodeAll hbodies (rfl : next [] = none)
    rwa [List.append_nil, ← t.output_eq] at hall
  have hdecoded : (t.written.map fun c => c.record.bytes).filterMap decoded =
      t.written.map fun c => c.record.message := by
    rw [List.filterMap_map, ← List.filterMap_eq_map]
    exact List.filterMap_congr fun c hc => Chosen.decoded_bytes (h c hc)
  rw [forEachFramedMessage_eq, hframes, hdecoded, ← t.output_eq]

/-! ### What every generator keeps -/

/-- The order a message may create: its reference and its shares. -/
def ChosenBody.newOrder : ChosenBody → Option (Nat × Nat)
  | .add ref _ shares _ _ => some (ref, shares)
  | .replace _ newRef shares _ => some (newRef, shares)
  | _ => none

def ChosenBody.newRef (body : ChosenBody) : Option Nat := body.newOrder.map Prod.fst

/-- The shares of a new order are few and its side is one the book knows. -/
def ChosenBody.Modest : ChosenBody → Prop
  | .add _ side shares _ _ => side.Real ∧ shares ≤ 2549
  | .replace _ _ shares _ => shares ≤ 2549
  | _ => True

def chosenRefs (written : List Chosen) : List Nat := written.filterMap fun c => c.body.newRef

theorem chosenRefs_concat (written : List Chosen) (c : Chosen) :
    chosenRefs (written ++ [c]) = chosenRefs written ++ c.body.newRef.toList := by
  unfold chosenRefs
  cases hnew : c.body.newRef <;> simp [hnew]

structure FeedWriter.Ok (t : FeedWriter) : Prop where
  ts_le : t.ts ≤ 34200 * 1000000000 + 1000 * t.emitted
  nextRef_le : t.nextRef ≤ t.written.length + 1
  refs : (chosenRefs t.written).Nodup
  refs_lt : ∀ ref ∈ chosenRefs t.written, ref < t.nextRef
  fits : ∀ c ∈ t.written, c.Fits
  modest : ∀ c ∈ t.written, c.body.Modest

/-- One message has been written, and the stream is as good as before. -/
structure FeedWriter.Wrote (t t' : FeedWriter) : Prop where
  ok : t'.Ok
  emitted : t'.emitted = t.emitted
  written : ∃ c, t'.written = t.written ++ [c]
  nextRef : t.nextRef ≤ t'.nextRef

theorem FeedWriter.Wrote.length {t t' : FeedWriter} (h : t.Wrote t') :
    t'.written.length = t.written.length + 1 := by
  obtain ⟨c, hwritten⟩ := h.written
  rw [hwritten, List.length_append, List.length_singleton]

theorem FeedWriter.Wrote.advance_emitted {t t' : FeedWriter} (h : t.Wrote t') (elapsed : Nat) :
    (t'.advance elapsed).emitted = t.emitted + 1 := congrArg (· + 1) h.emitted

/-- One message written for each counted, again once the message is counted. -/
theorem FeedWriter.Wrote.advance_length {t t' : FeedWriter} (h : t.Wrote t')
    (hlength : t.written.length = t.emitted) (elapsed : Nat) :
    (t'.advance elapsed).written.length = (t'.advance elapsed).emitted := by
  rw [h.advance_emitted, ← hlength]
  exact h.length

namespace FeedWriter.Ok

variable {t : FeedWriter} {locate : Nat} {body : ChosenBody}

theorem empty : FeedWriter.Ok {} :=
  ⟨le_rfl, le_rfl, List.nodup_nil, by simp [chosenRefs], by simp, by simp⟩

theorem fits_write (h : t.Ok) (hroom : t.emitted < 1000000) (hlocate : locate < 2 ^ 16)
    (hfits : body.Fits) : ∀ c ∈ t.written ++ [⟨locate, t.ts, body⟩], c.Fits := by
  intro c hc
  rcases List.mem_append.mp hc with hc | hc
  · exact h.fits c hc
  · obtain rfl := List.mem_singleton.mp hc
    have hts := h.ts_le
    exact ⟨hlocate, by change t.ts < 2 ^ 48; omega, hfits⟩

theorem modest_write (h : t.Ok) (hmodest : body.Modest) :
    ∀ c ∈ t.written ++ [⟨locate, t.ts, body⟩], c.body.Modest := by
  intro c hc
  rcases List.mem_append.mp hc with hc | hc
  · exact h.modest c hc
  · obtain rfl := List.mem_singleton.mp hc
    exact hmodest

theorem write (h : t.Ok) (hroom : t.emitted < 1000000) (hlocate : locate < 2 ^ 16)
    (hfits : body.Fits) (hmodest : body.Modest) (hnew : body.newRef = none) :
    t.Wrote (t.write locate body) := by
  have hrefs : chosenRefs (t.written ++ [⟨locate, t.ts, body⟩]) = chosenRefs t.written := by
    rw [chosenRefs_concat, hnew, Option.toList_none, List.append_nil]
  refine ⟨⟨h.ts_le, ?_, ?_, ?_, h.fits_write hroom hlocate hfits, h.modest_write hmodest⟩, rfl,
    ⟨_, rfl⟩, le_rfl⟩
  · have hle := h.nextRef_le
    change t.nextRef ≤ (t.written ++ [_]).length + 1
    rw [List.length_append, List.length_singleton]
    omega
  · change (chosenRefs (t.written ++ [⟨locate, t.ts, body⟩])).Nodup
    rw [hrefs]
    exact h.refs
  · change ∀ ref ∈ chosenRefs (t.written ++ [⟨locate, t.ts, body⟩]), ref < t.nextRef
    rw [hrefs]
    exact h.refs_lt

/-- A new order takes the next reference, which nothing written before has. -/
theorem writeNew (h : t.Ok) (hroom : t.emitted < 1000000) (hlocate : locate < 2 ^ 16)
    (hfits : body.Fits) (hmodest : body.Modest) (hnew : body.newRef = some t.nextRef) :
    t.Wrote (t.takeRef.write locate body) := by
  have hrefs : chosenRefs (t.written ++ [⟨locate, t.ts, body⟩]) =
      chosenRefs t.written ++ [t.nextRef] := by
    rw [chosenRefs_concat, hnew, Option.toList_some]
  refine ⟨⟨h.ts_le, ?_, ?_, ?_, h.fits_write hroom hlocate hfits, h.modest_write hmodest⟩, rfl,
    ⟨_, rfl⟩, Nat.le_succ _⟩
  · have hle := h.nextRef_le
    change t.nextRef + 1 ≤ (t.written ++ [_]).length + 1
    rw [List.length_append, List.length_singleton]
    omega
  · change (chosenRefs (t.written ++ [⟨locate, t.ts, body⟩])).Nodup
    rw [hrefs, List.nodup_append]
    refine ⟨h.refs, List.nodup_singleton _, fun ref href ref' href' => ?_⟩
    rw [List.mem_singleton.mp href']
    exact (h.refs_lt ref href).ne
  · change ∀ ref ∈ chosenRefs (t.written ++ [⟨locate, t.ts, body⟩]), ref < t.nextRef + 1
    rw [hrefs]
    intro ref href
    rcases List.mem_append.mp href with href | href
    · exact (h.refs_lt ref href).trans (Nat.lt_succ_self _)
    · rw [List.mem_singleton.mp href]
      exact Nat.lt_succ_self _

theorem advance (h : t.Ok) {elapsed : Nat} (helapsed : elapsed ≤ 1000) :
    (t.advance elapsed).Ok := by
  refine ⟨?_, h.nextRef_le, h.refs, h.refs_lt, h.fits, h.modest⟩
  have hts := h.ts_le
  change t.ts + elapsed ≤ 34200 * 1000000000 + 1000 * (t.emitted + 1)
  omega

end FeedWriter.Ok

/-! ### The stream of a sound writer -/

theorem Chosen.introduced_message (c : Chosen) :
    c.record.message.bookOp?.bind BookOp.introduced =
      c.body.newOrder.map fun e => (UInt64.ofNat e.1, UInt32.ofNat e.2) := by
  obtain ⟨locate, ts, body⟩ := c
  cases body <;> rfl

theorem introduced_messages (written : List Chosen) :
    ((written.map fun c => c.record.message).filterMap Message.bookOp?).filterMap
        BookOp.introduced =
      (written.filterMap fun c => c.body.newOrder).map
        fun e => (UInt64.ofNat e.1, UInt32.ofNat e.2) := by
  rw [List.filterMap_filterMap, List.filterMap_map, List.map_filterMap]
  exact List.filterMap_congr fun c _ => c.introduced_message

namespace FeedWriter.Ok

variable {t : FeedWriter}

theorem nodup_introducedRefs (h : t.Ok) (hlength : t.written.length ≤ 1000000) :
    (introducedRefs
      ((t.written.map fun c => c.record.message).filterMap Message.bookOp?)).Nodup := by
  have hrefs : introducedRefs
      ((t.written.map fun c => c.record.message).filterMap Message.bookOp?) =
        (chosenRefs t.written).map UInt64.ofNat := by
    rw [introducedRefs, introduced_messages, chosenRefs, List.map_map, List.map_filterMap,
      List.map_filterMap]
    refine List.filterMap_congr fun c _ => ?_
    rw [ChosenBody.newRef, Option.map_map]
    rfl
  have hlt : ∀ ref ∈ chosenRefs t.written, ref < 2 ^ 64 := by
    intro ref href
    have hnext := h.nextRef_le
    have hlt := h.refs_lt ref href
    omega
  rw [hrefs]
  refine h.refs.map_on fun a ha b hb heq => ?_
  have htoNat := congrArg UInt64.toNat heq
  rwa [UInt64.toNat_ofNat_of_lt' (hlt a ha), UInt64.toNat_ofNat_of_lt' (hlt b hb)] at htoNat

theorem introducedShares_le (h : t.Ok) :
    introducedShares ((t.written.map fun c => c.record.message).filterMap Message.bookOp?) ≤
      t.written.length * 2549 := by
  rw [introducedShares, introduced_messages, List.map_map]
  refine (List.sum_le_card_nsmul _ 2549 fun shares hmem => ?_).trans ?_
  · obtain ⟨e, he, rfl⟩ := List.mem_map.mp hmem
    obtain ⟨c, hc, hnew⟩ := List.mem_filterMap.mp he
    have hmodest := h.modest c hc
    have hle : e.2 ≤ 2549 := by
      obtain ⟨locate, ts, body⟩ := c
      cases body <;> cases hnew
      · exact hmodest.2
      · exact hmodest
    change (UInt32.ofNat e.2).toNat ≤ 2549
    rw [UInt32.toNat_ofNat']
    exact (Nat.mod_le _ _).trans hle
  · rw [List.length_map, smul_eq_mul]
    exact Nat.mul_le_mul_right _ (List.length_filterMap_le _ _)

theorem realSides (h : t.Ok) :
    RealSides ((t.written.map fun c => c.record.message).filterMap Message.bookOp?) := by
  intro op hop
  obtain ⟨m, hm, hsome⟩ := List.mem_filterMap.mp hop
  obtain ⟨c, hc, rfl⟩ := List.mem_map.mp hm
  have hmodest := h.modest c hc
  obtain ⟨locate, ts, body⟩ := c
  cases body <;> cases hsome
  · exact fun _ => hmodest.1
  all_goals trivial

theorem freshFeed (h : t.Ok) (hlength : t.written.length ≤ 1000000) :
    FreshFeed ((t.written.map fun c => c.record.message).filterMap Message.bookOp?) where
  refs := h.nodup_introducedRefs hlength
  sides := h.realSides
  shares := by
    have hle := h.introducedShares_le
    omega
  length := by
    have hle := List.length_filterMap_le Message.bookOp?
      (t.written.map fun c => c.record.message)
    rw [List.length_map] at hle
    omega

end FeedWriter.Ok

/-- A stream that decodes to the values chosen, `nMessages` of them, and keeps every book of a set
consistent. -/
def LosslessFeed (chosen : List Chosen) (stream : List UInt8) (nMessages : Nat) : Prop :=
  ∃ messages, forEachFramedMessage stream = some (messages, stream.length) ∧
    messages.length = nMessages ∧ List.Forall₂ Chosen.Describes chosen messages ∧
    (introducedRefs (messages.filterMap Message.bookOp?)).Nodup ∧
    ∀ pre, pre <+: messages → ∀ locate book,
      (pre.foldl BookSet.apply {}).book locate = some book → book.invariantOk = true

theorem FeedWriter.Ok.losslessFeed {t : FeedWriter} {nMessages : Nat} (h : t.Ok)
    (hlength : t.written.length = nMessages) (hbound : nMessages ≤ 1000000) :
    LosslessFeed t.written t.output nMessages := by
  have hfresh := h.freshFeed (hlength.trans_le hbound)
  refine ⟨_, forEachFramedMessage_output h.fits, by rw [List.length_map, hlength], ?_, hfresh.refs,
    hfresh.bookSet_invariantOk⟩
  rw [List.forall₂_map_right_iff, List.forall₂_same]
  exact fun c hc => Chosen.describes_message (h.fits c hc)

end HftOrderbook
