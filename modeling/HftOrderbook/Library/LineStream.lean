import HftOrderbook.Library.LineProcesses

/-!
# Lines over a byte stream that may break

One direction of a connection. Texts that end in a newline are given to the sender; the bytes travel
and come out in pieces of any size; the receiver cuts them at the newlines. A send may get only a
part of its text out, and then the stream is broken: later sends do nothing, and what is still on
its way may be lost from some point on. The receiver still takes the lines that were sent, in order
and none twice, and an unfinished line at the end is the beginning of the next one.
-/

open LineProcesses

/-- `sent` and `taken` record the texts sent and the lines taken; nothing reads them. -/
structure LineStream where
  flight : List UInt8 := []
  buf : List UInt8 := []
  isOpen : Bool := true
  sent : List (List UInt8) := []
  taken : List (List UInt8) := []

namespace LineStream

/-- A send that gets `n` bytes out. -/
def send (s : LineStream) (text : List UInt8) (n : Nat) : LineStream :=
  if s.isOpen then
    { s with
      flight := s.flight ++ text.take n
      isOpen := decide (text.length ≤ n)
      sent := s.sent ++ [text] }
  else s

/-- Some pieces arrive, each of them decoded on its own. -/
def carry (s : LineStream) (decode : List UInt8 → List UInt8) (chunks : List (List UInt8)) :
    LineStream :=
  { s with
    flight := s.flight.drop chunks.flatten.length
    buf := s.buf ++ chunks.flatMap decode }

def receive (s : LineStream) : Option (List UInt8 × LineStream) :=
  (takeLine s.buf).map fun (line, rest) =>
    (line, { s with buf := rest, taken := s.taken ++ [line] })

def close (s : LineStream) : LineStream := { s with isOpen := false }

/-- Only the first `n` bytes of those that are on their way will arrive. -/
def lose (s : LineStream) (n : Nat) : LineStream := { s with flight := s.flight.take n }

section Send

variable {s : LineStream} {text : List UInt8} {n : Nat}

theorem send_closed (hclosed : s.isOpen = false) : s.send text n = s :=
  if_neg (by rw [hclosed]; decide)

theorem send_taken : (s.send text n).taken = s.taken := by
  unfold send
  split_ifs <;> rfl

theorem isOpen_of_send (hopen : (s.send text n).isOpen = true) : s.isOpen = true := by
  cases hs : s.isOpen with
  | true => rfl
  | false =>
      rw [send_closed hs, hs] at hopen
      exact absurd hopen Bool.false_ne_true

theorem send_sent (hopen : s.isOpen = true) : (s.send text n).sent = s.sent ++ [text] := by
  unfold send
  rw [if_pos hopen]

theorem mem_send {t : List UInt8} (ht : t ∈ (s.send text n).sent) : t ∈ s.sent ∨ t = text := by
  cases hs : s.isOpen with
  | true =>
      rw [send_sent hs] at ht
      exact (List.mem_append.mp ht).imp_right List.mem_singleton.mp
  | false =>
      rw [send_closed hs] at ht
      exact Or.inl ht

end Send

/-! ### What a stream keeps -/

/-- One line with its newline. -/
def IsText (text : List UInt8) : Prop := ∃ line, text = line ++ [0x0A] ∧ (0x0A : UInt8) ∉ line

structure Inv (s : LineStream) : Prop where
  texts : ∀ text ∈ s.sent, IsText text
  lines : ∀ line ∈ s.taken, (0x0A : UInt8) ∉ line
  bytes : s.taken.flatMap (· ++ [0x0A]) ++ (s.buf ++ s.flight) <+: s.sent.flatten
  whole : s.isOpen = true → s.taken.flatMap (· ++ [0x0A]) ++ (s.buf ++ s.flight) = s.sent.flatten

variable {s : LineStream}

theorem inv_empty : ({} : LineStream).Inv :=
  ⟨fun _ h => absurd h List.not_mem_nil, fun _ h => absurd h List.not_mem_nil, List.prefix_rfl,
    fun _ => rfl⟩

theorem Inv.send (h : s.Inv) {text : List UInt8} (htext : IsText text) (n : Nat) :
    (s.send text n).Inv := by
  unfold LineStream.send
  split_ifs with hopen
  · have hbytes : s.taken.flatMap (· ++ [0x0A]) ++ (s.buf ++ (s.flight ++ text.take n)) =
        s.sent.flatten ++ text.take n := by
      rw [← h.whole hopen]
      simp only [List.append_assoc]
    have hsent : (s.sent ++ [text]).flatten = s.sent.flatten ++ text := by simp
    refine ⟨fun t ht => ?_, h.lines, ?_, fun hall => ?_⟩
    · rcases List.mem_append.mp ht with ht | ht
      · exact h.texts t ht
      · exact List.mem_singleton.mp ht ▸ htext
    · dsimp only
      rw [hbytes, hsent, List.prefix_append_right_inj]
      exact List.take_prefix n text
    · dsimp only
      rw [hbytes, hsent, List.take_of_length_le (of_decide_eq_true hall)]
  · exact h

theorem Inv.carry (h : s.Inv) {decode : List UInt8 → List UInt8} {chunks : List (List UInt8)}
    (hflight : chunks.flatten <+: s.flight) (hdecode : ∀ chunk ∈ chunks, decode chunk = chunk) :
    (s.carry decode chunks).Inv := by
  have hsame : chunks.flatMap decode = chunks.flatten := by
    rw [List.flatMap_def, List.map_congr_left hdecode, List.map_id']
  have hbytes : s.buf ++ chunks.flatMap decode ++ s.flight.drop chunks.flatten.length =
      s.buf ++ s.flight := by
    obtain ⟨rest, hrest⟩ := hflight
    rw [hsame, ← hrest, List.drop_left, List.append_assoc]
  refine ⟨h.texts, h.lines, ?_, fun hopen => ?_⟩
  · dsimp only [LineStream.carry]
    rw [hbytes]
    exact h.bytes
  · dsimp only [LineStream.carry]
    rw [hbytes]
    exact h.whole hopen

theorem Inv.receive (h : s.Inv) {line : List UInt8} {s' : LineStream}
    (hreceive : s.receive = some (line, s')) :
    s'.Inv ∧ s'.taken = s.taken ++ [line] ∧ s'.sent = s.sent ∧ s'.isOpen = s.isOpen := by
  obtain ⟨⟨line', rest⟩, htake, heq⟩ := Option.map_eq_some_iff.mp hreceive
  obtain ⟨rfl, rfl⟩ := Prod.mk.inj heq
  obtain ⟨hbuf, hline⟩ := takeLine_eq_some htake
  have hbytes : (s.taken ++ [line']).flatMap (· ++ [0x0A]) ++ (rest ++ s.flight) =
      s.taken.flatMap (· ++ [0x0A]) ++ (s.buf ++ s.flight) := by
    rw [hbuf]
    simp
  refine ⟨⟨h.texts, fun l hl => ?_, ?_, fun hopen => ?_⟩, rfl, rfl, rfl⟩
  · rcases List.mem_append.mp hl with hl | hl
    · exact h.lines l hl
    · exact List.mem_singleton.mp hl ▸ hline
  · dsimp only
    rw [hbytes]
    exact h.bytes
  · dsimp only
    rw [hbytes]
    exact h.whole hopen

theorem Inv.close (h : s.Inv) : s.close.Inv :=
  ⟨h.texts, h.lines, h.bytes, fun hopen => nomatch hopen⟩

theorem Inv.lose (h : s.Inv) (hclosed : s.isOpen = false) (n : Nat) : (s.lose n).Inv := by
  refine ⟨h.texts, h.lines, ?_, fun hopen => absurd (hopen.symm.trans hclosed) (by simp)⟩
  refine List.IsPrefix.trans ?_ h.bytes
  dsimp only [LineStream.lose]
  rw [List.prefix_append_right_inj, List.prefix_append_right_inj]
  exact List.take_prefix n s.flight

/-- The receiver gives up on a rest that no more will follow. -/
theorem Inv.dropRest (h : s.Inv) (hclosed : s.isOpen = false) (hflight : s.flight = []) :
    ({ s with buf := [] } : LineStream).Inv := by
  refine ⟨h.texts, h.lines, ?_, fun hopen => absurd (hopen.symm.trans hclosed) (by simp)⟩
  refine List.IsPrefix.trans ?_ h.bytes
  rw [List.prefix_append_right_inj, hflight, List.append_nil]
  exact List.nil_prefix

theorem Inv.mem_flight (h : s.Inv) {b : UInt8} (hb : b ∈ s.flight) : ∃ text ∈ s.sent, b ∈ text :=
  List.mem_flatten.mp (h.bytes.subset
    (List.mem_append_right _ (List.mem_append_right _ hb)))

/-! ### What arrives -/

/-- Whole lines at the front of a stream of texts are its first texts, and a rest without a newline
begins the next one. -/
theorem exists_of_prefix {texts : List (List UInt8)} (htexts : ∀ text ∈ texts, IsText text) :
    ∀ {lines : List (List UInt8)} {rest : List UInt8}, (∀ line ∈ lines, (0x0A : UInt8) ∉ line) →
      lines.flatMap (· ++ [0x0A]) ++ rest <+: texts.flatten →
      ∃ later, texts = lines.map (· ++ [0x0A]) ++ later ∧ rest <+: later.flatten := by
  induction texts with
  | nil =>
      intro lines rest _ hprefix
      have hnil := List.prefix_nil.mp hprefix
      cases lines with
      | nil => exact ⟨[], rfl, hprefix⟩
      | cons line lines => simp at hnil
  | cons text texts ih =>
      intro lines rest hlines hprefix
      cases lines with
      | nil => exact ⟨text :: texts, rfl, hprefix⟩
      | cons line lines =>
          obtain ⟨line', rfl, hline'⟩ := htexts text List.mem_cons_self
          obtain ⟨hline, hrestLines⟩ := List.forall_mem_cons.mp hlines
          obtain ⟨behind, hbehind⟩ := hprefix
          -- both sides begin with a line, so it is the same
          have hsplit : line ++ 0x0A :: (lines.flatMap (· ++ [0x0A]) ++ rest ++ behind) =
              line' ++ 0x0A :: texts.flatten := by simpa using hbehind
          have htake := takeLine_append hline (lines.flatMap (· ++ [0x0A]) ++ rest ++ behind)
          rw [hsplit, takeLine_append hline'] at htake
          obtain ⟨rfl, hrest⟩ := Prod.mk.inj (Option.some.inj htake)
          obtain ⟨later, rfl, hlater⟩ :=
            ih (fun t ht => htexts t (List.mem_cons_of_mem _ ht)) hrestLines ⟨behind, hrest.symm⟩
          exact ⟨later, rfl, hlater⟩

/-- The lines taken are the first ones sent. -/
theorem Inv.taken_prefix (h : s.Inv) : s.taken.map (· ++ [0x0A]) <+: s.sent := by
  obtain ⟨later, hsent, -⟩ := exists_of_prefix h.texts h.lines h.bytes
  exact ⟨later, hsent.symm⟩

/-- An unfinished line at the end is the beginning of the next text. -/
theorem Inv.unfinished (h : s.Inv) (hflight : s.flight = []) (hne : s.buf ≠ [])
    (hbuf : (0x0A : UInt8) ∉ s.buf) :
    ∃ text later, s.sent = s.taken.map (· ++ [0x0A]) ++ text :: later ∧ s.buf <+: text := by
  have hbytes := h.bytes
  rw [hflight, List.append_nil] at hbytes
  obtain ⟨later, hsent, hprefix⟩ := exists_of_prefix h.texts h.lines hbytes
  cases later with
  | nil => exact absurd (List.prefix_nil.mp hprefix) hne
  | cons text later =>
      refine ⟨text, later, hsent, ?_⟩
      rw [List.flatten_cons] at hprefix
      rcases List.prefix_or_prefix_of_prefix hprefix (List.prefix_append text later.flatten)
        with hle | hle
      · exact hle
      · obtain ⟨line, rfl, -⟩ := h.texts text (by rw [hsent]; simp)
        exact absurd (hle.subset (by simp)) hbuf

/-- With nothing under way on an unbroken stream, every text has been taken. -/
theorem Inv.taken_eq (h : s.Inv) (hopen : s.isOpen = true) (hflight : s.flight = [])
    (hbuf : (0x0A : UInt8) ∉ s.buf) : s.taken.map (· ++ [0x0A]) = s.sent := by
  by_cases hne : s.buf = []
  · have hwhole := h.whole hopen
    rw [hflight, hne, List.append_nil, List.append_nil] at hwhole
    obtain ⟨later, hsent, -⟩ := exists_of_prefix h.texts h.lines h.bytes
    have hlater : later.flatten = [] := by
      rw [hsent, List.flatten_append, ← List.flatMap_def] at hwhole
      exact List.self_eq_append_right.mp hwhole
    cases later with
    | nil => exact (hsent.trans (List.append_nil _)).symm
    | cons text later =>
        obtain ⟨line, rfl, -⟩ := h.texts text (by rw [hsent]; simp)
        simp at hlater
  · obtain ⟨text, later, hsent, hle⟩ := h.unfinished hflight hne hbuf
    have hwhole := h.whole hopen
    rw [hflight, List.append_nil, hsent, List.flatten_append, ← List.flatMap_def,
      List.flatten_cons] at hwhole
    obtain ⟨line, rfl, -⟩ := h.texts text (by rw [hsent]; simp)
    have hmem : (0x0A : UInt8) ∈ s.buf := by
      rw [List.append_cancel_left hwhole]
      simp
    exact absurd hmem hbuf

end LineStream
