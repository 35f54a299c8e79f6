import HftOrderbook.Itch.Decoder

/-!
# The decoder and the length table

The lengths stand in the source twice, in the table of `message_length` and in the guards of
`decode`. They agree on every type that `decode` handles, and no field of a message lies behind its
length, so what a longer buffer holds there makes no difference.
-/

namespace HftOrderbook

/-! ### Which buffers are accepted -/

def handledTypes : List Char := ['S', 'R', 'A', 'F', 'E', 'C', 'X', 'D', 'U', 'P', 'Q']

/-- `static_cast<char>(buf[0])`. -/
def typeOf (b : UInt8) : Char := Char.ofNat b.toNat

section Guards

variable {buf : List UInt8} {type : Char} {out : Message}

theorem atLeast_eq_none_iff {n : Nat} {fields : Option Message} :
    atLeast n buf fields = some none ↔ buf.length < n := by
  unfold atLeast
  split_ifs with hlt
  · simp [hlt]
  · simp [hlt]

theorem decodeType_of_handled (htype : type ∈ handledTypes) :
    ∃ fields, decodeType buf type out = atLeast (messageLength type) buf fields := by
  simp only [handledTypes, List.mem_cons, List.not_mem_nil, or_false] at htype
  rcases htype with rfl | rfl | rfl | rfl | rfl | rfl | rfl | rfl | rfl | rfl | rfl <;>
    exact ⟨_, rfl⟩

theorem decodeType_of_not_handled (htype : type ∉ handledTypes) :
    decodeType buf type out = some none := by
  simp only [handledTypes, List.mem_cons, List.not_mem_nil, or_false, not_or] at htype
  unfold decodeType
  split <;> first | rfl | simp_all

end Guards

/-! ### What a message depends on -/

/-- The reader looks at the first `n` bytes only. -/
def ReadsOnly {α : Type} (n : Nat) (read : List UInt8 → α) : Prop :=
  ∀ buf, read (buf.take n) = read buf

namespace ReadsOnly

variable {α β : Type} {n i : Nat}

theorem const (a : α) : ReadsOnly n fun _ => a := fun _ => rfl

theorem map {read : List UInt8 → Option α} (h : ReadsOnly n read) (f : α → β) :
    ReadsOnly n fun buf => (read buf).map f := fun buf => congrArg (Option.map f) (h buf)

theorem bind {read : List UInt8 → Option α} {next : α → List UInt8 → Option β}
    (h : ReadsOnly n read) (hnext : ∀ a, ReadsOnly n (next a)) :
    ReadsOnly n fun buf => read buf >>= fun a => next a buf := by
  intro buf
  change (read (buf.take n)).bind (fun a => next a (buf.take n)) = (read buf).bind _
  rw [h buf]
  exact congrArg (Option.bind (read buf)) (funext fun a => hnext a buf)

theorem byte (hi : i < n) : ReadsOnly n fun buf : List UInt8 => buf[i]? :=
  fun _ => List.getElem?_take_of_lt hi

theorem rd16 (hi : i + 2 ≤ n) : ReadsOnly n fun buf => rd16 buf i :=
  bind (byte (by omega)) fun _ => bind (byte (by omega)) fun _ => const _

theorem rd32 (hi : i + 4 ≤ n) : ReadsOnly n fun buf => rd32 buf i :=
  bind (byte (by omega)) fun _ => bind (byte (by omega)) fun _ =>
    bind (byte (by omega)) fun _ => bind (byte (by omega)) fun _ => const _

theorem rdBe {k : Nat} (hi : i + k ≤ n) : ReadsOnly n fun buf => rdBe buf i k := by
  intro buf
  induction k with
  | zero => rfl
  | succ k ih =>
      have hbefore := ih (by omega)
      unfold HftOrderbook.rdBe at hbefore ⊢
      have hbyte : (buf.take n)[i + k]? = buf[i + k]? := byte (by omega) buf
      simp only [List.range_succ, List.foldlM_append, List.foldlM_cons] at hbefore ⊢
      rw [hbefore, hbyte]
      rfl

theorem rdPrice (hi : i + 4 ≤ n) : ReadsOnly n fun buf => rdPrice buf i := (rd32 hi).map _

theorem rdSide (hi : i < n) : ReadsOnly n fun buf => rdSide buf i := (byte hi).map _

theorem rdStock (hi : i + 8 ≤ n) : ReadsOnly n fun buf => rdStock buf i := by
  intro buf
  have hwhole : i + 8 ≤ (buf.take n).length ↔ i + 8 ≤ buf.length := by
    rw [List.length_take]
    omega
  simp only [HftOrderbook.rdStock, LengthPrefix.slice, hwhole, List.drop_take, List.take_take]
  rw [min_eq_left (by omega)]

theorem atLeast {m : Nat} {fields : List UInt8 → Option Message} (hm : m ≤ n)
    (h : ReadsOnly n fields) : ReadsOnly n fun buf => atLeast m buf (fields buf) := by
  intro buf
  have hshort : (buf.take n).length < m ↔ buf.length < m := by
    rw [List.length_take]
    omega
  simp only [HftOrderbook.atLeast, hshort, h buf]

theorem decodeAdd (hn : 36 ≤ n) (out : Message) : ReadsOnly n fun buf => decodeAdd buf out :=
  bind (rdBe (by omega)) fun _ => bind (rdSide (by omega)) fun _ =>
    bind (rd32 (by omega)) fun _ => bind (rdStock (by omega)) fun _ =>
      bind (rdPrice (by omega)) fun _ => const _

theorem decodeExecuted (hn : 31 ≤ n) (out : Message) :
    ReadsOnly n fun buf => decodeExecuted buf out :=
  bind (rdBe (by omega)) fun _ => bind (rd32 (by omega)) fun _ =>
    bind (rdBe (by omega)) fun _ => const _

/-- No field of a message lies behind its length. -/
theorem decodeType {type : Char} (htype : type ∈ handledTypes) (out : Message) :
    ReadsOnly (messageLength type) fun buf => decodeType buf type out := by
  simp only [handledTypes, List.mem_cons, List.not_mem_nil, or_false] at htype
  rcases htype with rfl | rfl | rfl | rfl | rfl | rfl | rfl | rfl | rfl | rfl | rfl
  · exact atLeast le_rfl (bind (byte (by decide)) fun _ => const _)
  · exact atLeast le_rfl (bind (rdStock (by decide)) fun _ => const _)
  · exact atLeast le_rfl (decodeAdd (by decide) _)
  · exact atLeast le_rfl (decodeAdd (by decide) _)
  · exact atLeast le_rfl (decodeExecuted (by decide) _)
  · exact atLeast le_rfl (bind (decodeExecuted (by decide) _) fun _ =>
      bind (rdPrice (by decide)) fun _ => const _)
  · exact atLeast le_rfl (bind (rdBe (by decide)) fun _ => bind (rd32 (by decide)) fun _ => const _)
  · exact atLeast le_rfl (bind (rdBe (by decide)) fun _ => const _)
  · exact atLeast le_rfl (bind (rdBe (by decide)) fun _ => bind (rdBe (by decide)) fun _ =>
      bind (rd32 (by decide)) fun _ => bind (rdPrice (by decide)) fun _ => const _)
  · exact atLeast le_rfl (bind (decodeAdd (by decide) _) fun _ =>
      bind (rdBe (by decide)) fun _ => const _)
  · exact atLeast le_rfl (bind (rdStock (by decide)) fun _ => bind (rdPrice (by decide)) fun _ =>
      bind (rdBe (by decide)) fun _ => const _)

end ReadsOnly

/-! ### The whole decoder -/

/-- `decode` once the type is known. -/
def decodeAs (type : Char) (buf : List UInt8) : Option (Option Message) :=
  if buf.length < 11 then some none
  else do
    let stockLocate ← rd16 buf 1
    let timestamp ← rd48 buf 5
    decodeType buf type { stockLocate, timestamp }

theorem decode_cons (b : UInt8) (rest : List UInt8) :
    decode (b :: rest) = decodeAs (typeOf b) (b :: rest) := rfl

theorem lt_messageLength {type : Char} (htype : type ∈ handledTypes) : 11 < messageLength type := by
  have hall : handledTypes.all (fun type => decide (11 < messageLength type)) = true := by decide
  exact of_decide_eq_true (List.all_eq_true.mp hall type htype)

theorem readsOnly_decodeAs {type : Char} (htype : type ∈ handledTypes) :
    ReadsOnly (messageLength type) (decodeAs type) := by
  intro buf
  have hlt := lt_messageLength htype
  have hfields := ReadsOnly.bind (ReadsOnly.rd16 (i := 1) (by omega)) fun locate =>
    ReadsOnly.bind (ReadsOnly.rdBe (i := 5) (k := 6) (by omega)) fun time =>
      ReadsOnly.decodeType htype { stockLocate := locate, timestamp := time }
  have hshort : (buf.take (messageLength type)).length < 11 ↔ buf.length < 11 := by
    rw [List.length_take]
    omega
  unfold decodeAs
  simp only [hshort]
  exact congrArg (fun fields => if buf.length < 11 then some none else fields) (hfields buf)

/-- The guards of `decode` are the lengths of the table, a short header included. -/
theorem decodeAs_eq_none_iff {type : Char} {buf : List UInt8} :
    decodeAs type buf = some none ↔ type ∈ handledTypes → buf.length < messageLength type := by
  unfold decodeAs
  split_ifs with hshort
  · refine iff_of_true rfl fun htype => ?_
    have hlt := lt_messageLength htype
    omega
  · have hheader : (rd16 buf 1).isSome ∧ (rd48 buf 5).isSome :=
      ⟨rd16_isSome (by omega), rdBe_isSome (by omega)⟩
    obtain ⟨locate, hlocate⟩ := Option.isSome_iff_exists.mp hheader.1
    obtain ⟨time, htime⟩ := Option.isSome_iff_exists.mp hheader.2
    rw [hlocate, htime]
    simp only [Option.bind_eq_bind, Option.bind_some]
    by_cases htype : type ∈ handledTypes
    · obtain ⟨fields, hfields⟩ := decodeType_of_handled htype
      rw [hfields, atLeast_eq_none_iff]
      exact ⟨fun hlt _ => hlt, fun hlt => hlt htype⟩
    · exact iff_of_true (decodeType_of_not_handled htype) fun h => absurd h htype

/-- A buffer is accepted exactly when it has the length of its type, and then decodes as its first
bytes of that number do. -/
theorem decode_accepts_iff (buf : List UInt8) :
    ((∃ message, decode buf = some (some message)) ↔
      ∃ b ∈ buf.head?, typeOf b ∈ handledTypes ∧ messageLength (typeOf b) ≤ buf.length) ∧
    ∀ b ∈ buf.head?, ∀ message, decode buf = some (some message) →
      ∀ longer : List UInt8,
        longer.take (messageLength (typeOf b)) = buf.take (messageLength (typeOf b)) →
        decode longer = some (some message) := by
  cases buf with
  | nil => simp [decode]
  | cons b rest =>
      have haccepts : (∃ message, decode (b :: rest) = some (some message)) ↔
          typeOf b ∈ handledTypes ∧ messageLength (typeOf b) ≤ (b :: rest).length := by
        have hrejects : decode (b :: rest) = some none ↔
            (typeOf b ∈ handledTypes → (b :: rest).length < messageLength (typeOf b)) := by
          rw [decode_cons]
          exact decodeAs_eq_none_iff
        simp only [decode_eq_some, Option.some.injEq] at hrejects ⊢
        rw [← Option.ne_none_iff_exists', Ne, hrejects, Classical.not_imp, not_lt]
      refine ⟨by simpa using haccepts, ?_⟩
      rintro c hc message hmessage longer hlonger
      obtain rfl : b = c := Option.some.inj hc
      obtain ⟨htype, hle⟩ := haccepts.mp ⟨message, hmessage⟩
      have hlt := lt_messageLength htype
      obtain ⟨n, hn⟩ : ∃ n, messageLength (typeOf b) = n + 1 := ⟨_, (Nat.succ_pred (by omega)).symm⟩
      obtain ⟨rest', rfl⟩ : ∃ rest', longer = b :: rest' := by
        rw [hn, List.take_succ_cons] at hlonger
        cases longer with
        | nil => cases hlonger
        | cons c rest' => exact ⟨rest', by rw [(List.cons.inj hlonger).1]⟩
      calc
        decode (b :: rest') = decodeAs (typeOf b) (b :: rest') := decode_cons b rest'
        _ = decodeAs (typeOf b) ((b :: rest').take (messageLength (typeOf b))) :=
          (readsOnly_decodeAs htype (b :: rest')).symm
        _ = decodeAs (typeOf b) ((b :: rest).take (messageLength (typeOf b))) := by rw [hlonger]
        _ = decodeAs (typeOf b) (b :: rest) := readsOnly_decodeAs htype (b :: rest)
        _ = decode (b :: rest) := (decode_cons b rest).symm
        _ = some (some message) := hmessage

end HftOrderbook
