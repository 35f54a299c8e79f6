import HftOrderbook.Itch.Messages
import HftOrderbook.Library.LengthPrefix

/-!
# The message decoder

Fields are assembled byte by byte in network order. Every read is checked: a reader is `none` where
the source would read outside `buf[0 .. len)`. `decode` itself is `some none` where the source
returns `false`, and no input makes it read outside.
-/

namespace HftOrderbook

/-! ### Field readers -/

def rd16 (buf : List UInt8) (i : Nat) : Option UInt16 := do
  let b₀ ← buf[i]?
  let b₁ ← buf[i + 1]?
  some ((b₀.toUInt16 <<< 8) ||| b₁.toUInt16)

def rd32 (buf : List UInt8) (i : Nat) : Option UInt32 := do
  let b₀ ← buf[i]?
  let b₁ ← buf[i + 1]?
  let b₂ ← buf[i + 2]?
  let b₃ ← buf[i + 3]?
  some ((b₀.toUInt32 <<< 24) ||| (b₁.toUInt32 <<< 16) ||| (b₂.toUInt32 <<< 8) ||| b₃.toUInt32)

def rdBe (buf : List UInt8) (i n : Nat) : Option UInt64 :=
  (List.range n).foldlM (fun v k => (buf[i + k]?).map fun b => (v <<< 8) ||| b.toUInt64) 0

def rd48 (buf : List UInt8) (i : Nat) : Option UInt64 := rdBe buf i 6

def rd64 (buf : List UInt8) (i : Nat) : Option UInt64 := rdBe buf i 8

def rdPrice (buf : List UInt8) (i : Nat) : Option Price := (rd32 buf i).map fun p => (p.toNat : Int)

/-- `static_cast<Side>(buf[i])`: no byte is refused. -/
def rdSide (buf : List UInt8) (i : Nat) : Option Side := (buf[i]?).map Side.mk

/-- `std::memcpy(out.stock, buf + i, 8)`. -/
def rdStock (buf : List UInt8) (i : Nat) : Option (List UInt8) := LengthPrefix.slice buf i 8

/-! ### Message lengths -/

def messageLength (type : Char) : Nat :=
  match type with
  | 'S' => 12
  | 'R' => 39
  | 'H' => 25
  | 'Y' => 20
  | 'L' => 26
  | 'V' => 35
  | 'W' => 12
  | 'K' => 28
  | 'J' => 35
  | 'h' => 21
  | 'A' => 36
  | 'F' => 40
  | 'E' => 31
  | 'C' => 36
  | 'X' => 23
  | 'D' => 19
  | 'U' => 35
  | 'P' => 44
  | 'Q' => 40
  | 'B' => 19
  | 'I' => 50
  | 'N' => 20
  | 'O' => 48
  | _ => 0

/-! ### Decoding -/

/-- The fields that an Add, an Add with MPID and a Trade have at the same offsets. -/
def decodeAdd (buf : List UInt8) (out : Message) : Option Message := do
  let orderRef ← rd64 buf 11
  let side ← rdSide buf 19
  let shares ← rd32 buf 20
  let stock ← rdStock buf 24
  let price ← rdPrice buf 32
  some { out with orderRef, side, shares, stock, price }

def decodeExecuted (buf : List UInt8) (out : Message) : Option Message := do
  let orderRef ← rd64 buf 11
  let shares ← rd32 buf 19
  let matchNumber ← rd64 buf 23
  some { out with orderRef, shares, matchNumber }

/-- `if (len < n) return false`, and the rest of the case otherwise. -/
def atLeast (n : Nat) (buf : List UInt8) (fields : Option Message) : Option (Option Message) :=
  if buf.length < n then some none else fields.map some

def decodeType (buf : List UInt8) (type : Char) (out : Message) : Option (Option Message) :=
  match type with
  | 'S' => atLeast 12 buf do
      let eventCode ← buf[11]?
      some { out with type := .systemEvent, eventCode }
  | 'R' => atLeast 39 buf do
      let stock ← rdStock buf 11
      some { out with type := .stockDirectory, stock }
  | 'A' => atLeast 36 buf (decodeAdd buf { out with type := .addOrder })
  | 'F' => atLeast 40 buf (decodeAdd buf { out with type := .addOrderMpid })
  | 'E' => atLeast 31 buf (decodeExecuted buf { out with type := .orderExecuted })
  | 'C' => atLeast 36 buf do
      let out ← decodeExecuted buf { out with type := .orderExecutedWithPrice }
      let price ← rdPrice buf 32
      some { out with price }
  | 'X' => atLeast 23 buf do
      let orderRef ← rd64 buf 11
      let shares ← rd32 buf 19
      some { out with type := .orderCancel, orderRef, shares }
  | 'D' => atLeast 19 buf do
      let orderRef ← rd64 buf 11
      some { out with type := .orderDelete, orderRef }
  | 'U' => atLeast 35 buf do
      let orderRef ← rd64 buf 11
      let newOrderRef ← rd64 buf 19
      let shares ← rd32 buf 27
      let price ← rdPrice buf 31
      some { out with type := .orderReplace, orderRef, newOrderRef, shares, price }
  | 'P' => atLeast 44 buf do
      let out ← decodeAdd buf { out with type := .trade }
      let matchNumber ← rd64 buf 36
      some { out with matchNumber }
  | 'Q' => atLeast 40 buf do
      let stock ← rdStock buf 19
      let price ← rdPrice buf 27
      let matchNumber ← rd64 buf 31
      some { out with type := .crossTrade, stock, price, matchNumber }
  | _ => some none

def decode (buf : List UInt8) : Option (Option Message) :=
  if buf.length < 11 then some none
  else do
    let stockLocate ← rd16 buf 1
    let timestamp ← rd48 buf 5
    let type ← buf[0]?
    decodeType buf (Char.ofNat type.toNat) { stockLocate, timestamp }

def decoded (body : List UInt8) : Option Message := (decode body).join

/-! ### No read leaves the buffer -/

section InBounds

variable {buf : List UInt8} {i : Nat}

theorem isSome_bind {α β : Type} {x : Option α} {f : α → Option β} (hx : x.isSome)
    (hf : ∀ a, (f a).isSome) : (x >>= f).isSome := by
  obtain ⟨a, rfl⟩ := Option.isSome_iff_exists.mp hx
  exact hf a

theorem isSome_getElem? (h : i < buf.length) : (buf[i]?).isSome := by
  rw [List.getElem?_eq_getElem h]
  rfl

theorem rd16_isSome (h : i + 2 ≤ buf.length) : (rd16 buf i).isSome :=
  isSome_bind (isSome_getElem? (by omega)) fun _ =>
    isSome_bind (isSome_getElem? (by omega)) fun _ => rfl

theorem rd32_isSome (h : i + 4 ≤ buf.length) : (rd32 buf i).isSome :=
  isSome_bind (isSome_getElem? (by omega)) fun _ =>
    isSome_bind (isSome_getElem? (by omega)) fun _ =>
      isSome_bind (isSome_getElem? (by omega)) fun _ =>
        isSome_bind (isSome_getElem? (by omega)) fun _ => rfl

theorem rdBe_isSome {n : Nat} (h : i + n ≤ buf.length) : (rdBe buf i n).isSome := by
  induction n with
  | zero => rfl
  | succ n ih =>
      unfold rdBe at ih ⊢
      rw [List.range_succ, List.foldlM_append]
      refine isSome_bind (ih (by omega)) fun v => ?_
      rw [List.foldlM_cons, List.getElem?_eq_getElem (by omega)]
      rfl

theorem rdPrice_isSome (h : i + 4 ≤ buf.length) : (rdPrice buf i).isSome := by
  rw [rdPrice, Option.isSome_map]
  exact rd32_isSome h

theorem rdSide_isSome (h : i < buf.length) : (rdSide buf i).isSome := by
  rw [rdSide, Option.isSome_map]
  exact isSome_getElem? h

theorem rdStock_isSome (h : i + 8 ≤ buf.length) : (rdStock buf i).isSome := by
  rw [rdStock, LengthPrefix.slice, if_pos h]
  rfl

theorem decodeAdd_isSome (h : 36 ≤ buf.length) (out : Message) : (decodeAdd buf out).isSome :=
  isSome_bind (rdBe_isSome (by omega)) fun _ =>
    isSome_bind (rdSide_isSome (by omega)) fun _ =>
      isSome_bind (rd32_isSome (by omega)) fun _ =>
        isSome_bind (rdStock_isSome (by omega)) fun _ =>
          isSome_bind (rdPrice_isSome (by omega)) fun _ => rfl

theorem decodeExecuted_isSome (h : 31 ≤ buf.length) (out : Message) :
    (decodeExecuted buf out).isSome :=
  isSome_bind (rdBe_isSome (by omega)) fun _ =>
    isSome_bind (rd32_isSome (by omega)) fun _ =>
      isSome_bind (rdBe_isSome (by omega)) fun _ => rfl

theorem atLeast_isSome {n : Nat} {fields : Option Message} (h : n ≤ buf.length → fields.isSome) :
    (atLeast n buf fields).isSome := by
  unfold atLeast
  split_ifs with hlt
  · rfl
  · rw [Option.isSome_map]
    exact h (not_lt.mp hlt)

theorem decodeType_isSome (type : Char) (out : Message) :
    (decodeType buf type out).isSome := by
  unfold decodeType
  split
  case h_1 => exact atLeast_isSome fun h => isSome_bind (isSome_getElem? (by omega)) fun _ => rfl
  case h_2 => exact atLeast_isSome fun h => isSome_bind (rdStock_isSome (by omega)) fun _ => rfl
  case h_3 => exact atLeast_isSome fun h => decodeAdd_isSome (by omega) _
  case h_4 => exact atLeast_isSome fun h => decodeAdd_isSome (by omega) _
  case h_5 => exact atLeast_isSome fun h => decodeExecuted_isSome (by omega) _
  case h_6 =>
    exact atLeast_isSome fun h => isSome_bind (decodeExecuted_isSome (by omega) _) fun _ =>
      isSome_bind (rdPrice_isSome (by omega)) fun _ => rfl
  case h_7 =>
    exact atLeast_isSome fun h => isSome_bind (rdBe_isSome (by omega)) fun _ =>
      isSome_bind (rd32_isSome (by omega)) fun _ => rfl
  case h_8 => exact atLeast_isSome fun h => isSome_bind (rdBe_isSome (by omega)) fun _ => rfl
  case h_9 =>
    exact atLeast_isSome fun h => isSome_bind (rdBe_isSome (by omega)) fun _ =>
      isSome_bind (rdBe_isSome (by omega)) fun _ => isSome_bind (rd32_isSome (by omega)) fun _ =>
        isSome_bind (rdPrice_isSome (by omega)) fun _ => rfl
  case h_10 =>
    exact atLeast_isSome fun h => isSome_bind (decodeAdd_isSome (by omega) _) fun _ =>
      isSome_bind (rdBe_isSome (by omega)) fun _ => rfl
  case h_11 =>
    exact atLeast_isSome fun h => isSome_bind (rdStock_isSome (by omega)) fun _ =>
      isSome_bind (rdPrice_isSome (by omega)) fun _ =>
        isSome_bind (rdBe_isSome (by omega)) fun _ => rfl
  case h_12 => rfl

theorem decode_eq_some (buf : List UInt8) : decode buf = some (decoded buf) := by
  have htotal : (decode buf).isSome := by
    unfold decode
    split_ifs with hlt
    · rfl
    · exact isSome_bind (rd16_isSome (by omega)) fun _ =>
        isSome_bind (rdBe_isSome (by omega)) fun _ =>
          isSome_bind (isSome_getElem? (by omega)) fun _ => decodeType_isSome _ _
  obtain ⟨message, hmessage⟩ := Option.isSome_iff_exists.mp htotal
  rw [decoded, hmessage]
  rfl

end InBounds

end HftOrderbook
