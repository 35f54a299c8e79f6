import HftOrderbook.Fix.ExecutionReport
import HftOrderbook.Proof.FixChecksum
import HftOrderbook.Proof.FixOrders

/-!
# Reports read back

The type of a message stands in front of every identifier, so none of them can make an order out of
a report. The other fields are found again exactly when no identifier ends its field, and then the
bytes of a report leave no doubt about what it says.
-/

namespace HftOrderbook.Fix

open ByteText Decimal

/-! ### Any message -/

section Encoded

variable {beginString msgType : List UInt8} (hbegin : SOH ∉ beginString) (htype : SOH ∉ msgType)
  (body : Message)

include hbegin htype

/-- What a body holds comes behind the type of the message. -/
theorem get_msgType_encode :
    ∃ m, parse (encode beginString msgType body) = some (true, m) ∧
      m.get Tag.MsgType = some msgType := by
  obtain ⟨middle, -, front, -, -, hfields⟩ := encode_eq_fields beginString msgType body
  have hlength : SOH ∉ numeral middle.length :=
    soh_not_mem_of_isDigit fun _ => isDigit_of_mem_numeral
  rw [hfields, parse_encodeFields, readBack_of_no_soh hbegin, readBack_of_no_soh hlength,
    readBack_of_no_soh htype]
  refine ⟨_, rfl, ?_⟩
  change Message.get ⟨(8, beginString) :: (9, numeral middle.length) :: (35, msgType) :: _⟩ _ = _
  rw [Message.get_cons, if_neg (by decide), Message.get_cons, if_neg (by decide), Message.get_cons,
    if_pos (by decide)]

theorem parse_encode_of_no_soh (hbody : ∀ f ∈ body.fields, SOH ∉ f.2) :
    ∃ length check, parse (encode beginString msgType body) =
      some (true, ⟨(8, beginString) :: (9, length) :: (35, msgType) ::
        (body.fields ++ [(10, check)])⟩) := by
  obtain ⟨middle, -, front, -, -, hfields⟩ := encode_eq_fields beginString msgType body
  refine ⟨numeral middle.length, padded 3 (checksum front).toNat, ?_⟩
  rw [hfields, parse_fields]
  · rfl
  · simp only [List.forall_mem_cons, List.forall_mem_append]
    exact ⟨hbegin, soh_not_mem_of_isDigit fun _ => isDigit_of_mem_numeral, htype, hbody,
      soh_not_mem_of_isDigit fun _ => isDigit_of_mem_padded,
      fun f hf => absurd hf List.not_mem_nil⟩

end Encoded

theorem Message.get_of_mem {fields : List (Int32 × List UInt8)}
    (hnodup : (fields.map Prod.fst).Nodup) {f : Int32 × List UInt8} (hf : f ∈ fields) :
    get ⟨fields⟩ f.1 = some f.2 := by
  induction fields with
  | nil => exact absurd hf List.not_mem_nil
  | cons g fields ih =>
      rw [List.map_cons, List.nodup_cons] at hnodup
      rw [get_cons]
      rcases List.mem_cons.mp hf with rfl | hf
      · exact if_pos rfl
      · have hne : g.1 ≠ f.1 := fun heq => hnodup.1 (heq ▸ List.mem_map_of_mem hf)
        exact (if_neg hne).trans (ih hnodup.2 hf)

theorem signedNumeral_injective : Function.Injective signedNumeral := by
  intro z z' heq
  have hend : ∀ b ∈ ([] : List UInt8).head?, isDigit b = false := fun b hb => by cases hb
  have hread := readInt_signedNumeral z hend
  rw [heq, readInt_signedNumeral z' hend] at hread
  exact (Prod.mk.inj (Option.some.inj hread)).1.symm

/-! ### Reports -/

section Reports

variable {Double : Type} [PriceText Double]

namespace Report

def identifiers (r : Report Double) : List (List UInt8) :=
  [r.sender, r.target, r.orderid, r.clordid, r.symbol]

/-- What is left to tell two reports apart is how their price is printed. -/
structure Same (r r' : Report Double) : Prop where
  args : r = { r' with avgpx := r.avgpx }
  avgpx : priceStr r.avgpx = priceStr r'.avgpx

end Report

theorem executionFields_eq (r : Report Double) : (executionFields r).fields =
    [(Tag.SenderCompID, r.sender), (Tag.TargetCompID, r.target),
      (Tag.MsgSeqNum, signedNumeral r.seq.toInt), (Tag.OrderID, r.orderid),
      (Tag.ClOrdID, r.clordid), (Tag.Symbol, r.symbol), (Tag.Side, [r.side.char]),
      (Tag.ExecType, [r.et.char]), (Tag.OrdStatus, [r.os.char]),
      (Tag.CumQty, signedNumeral r.cumqty.toInt), (Tag.LeavesQty, signedNumeral r.leavesqty.toInt),
      (Tag.AvgPx, priceStr r.avgpx)] := rfl

theorem ExecType.char_injective : Function.Injective ExecType.char := by
  intro et et' heq
  cases et <;> cases et' <;> first | rfl | exact absurd heq (by decide)

theorem OrdStatus.char_injective : Function.Injective OrdStatus.char := by
  intro os os' heq
  cases os <;> cases os' <;> first | rfl | exact absurd heq (by decide)

theorem Side.char_injective : Function.Injective Side.char := by
  intro side side' heq
  cases side <;> cases side' <;> first | rfl | exact absurd heq (by decide)

theorem same_of_fields_eq {r r' : Report Double}
    (h : (executionFields r).fields = (executionFields r').fields) : r.Same r' := by
  simp only [executionFields_eq, List.cons.injEq, Prod.mk.injEq, true_and, and_true] at h
  obtain ⟨hsender, htarget, hseq, horderid, hclordid, hsymbol, hside, het, hos, hcumqty, hleavesqty,
    havgpx⟩ := h
  have hnumber {n n' : Int64} (heq : signedNumeral n.toInt = signedNumeral n'.toInt) : n = n' :=
    Int64.toInt_inj.mp (signedNumeral_injective heq)
  refine ⟨?_, havgpx⟩
  cases r
  cases r'
  simp only [Report.mk.injEq, and_true]
  exact ⟨hsender, htarget, hnumber hseq, horderid, hclordid, hsymbol, Side.char_injective hside,
    ExecType.char_injective het, OrdStatus.char_injective hos, hnumber hcumqty, hnumber hleavesqty⟩

theorem fields_eq_of_same {r r' : Report Double} (h : r.Same r') :
    executionFields r = executionFields r' := by
  obtain ⟨hargs, havgpx⟩ := h
  cases r
  cases r'
  simp only [Report.mk.injEq, and_true] at hargs
  obtain ⟨rfl, rfl, rfl, rfl, rfl, rfl, rfl, rfl, rfl, rfl, rfl⟩ := hargs
  simp only [executionFields, havgpx]

theorem soh_not_mem_executionFields (hprice : PriceText.Lawful Double) {r : Report Double}
    (hids : ∀ text ∈ r.identifiers, SOH ∉ text) : ∀ f ∈ (executionFields r).fields, SOH ∉ f.2 := by
  have hside : SOH ∉ [r.side.char] := by cases r.side <;> decide
  have het : SOH ∉ [r.et.char] := by cases r.et <;> decide
  have hos : SOH ∉ [r.os.char] := by cases r.os <;> decide
  have hprinted : SOH ∉ priceStr r.avgpx := fun hmem => hprice r.avgpx (List.mem_of_mem_take hmem)
  simp only [Report.identifiers, List.forall_mem_cons] at hids
  obtain ⟨hsender, htarget, horderid, hclordid, hsymbol, -⟩ := hids
  simp only [executionFields_eq, List.forall_mem_cons]
  exact ⟨hsender, htarget, soh_not_mem_signedNumeral _, horderid, hclordid, hsymbol, hside, het,
    hos, soh_not_mem_signedNumeral _, soh_not_mem_signedNumeral _, hprinted,
    fun f hf => absurd hf List.not_mem_nil⟩

theorem soh_not_mem_begin : SOH ∉ ascii "FIX.4.4" := by decide

theorem parse_executionReport (hprice : PriceText.Lawful Double) {r : Report Double}
    (hids : ∀ text ∈ r.identifiers, SOH ∉ text) :
    ∃ length check, parse (executionReport r) =
      some (true, ⟨(8, ascii "FIX.4.4") :: (9, length) :: (35, ascii "8") ::
        ((executionFields r).fields ++ [(10, check)])⟩) :=
  parse_encode_of_no_soh soh_not_mem_begin (by decide) (executionFields r)
    (soh_not_mem_executionFields hprice hids)

theorem nodup_reportTags (r : Report Double) (length check : List UInt8) :
    (((8, ascii "FIX.4.4") :: (9, length) :: (35, ascii "8") ::
      ((executionFields r).fields ++ [(10, check)])).map Prod.fst).Nodup := by
  change [(8 : Int32), 9, 35, 49, 56, 34, 37, 11, 55, 54, 150, 39, 14, 151, 6, 10].Nodup
  decide

theorem found_iff_plain (hprice : PriceText.Lawful Double) (r : Report Double) :
    (∃ m, parse (executionReport r) = some (true, m) ∧
      ∀ f ∈ (executionFields r).fields, m.get f.1 = some f.2) ↔
    ∀ text ∈ r.identifiers, SOH ∉ text := by
  constructor
  · rintro ⟨m, hparse, hfound⟩ text htext
    have hfield : ∃ t, (t, text) ∈ (executionFields r).fields := by
      simp only [Report.identifiers, List.mem_cons, List.not_mem_nil, or_false] at htext
      rcases htext with rfl | rfl | rfl | rfl | rfl
      · exact ⟨Tag.SenderCompID, by simp [executionFields_eq]⟩
      · exact ⟨Tag.TargetCompID, by simp [executionFields_eq]⟩
      · exact ⟨Tag.OrderID, by simp [executionFields_eq]⟩
      · exact ⟨Tag.ClOrdID, by simp [executionFields_eq]⟩
      · exact ⟨Tag.Symbol, by simp [executionFields_eq]⟩
    obtain ⟨t, ht⟩ := hfield
    obtain ⟨f, hf, rfl⟩ := Message.exists_of_get (hfound _ ht)
    exact soh_not_mem_of_parse hparse f hf
  · intro hids
    obtain ⟨length, check, hparse⟩ := parse_executionReport hprice hids
    refine ⟨_, hparse, fun f hf => Message.get_of_mem (nodup_reportTags r length check) ?_⟩
    simp [hf]

theorem same_of_executionReport_eq (hprice : PriceText.Lawful Double) {r r' : Report Double}
    (hids : ∀ text ∈ r.identifiers, SOH ∉ text) (hids' : ∀ text ∈ r'.identifiers, SOH ∉ text)
    (heq : executionReport r = executionReport r') : r.Same r' := by
  obtain ⟨length, check, hparse⟩ := parse_executionReport hprice hids
  obtain ⟨length', check', hparse'⟩ := parse_executionReport hprice hids'
  have hboth := hparse.symm.trans ((congrArg parse heq).trans hparse')
  simp only [Option.some.injEq, Prod.mk.injEq, true_and, Message.mk.injEq, List.cons.injEq]
    at hboth
  exact same_of_fields_eq (List.append_inj_left hboth.2 rfl)

end Reports

/-- A report passes the checksum and is never the bytes of an order, whatever the identifiers hold.
Every field is found as it was passed in exactly when no identifier has a SOH in it, and reports
without one that are the same bytes say the same. -/
theorem executionReport_read_back (Double : Type) [PriceText Double]
    (hprice : PriceText.Lawful Double) (r : Report Double) :
    validChecksum (executionReport r) = true ∧
    (∀ (sender target : List UInt8) (seq : Int64) (clordid symbol : List UInt8) (side : Side)
      (qty : Int64) (type : OrdType) (price : Double),
      newOrderSingle sender target seq clordid symbol side qty type price ≠ executionReport r) ∧
    ((∃ m, parse (executionReport r) = some (true, m) ∧
        ∀ f ∈ (executionFields r).fields, m.get f.1 = some f.2) ↔
      ∀ text ∈ r.identifiers, SOH ∉ text) ∧
    ((∀ text ∈ r.identifiers, SOH ∉ text) → ∀ r' : Report Double,
      (∀ text ∈ r'.identifiers, SOH ∉ text) → (executionReport r = executionReport r' ↔ r.Same r'))
    := by
  refine ⟨?_, ?_, found_iff_plain hprice r, fun hids r' hids' =>
    ⟨same_of_executionReport_eq hprice hids hids', fun hsame => ?_⟩⟩
  · obtain ⟨front, check, hencode, hlength, hdigits, hvalue⟩ :=
      encode_eq_mark (ascii "FIX.4.4") (ascii "8") (executionFields r)
    rw [executionReport, hencode, validChecksum_check hlength hdigits]
    exact hvalue
  · intro sender target seq clordid symbol side qty type price heq
    obtain ⟨m, hparse, hget⟩ := get_msgType_encode soh_not_mem_begin
      (show SOH ∉ ascii "8" by decide) (executionFields r)
    obtain ⟨m', hparse', hget'⟩ := get_msgType_encode soh_not_mem_begin
      (show SOH ∉ ascii "D" by decide)
      (newOrderFields sender target seq clordid symbol side qty type price)
    have hsame : m' = m := by
      have hboth := hparse'.symm.trans ((congrArg parse heq).trans hparse)
      exact (Prod.mk.inj (Option.some.inj hboth)).2
    rw [hsame, hget] at hget'
    exact absurd hget' (by decide)
  · rw [executionReport, executionReport, fields_eq_of_same hsame]

/-- A fill. -/
def sampleReport : Report Int where
  sender := ascii "EXCH"
  target := ascii "HFTOB"
  seq := 2
  orderid := ascii "OID-9"
  clordid := ascii "CLORD-1"
  symbol := ascii "AAPL"
  side := .buy
  et := .fill
  os := .filled
  cumqty := 100
  leavesqty := 0
  avgpx := 150

theorem executionReport_read_back_fill :
    ∃ m, parse (executionReport sampleReport) = some (true, m) ∧
      ∀ f ∈ (executionFields sampleReport).fields, m.get f.1 = some f.2 :=
  (executionReport_read_back Int wholeDollars_lawful sampleReport).2.2.1.mpr (by decide)

end HftOrderbook.Fix
