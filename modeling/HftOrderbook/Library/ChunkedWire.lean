import Mathlib.Data.Stream.Init
import Mathlib.Tactic

/-!
# A byte stream that arrives in chunks

A reader sees a fixed stream of bytes through calls that hand over some of the bytes asked for, or
run into a timeout, and say that the peer has closed once there is nothing left. How much each call
hands over and which calls time out is a script that the reader knows nothing about.
-/

namespace ChunkedWire

inductive Choice
  | timeout
  | chunk (size : Nat)

/-- The bytes that have not been handed over and what the next calls will do. -/
structure Wire where
  rest : List UInt8
  script : Stream' Choice

inductive Answer
  | data (bytes : List UInt8)
  | timedOut
  | closed

namespace Wire

/-- A call that asks for so many bytes. -/
def recv (w : Wire) (request : Nat) : Answer × Wire :=
  match w.script.head with
  | .timeout => (.timedOut, { w with script := w.script.tail })
  | .chunk size =>
      if w.rest = [] then (.closed, { w with script := w.script.tail })
      else
        let count := max 1 (min size request)
        (.data (w.rest.take count), ⟨w.rest.drop count, w.script.tail⟩)

/-- What a call can do: hand over some bytes, though not more than asked for, or nothing. -/
theorem recv_cases (w : Wire) {request : Nat} (hrequest : 0 < request) :
    (∃ bytes rest, w.recv request = (.data bytes, ⟨rest, w.script.tail⟩) ∧
      w.rest = bytes ++ rest ∧ bytes ≠ [] ∧ bytes.length ≤ request) ∨
    (w.recv request = (.timedOut, ⟨w.rest, w.script.tail⟩) ∧ w.script.head = .timeout) ∨
    (w.recv request = (.closed, ⟨[], w.script.tail⟩) ∧ w.rest = []) := by
  cases hchoice : w.script.head with
  | timeout =>
      refine Or.inr (Or.inl ⟨?_, rfl⟩)
      rw [recv, hchoice]
  | chunk size =>
      by_cases hempty : w.rest = []
      · refine Or.inr (Or.inr ⟨?_, hempty⟩)
        rw [recv, hchoice]
        exact (if_pos hempty).trans (by rw [hempty])
      · refine Or.inl ⟨w.rest.take (max 1 (min size request)),
          w.rest.drop (max 1 (min size request)), ?_, (List.take_append_drop _ _).symm, ?_, ?_⟩
        · rw [recv, hchoice]
          exact if_neg hempty
        · rw [Ne, List.take_eq_nil_iff, not_or]
          exact ⟨by omega, hempty⟩
        · rw [List.length_take]
          omega

theorem recv_data_lt {w w' : Wire} {request : Nat} (hrequest : 0 < request) {bytes : List UInt8}
    (h : w.recv request = (.data bytes, w')) : w'.rest.length < w.rest.length := by
  rcases w.recv_cases hrequest with ⟨bytes', rest, hdata, hrest, hne, -⟩ | ⟨hother, -⟩ | ⟨hother, -⟩
  · obtain ⟨-, rfl⟩ := Prod.mk.inj (h.symm.trans hdata)
    have hpos := List.length_pos_of_ne_nil hne
    rw [hrest, List.length_append]
    exact Nat.lt_add_of_pos_left hpos
  · cases h.symm.trans hother
  · cases h.symm.trans hother

end Wire

/-- No call runs into a timeout. -/
def Prompt (script : Stream' Choice) : Prop := ∀ n, script.get n ≠ .timeout

theorem Prompt.tail {script : Stream' Choice} (h : Prompt script) : Prompt script.tail :=
  fun n => h (n + 1)

/-- The timeouts never go on forever. -/
def Fair (script : Stream' Choice) : Prop := ∀ n, ∃ m, n ≤ m ∧ script.get m ≠ .timeout

theorem Fair.drop {script : Stream' Choice} (h : Fair script) (j : Nat) : Fair (script.drop j) := by
  intro n
  obtain ⟨m, hle, hm⟩ := h (j + n)
  refine ⟨m - j, by omega, ?_⟩
  rwa [Stream'.get_drop, Nat.add_sub_cancel' (by omega)]

end ChunkedWire
