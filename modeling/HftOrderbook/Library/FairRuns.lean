import Mathlib.Data.Stream.Init
import Mathlib.Order.WellFounded
import Mathlib.Tactic

/-!
# Runs under a fair schedule

Threads move one at a time, in the order of an endless schedule. A thread that waits may move without
getting anywhere, so no measure falls with every move. It is enough that in every state some thread
is named whose move lowers a rank, and that no move of another raises the rank or, while it stays,
names a different thread.
-/

namespace FairRuns

variable {S T R : Type*}

/-- Every thread gets its turn again and again. -/
def Fair (schedule : Stream' T) : Prop := ∀ t n, ∃ m, n ≤ m ∧ schedule.get m = t

/-- The state after so many moves. -/
def after (step : S → T → S) (schedule : Stream' T) (s : S) (n : Nat) : S :=
  (schedule.take n).foldl step s

section

variable {step : S → T → S} {schedule : Stream' T} {s : S}

variable (step schedule s) in
theorem after_succ (n : Nat) :
    after step schedule s (n + 1) = step (after step schedule s n) (schedule.get n) := by
  rw [after, Stream'.take_succ', List.foldl_append]
  rfl

/-- What every move keeps holds all along. -/
theorem after_invariant {Inv : S → Prop} (hstep : ∀ s t, Inv s → Inv (step s t)) (hs : Inv s)
    (n : Nat) : Inv (after step schedule s n) := by
  induction n with
  | zero => exact hs
  | succ n ih =>
      rw [after_succ]
      exact hstep _ _ ih

end

/-- In a state that is not final, the helper lowers the rank, and until it moves the others change
neither the rank nor the helper unless they lower the rank themselves. -/
structure Progress [LT R] (step : S → T → S) (Inv Final : S → Prop) (rank : S → R)
    (helper : S → T) : Prop where
  inv : ∀ s t, Inv s → Inv (step s t)
  helps : ∀ s, Inv s → ¬ Final s → rank (step s (helper s)) < rank s
  waits : ∀ s t, Inv s → ¬ Final s →
    rank (step s t) < rank s ∨ rank (step s t) = rank s ∧ helper (step s t) = helper s

namespace Progress

variable [LT R] {step : S → T → S} {Inv Final : S → Prop} {rank : S → R} {helper : S → T}
  {schedule : Stream' T} {s : S}

/-- Up to the next move of the helper something is final, or the rank has fallen. -/
theorem next (h : Progress step Inv Final rank helper) (hs : Inv s) {n m : Nat} (hle : n ≤ m)
    (hturn : schedule.get m = helper (after step schedule s n)) :
    ∃ k, n ≤ k ∧ (Final (after step schedule s k) ∨
      rank (after step schedule s (k + 1)) < rank (after step schedule s n)) := by
  induction hd : m - n generalizing n with
  | zero =>
      obtain rfl : n = m := by omega
      by_cases hfinal : Final (after step schedule s n)
      · exact ⟨n, le_rfl, Or.inl hfinal⟩
      · refine ⟨n, le_rfl, Or.inr ?_⟩
        rw [after_succ, hturn]
        exact h.helps _ (after_invariant h.inv hs n) hfinal
  | succ d ih =>
      by_cases hfinal : Final (after step schedule s n)
      · exact ⟨n, le_rfl, Or.inl hfinal⟩
      rcases h.waits _ (schedule.get n) (after_invariant h.inv hs n) hfinal with
        hlt | ⟨hrank, hhelper⟩
      · refine ⟨n, le_rfl, Or.inr ?_⟩
        rwa [after_succ]
      · rw [← after_succ step schedule s n] at hrank hhelper
        obtain ⟨k, hk, hend⟩ := ih (n := n + 1) (by omega) (hhelper ▸ hturn) (by omega)
        exact ⟨k, by omega, hrank ▸ hend⟩

/-- Under every fair schedule a final state is reached. -/
theorem exists_final [WellFoundedLT R] (h : Progress step Inv Final rank helper) (hs : Inv s)
    (hfair : Fair schedule) : ∃ n, Final (after step schedule s n) := by
  suffices hall : ∀ r n, rank (after step schedule s n) = r →
      ∃ k, Final (after step schedule s k) from hall _ 0 rfl
  intro r
  induction r using WellFoundedLT.induction with
  | ind r ih =>
      rintro n rfl
      obtain ⟨m, hle, hturn⟩ := hfair (helper (after step schedule s n)) n
      obtain ⟨k, -, hfinal | hlt⟩ := h.next hs hle hturn
      · exact ⟨k, hfinal⟩
      · exact ih _ hlt (k + 1) rfl

end Progress

end FairRuns
