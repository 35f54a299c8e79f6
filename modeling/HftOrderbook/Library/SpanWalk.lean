import Mathlib.Order.Interval.Finset.Nat
import Mathlib.Tactic

/-!
# Walking over spans of positions

Spans are visited in any order, perhaps more than once, and the walk counts what it jumps over going
forward. A position between the first start and the end of some span that no span covers lies under
one of these jumps: so the count is never less than the number of such positions, although going
back may make it larger.
-/

namespace SpanWalk

/-- A span is its first position and the one behind its last. -/
def Covers (spans : List (Nat × Nat)) (p : Nat) : Prop := ∃ s ∈ spans, s.1 ≤ p ∧ p < s.2

instance (spans : List (Nat × Nat)) (p : Nat) : Decidable (Covers spans p) :=
  inferInstanceAs (Decidable (∃ s ∈ spans, s.1 ≤ p ∧ p < s.2))

/-- What a walk jumps over. -/
def skipped : List (Nat × Nat) → Nat
  | [] => 0
  | [_] => 0
  | s :: next :: rest => (next.1 - s.2) + skipped (next :: rest)

theorem skipped_cons_cons (s next : Nat × Nat) (rest : List (Nat × Nat)) :
    skipped (s :: next :: rest) = (next.1 - s.2) + skipped (next :: rest) := rfl

theorem skipped_le {bound : Nat} {spans : List (Nat × Nat)}
    (hbound : ∀ s ∈ spans, ∀ s' ∈ spans, s'.1 - s.2 ≤ bound) :
    skipped spans ≤ spans.length * bound := by
  induction spans with
  | nil => exact Nat.zero_le _
  | cons s spans ih =>
      cases spans with
      | nil => exact Nat.zero_le _
      | cons next rest =>
          have hrest := ih fun s hs s' hs' =>
            hbound s (List.mem_cons_of_mem _ hs) s' (List.mem_cons_of_mem _ hs')
          have hjump := hbound s List.mem_cons_self next (by simp)
          rw [skipped_cons_cons, List.length_cons, Nat.succ_mul]
          omega

/-- The positions from `first` up to `top` that no span covers. -/
def uncovered (spans : List (Nat × Nat)) (first top : Nat) : Finset Nat :=
  (Finset.Ico first top).filter fun p => ¬ Covers spans p

theorem mem_uncovered {spans : List (Nat × Nat)} {first top p : Nat} :
    p ∈ uncovered spans first top ↔ (first ≤ p ∧ p < top) ∧ ¬ Covers spans p := by
  rw [uncovered, Finset.mem_filter, Finset.mem_Ico]

/-- Where the first jump goes: over the positions up to the next span, and the rest of the walk
takes care of those behind. -/
theorem uncovered_cons_subset (s next : Nat × Nat) (rest : List (Nat × Nat)) (top : Nat) :
    uncovered (s :: next :: rest) s.1 top ⊆
      Finset.Ico s.2 next.1 ∪ uncovered (next :: rest) next.1 top := by
  intro p hp
  obtain ⟨⟨hfirst, htop⟩, hcovers⟩ := mem_uncovered.mp hp
  have hend : s.2 ≤ p := not_lt.mp fun hlt => hcovers ⟨s, List.mem_cons_self, hfirst, hlt⟩
  rw [Finset.mem_union, Finset.mem_Ico, mem_uncovered]
  by_cases hnext : p < next.1
  · exact Or.inl ⟨hend, hnext⟩
  · refine Or.inr ⟨⟨not_lt.mp hnext, htop⟩, ?_⟩
    rintro ⟨s', hs', hp'⟩
    exact hcovers ⟨s', List.mem_cons_of_mem _ hs', hp'⟩

theorem uncovered_eq_empty {s : Nat × Nat} {spans : List (Nat × Nat)} (hs : s ∈ spans) {top : Nat}
    (htop : top ≤ s.2) : uncovered spans s.1 top = ∅ := by
  refine Finset.eq_empty_of_forall_notMem fun p hp => ?_
  obtain ⟨⟨hfirst, hlt⟩, hcovers⟩ := mem_uncovered.mp hp
  exact hcovers ⟨s, hs, hfirst, by omega⟩

theorem card_uncovered_le_skipped {first : Nat × Nat} {rest : List (Nat × Nat)} {top : Nat}
    (htop : ∃ s ∈ first :: rest, top ≤ s.2) :
    (uncovered (first :: rest) first.1 top).card ≤ skipped (first :: rest) := by
  induction rest generalizing first with
  | nil =>
      obtain ⟨s, hs, htop⟩ := htop
      obtain rfl := List.mem_singleton.mp hs
      rw [uncovered_eq_empty List.mem_cons_self htop, Finset.card_empty]
      exact Nat.zero_le _
  | cons next rest ih =>
      by_cases hfirst : top ≤ first.2
      · rw [uncovered_eq_empty List.mem_cons_self hfirst, Finset.card_empty]
        exact Nat.zero_le _
      · have hlater : ∃ s ∈ next :: rest, top ≤ s.2 := by
          obtain ⟨s, hs, hle⟩ := htop
          rcases List.mem_cons.mp hs with rfl | hs
          · exact absurd hle hfirst
          · exact ⟨s, hs, hle⟩
        calc (uncovered (first :: next :: rest) first.1 top).card
            ≤ (Finset.Ico first.2 next.1 ∪ uncovered (next :: rest) next.1 top).card :=
              Finset.card_le_card (uncovered_cons_subset first next rest top)
          _ ≤ (Finset.Ico first.2 next.1).card + (uncovered (next :: rest) next.1 top).card :=
              Finset.card_union_le _ _
          _ ≤ (next.1 - first.2) + skipped (next :: rest) := by
              rw [Nat.card_Ico]
              exact Nat.add_le_add_left (ih hlater) _

end SpanWalk
