import Mathlib.Data.List.Basic
import Mathlib.Data.List.TakeWhile
import Mathlib.Tactic

/-!
# Binary search for the first element that fails a predicate

`lowerBound pred l` halves the range `[first, first + count)` until it is empty, reading one element
a round. On a list whose elements satisfy `pred` up to a point and fail it from there on, that point
is what it returns.
-/

namespace LowerBound

variable {α : Type*}

/-- One call searches the range of `count` elements from `first`. An element outside the list cannot
be probed while `first + count ≤ l.length`. -/
def search (pred : α → Bool) (l : List α) (first count : Nat) : Nat :=
  if _hcount : count = 0 then first
  else
    match l[first + count / 2]? with
    | none => first
    | some x =>
        if pred x then search pred l (first + count / 2 + 1) (count - (count / 2 + 1))
        else search pred l first (count / 2)
termination_by count

def lowerBound (pred : α → Bool) (l : List α) : Nat := search pred l 0 l.length

theorem search_eq_length {pred : α → Bool} {xs ys : List α} (hxs : ∀ x ∈ xs, pred x = true)
    (hys : ∀ y ∈ ys, pred y = false) :
    ∀ (count first : Nat), first ≤ xs.length → xs.length ≤ first + count →
      first + count ≤ (xs ++ ys).length → search pred (xs ++ ys) first count = xs.length := by
  intro count
  induction count using Nat.strong_induction_on with
  | _ count ih =>
      intro first hfirst hpoint hrange
      rw [search]
      split_ifs with hcount
      · omega
      · have hprobe : first + count / 2 < (xs ++ ys).length := by omega
        rw [List.getElem?_eq_getElem hprobe]
        by_cases hside : first + count / 2 < xs.length
        · have hpred : pred (xs ++ ys)[first + count / 2] = true := by
            rw [List.getElem_append_left hside]
            exact hxs _ (List.getElem_mem hside)
          simp only [hpred, if_true]
          exact ih _ (by omega) _ (by omega) (by omega) (by omega)
        · have hpred : pred (xs ++ ys)[first + count / 2] = false := by
            rw [List.getElem_append_right (by omega)]
            exact hys _ (List.getElem_mem _)
          simp only [hpred, Bool.false_eq_true, if_false]
          exact ih _ (by omega) _ hfirst (by omega) (by omega)

theorem lowerBound_eq_length {pred : α → Bool} {xs ys : List α} (hxs : ∀ x ∈ xs, pred x = true)
    (hys : ∀ y ∈ ys, pred y = false) : lowerBound pred (xs ++ ys) = xs.length :=
  search_eq_length hxs hys _ 0 (Nat.zero_le _) (by simp) (by simp)

/-- A list sorted for a relation that `pred` is closed under downwards splits at the first element
that fails `pred`. -/
theorem exists_split {r : α → α → Prop} (pred : α → Bool) {l : List α} (hsorted : l.Pairwise r)
    (hdown : ∀ a b, r a b → pred b = true → pred a = true) :
    ∃ xs ys, l = xs ++ ys ∧ (∀ x ∈ xs, pred x = true) ∧ ∀ y ∈ ys, pred y = false := by
  induction l with
  | nil => exact ⟨[], [], rfl, by simp, by simp⟩
  | cons a rest ih =>
      obtain ⟨hhead, htail⟩ := List.pairwise_cons.mp hsorted
      by_cases ha : pred a = true
      · obtain ⟨xs, ys, rfl, hxs, hys⟩ := ih htail
        exact ⟨a :: xs, ys, rfl, by simpa [ha] using hxs, hys⟩
      · refine ⟨[], a :: rest, rfl, by simp, fun y hy => ?_⟩
        rw [← Bool.not_eq_true]
        rcases List.mem_cons.mp hy with rfl | hy
        · exact ha
        · exact fun hpred => ha (hdown a y (hhead y hy) hpred)

theorem insertIdx_length_append (xs ys : List α) (a : α) :
    (xs ++ ys).insertIdx xs.length a = xs ++ a :: ys := by
  induction xs with
  | nil => rfl
  | cons x xs ih => simp [ih]

end LowerBound
