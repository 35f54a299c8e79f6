import Mathlib.Data.List.Induction

/-!
# Histories

A run is the list of the calls made so far, and what holds of it holds after every prefix. The rule
below is the induction every such statement is proved by: a call extends a history that is still a
prefix of the whole.
-/

namespace Histories

theorem forall_prefix {α : Type*} {ops : List α} {Inv : List α → Prop} (hnil : Inv [])
    (hstep : ∀ pre op, pre ++ [op] <+: ops → Inv pre → Inv (pre ++ [op])) :
    ∀ pre, pre <+: ops → Inv pre := by
  intro pre
  induction pre using List.reverseRecOn with
  | nil => exact fun _ => hnil
  | append_singleton pre op ih =>
      intro hpre
      exact hstep pre op hpre (ih ((List.prefix_append pre [op]).trans hpre))

/-- The prefixes of a history are what it has reached after each number of calls. -/
theorem forall_prefix_iff {α : Type*} {ops : List α} {P : List α → Prop} :
    (∀ pre, pre <+: ops → P pre) ↔ ∀ i ≤ ops.length, P (ops.take i) := by
  constructor
  · exact fun h i _ => h _ (List.take_prefix i ops)
  · intro h pre hpre
    rw [List.prefix_iff_eq_take.mp hpre]
    exact h _ hpre.length_le

theorem forall_concat_prefix_iff {α : Type*} {ops : List α} {P : List α → α → Prop} :
    (∀ pre op, pre ++ [op] <+: ops → P pre op) ↔
      ∀ i (hi : i < ops.length), P (ops.take i) (ops.get ⟨i, hi⟩) := by
  constructor
  · intro h i hi
    refine h _ _ ?_
    rw [List.get_eq_getElem, List.take_append_getElem hi]
    exact List.take_prefix _ _
  · rintro h pre op ⟨rest, rfl⟩
    have hi : pre.length < (pre ++ [op] ++ rest).length := by
      simp only [List.length_append, List.length_singleton]
      omega
    simpa using h pre.length hi

theorem forall_prefix_filterMap_iff {α β : Type*} {f : α → Option β} {P : List β → Prop}
    (ops : List α) :
    (∀ pre, pre <+: ops → P (pre.filterMap f)) ↔ ∀ pre, pre <+: ops.filterMap f → P pre := by
  constructor
  · intro h pre hpre
    obtain ⟨pre', hpre', rfl⟩ := List.prefix_filterMap_iff.mp hpre
    exact h pre' hpre'
  · exact fun h pre hpre => h _ (hpre.filterMap f)

end Histories
