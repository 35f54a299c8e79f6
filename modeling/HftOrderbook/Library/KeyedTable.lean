import Mathlib.Algebra.BigOperators.Group.Finset.Basic
import Mathlib.Algebra.Order.BigOperators.Group.Finset
import Mathlib.Data.List.AList
import Mathlib.Tactic

/-!
# Tables with an entry for each key

Items come in one by one, each with a key or without one, and an item with a key brings the entry of
its key up to date. What a key has in the end is a fold over the items of that key alone.
-/

namespace KeyedTable

variable {α κ β : Type*} [DecidableEq κ]

section Update

variable (key : α → Option κ) (step : Option β → α → β)

def update (table : AList fun _ : κ => β) (a : α) : AList fun _ : κ => β :=
  match key a with
  | none => table
  | some k => table.insert k (step (table.lookup k) a)

def grouped (items : List α) (k : κ) : List α := items.filter fun a => key a = some k

theorem lookup_update (table : AList fun _ : κ => β) (a : α) (k : κ) :
    (update key step table a).lookup k =
      if key a = some k then some (step (table.lookup k) a) else table.lookup k := by
  unfold update
  cases hkey : key a with
  | none => rfl
  | some k' =>
      by_cases hk : k' = k
      · subst hk
        rw [if_pos rfl]
        exact AList.lookup_insert _
      · rw [if_neg fun h => hk (Option.some.inj h)]
        exact AList.lookup_insert_ne (Ne.symm hk)

theorem lookup_foldl_update (items : List α) (table : AList fun _ : κ => β) (k : κ) :
    (items.foldl (update key step) table).lookup k =
      (grouped key items k).foldl (fun entry a => some (step entry a)) (table.lookup k) := by
  induction items generalizing table with
  | nil => rfl
  | cons a items ih =>
      rw [List.foldl_cons, ih, lookup_update]
      unfold grouped
      by_cases hkey : key a = some k
      · rw [if_pos hkey, List.filter_cons_of_pos (by simpa using hkey), List.foldl_cons]
      · rw [if_neg hkey, List.filter_cons_of_neg (by simpa using hkey)]

/-- Where the entry of a new key starts from a fixed value, a key has an entry if it has an item. -/
theorem lookup_foldl_update_empty (new : β) (next : β → α → β) (items : List α) (k : κ) :
    (items.foldl (update key fun entry a => next (entry.getD new) a) ∅).lookup k =
      if grouped key items k = [] then none else some ((grouped key items k).foldl next new) := by
  have hfold : ∀ (group : List α) (entry : β),
      group.foldl (fun entry a => some (next (entry.getD new) a)) (some entry) =
        some (group.foldl next entry) := by
    intro group
    induction group with
    | nil => exact fun entry => rfl
    | cons a group ih => exact fun entry => ih (next entry a)
  rw [lookup_foldl_update, AList.lookup_empty]
  cases grouped key items k with
  | nil => rfl
  | cons a group =>
      rw [if_neg (List.cons_ne_nil a group)]
      exact hfold group (next new a)

end Update

/-! ### Counting over the entries -/

theorem length_entries (table : AList fun _ : κ => β) :
    table.entries.length = table.keys.toFinset.card := by
  rw [List.toFinset_card_of_nodup table.keys_nodup]
  exact (List.length_map _).symm

theorem sum_entries (table : AList fun _ : κ => β) (f : β → Nat) :
    (table.entries.map fun entry => f entry.2).sum =
      ∑ k ∈ table.keys.toFinset, (table.lookup k).elim 0 f := by
  rw [List.sum_toFinset _ table.keys_nodup]
  change _ = ((table.entries.map Sigma.fst).map _).sum
  rw [List.map_map]
  refine congrArg List.sum (List.map_congr_left fun entry hentry => ?_)
  have hlookup : table.lookup entry.1 = some entry.2 := AList.mem_lookup_iff.mpr hentry
  rw [Function.comp_apply, hlookup]
  rfl

end KeyedTable
