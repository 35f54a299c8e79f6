import Mathlib.Order.Defs.Unbundled
import Mathlib.Data.List.Nodup
import Mathlib.Tactic

/-!
# Finite maps kept in key order

A finite map is the list of its entries in the order `lt` puts their keys, the order an ordered
container iterates them in. The order of the entries is a field of the structure, so a map is
determined by its members: `entries_eq_of_mem_iff` is what turns agreement of answers into agreement
of whole iterations.
-/

structure OrderedMap (α β : Type*) (lt : α → α → Prop) where
  entries : List (α × β)
  sorted : entries.Pairwise fun a b => lt a.1 b.1

namespace OrderedMap

variable {α β : Type*} {lt : α → α → Prop}

def empty : OrderedMap α β lt := ⟨[], .nil⟩

def size (m : OrderedMap α β lt) : Nat := m.entries.length

section Entries

variable [DecidableEq α]

def find? (m : OrderedMap α β lt) (k : α) : Option β := m.entries.lookup k

def insertEntry (lt : α → α → Prop) [DecidableRel lt] (k : α) (v : β) :
    List (α × β) → List (α × β)
  | [] => [(k, v)]
  | e :: rest =>
      if lt k e.1 then (k, v) :: e :: rest
      else if e.1 = k then (k, v) :: rest
      else e :: insertEntry lt k v rest

def eraseEntry (k : α) (l : List (α × β)) : List (α × β) := l.filter fun e => e.1 ≠ k

theorem lookup_eq_some_iff_mem {l : List (α × β)} (hdistinct : (l.map Prod.fst).Nodup) {k : α}
    {v : β} : l.lookup k = some v ↔ (k, v) ∈ l := by
  induction l with
  | nil => simp
  | cons e rest ih =>
      rw [List.map_cons, List.nodup_cons] at hdistinct
      obtain ⟨key, value⟩ := e
      by_cases hkey : k = key
      · subst hkey
        have hnotMem : (k, v) ∉ rest := fun hmem => hdistinct.1 (List.mem_map.mpr ⟨_, hmem, rfl⟩)
        simp [hnotMem, eq_comm]
      · have hbeq : (k == key) = false := by simpa using hkey
        rw [List.lookup_cons, hbeq, ih hdistinct.2]
        simp [hkey]

omit [DecidableEq α] in
theorem nodup_keys_of_sorted [Std.Irrefl lt] {l : List (α × β)}
    (hsorted : l.Pairwise fun a b => lt a.1 b.1) : (l.map Prod.fst).Nodup := by
  refine List.Pairwise.map _ ?_ hsorted
  rintro a b hlt heq
  exact Std.Irrefl.irrefl b.1 (heq ▸ hlt)

variable [DecidableRel lt] [IsStrictTotalOrder α lt]

theorem mem_insertEntry {l : List (α × β)} (hsorted : l.Pairwise fun a b => lt a.1 b.1)
    {k k' : α} {v v' : β} :
    (k', v') ∈ insertEntry lt k v l ↔ (k' = k ∧ v' = v) ∨ (k' ≠ k ∧ (k', v') ∈ l) := by
  induction l with
  | nil => simp [insertEntry]
  | cons e rest ih =>
      obtain ⟨hhead, htail⟩ := List.pairwise_cons.mp hsorted
      unfold insertEntry
      split_ifs with hlt heq
      · -- every key of the list lies beyond `k`
        have hne : ∀ v'', (k, v'') ∉ e :: rest := by
          intro v'' hmem
          rcases List.mem_cons.mp hmem with heq | hmem
          · exact irrefl k (by simpa [← heq] using hlt)
          · exact irrefl k (trans_of lt hlt (hhead _ hmem))
        by_cases hkey : k' = k
        · subst hkey
          simp [hne]
        · simp [hkey]
      · subst heq
        have hnotMem : ∀ v'', (e.1, v'') ∉ rest := fun v'' hmem =>
          irrefl (r := lt) e.1 (hhead (e.1, v'') hmem)
        by_cases hkey : k' = e.1
        · subst hkey
          simp [hnotMem]
        · have hne : (k', v') ≠ e := fun h => hkey (congrArg Prod.fst h)
          simp [hkey, hne]
      · rw [List.mem_cons, ih htail, List.mem_cons]
        have hne : (k', v') = e → k' ≠ k := by
          rintro rfl
          exact heq
        tauto

theorem sorted_insertEntry {l : List (α × β)} (hsorted : l.Pairwise fun a b => lt a.1 b.1)
    (k : α) (v : β) : (insertEntry lt k v l).Pairwise fun a b => lt a.1 b.1 := by
  induction l with
  | nil => simp [insertEntry]
  | cons e rest ih =>
      obtain ⟨hhead, htail⟩ := List.pairwise_cons.mp hsorted
      unfold insertEntry
      split_ifs with hlt heq
      · refine List.pairwise_cons.mpr ⟨fun b hmem => ?_, hsorted⟩
        rcases List.mem_cons.mp hmem with rfl | hmem
        · exact hlt
        · exact trans_of lt hlt (hhead _ hmem)
      · exact List.pairwise_cons.mpr ⟨fun b hmem => heq ▸ hhead b hmem, htail⟩
      · refine List.pairwise_cons.mpr ⟨fun b hmem => ?_, ih htail⟩
        obtain ⟨key, value⟩ := b
        rcases (mem_insertEntry htail).mp hmem with ⟨rfl, -⟩ | ⟨-, hmem⟩
        · exact (trichotomous_of lt e.1 key).resolve_right (by rintro (h | h) <;> contradiction)
        · exact hhead _ hmem

theorem insertEntry_append {k : α} {xs : List (α × β)} (hxs : ∀ x ∈ xs, lt x.1 k) (v : β)
    (ys : List (α × β)) : insertEntry lt k v (xs ++ ys) = xs ++ insertEntry lt k v ys := by
  induction xs with
  | nil => rfl
  | cons x xs ih =>
      have hx : lt x.1 k := hxs x List.mem_cons_self
      have hnotLt : ¬ lt k x.1 := fun h => irrefl k (trans_of lt h hx)
      have hne : x.1 ≠ k := fun h => irrefl k (h ▸ hx)
      rw [List.cons_append, insertEntry, if_neg hnotLt, if_neg hne,
        ih fun y hy => hxs y (List.mem_cons_of_mem _ hy), List.cons_append]

omit [DecidableRel lt] in
theorem eraseEntry_eq_self {k : α} {l : List (α × β)} (hl : ∀ x ∈ l, lt x.1 k ∨ lt k x.1) :
    eraseEntry k l = l := by
  refine List.filter_eq_self.mpr fun x hx => ?_
  have hne : x.1 ≠ k := by
    rintro rfl
    exact (hl x hx).elim (irrefl _) (irrefl _)
  simpa using hne

def insert (m : OrderedMap α β lt) (k : α) (v : β) : OrderedMap α β lt :=
  ⟨insertEntry lt k v m.entries, sorted_insertEntry m.sorted k v⟩

omit [DecidableRel lt] [IsStrictTotalOrder α lt] in
theorem sorted_eraseEntry {l : List (α × β)} (hsorted : l.Pairwise fun a b => lt a.1 b.1) (k : α) :
    (eraseEntry k l).Pairwise fun a b => lt a.1 b.1 :=
  hsorted.filter _

def erase (m : OrderedMap α β lt) (k : α) : OrderedMap α β lt :=
  ⟨eraseEntry k m.entries, sorted_eraseEntry m.sorted k⟩

end Entries

/-- Two sorted lists with the same members are the same list. -/
theorem entries_eq_of_mem_iff [IsStrictTotalOrder α lt] {l l' : List (α × β)}
    (hsorted : l.Pairwise fun a b => lt a.1 b.1) (hsorted' : l'.Pairwise fun a b => lt a.1 b.1)
    (hmem : ∀ e, e ∈ l ↔ e ∈ l') : l = l' := by
  have hnodup : ∀ {k : List (α × β)}, (k.Pairwise fun a b => lt a.1 b.1) → k.Nodup :=
    fun h => (nodup_keys_of_sorted h).of_map
  refine List.Perm.eq_of_pairwise (fun a b _ _ hab hba => ?_) hsorted hsorted'
    ((List.perm_ext_iff_of_nodup (hnodup hsorted) (hnodup hsorted')).mpr hmem)
  exact absurd (trans_of lt hab hba) (irrefl a.1)

section Lookup

variable [DecidableEq α] [IsStrictTotalOrder α lt] (m : OrderedMap α β lt)

theorem find?_eq_some_iff_mem {m : OrderedMap α β lt} {k : α} {v : β} :
    m.find? k = some v ↔ (k, v) ∈ m.entries :=
  lookup_eq_some_iff_mem (nodup_keys_of_sorted m.sorted)

omit [IsStrictTotalOrder α lt] in
@[simp]
theorem find?_empty (k : α) : (empty : OrderedMap α β lt).find? k = none := rfl

theorem find?_insert [DecidableRel lt] (k k' : α) (v : β) :
    (m.insert k v).find? k' = if k' = k then some v else m.find? k' := by
  apply Option.ext
  intro v'
  rw [find?_eq_some_iff_mem]
  refine (mem_insertEntry m.sorted).trans ?_
  split_ifs with hkey
  · simp [hkey, eq_comm]
  · simp [hkey, find?_eq_some_iff_mem]

theorem find?_erase (k k' : α) :
    (m.erase k).find? k' = if k' = k then none else m.find? k' := by
  apply Option.ext
  intro v'
  rw [find?_eq_some_iff_mem]
  refine List.mem_filter.trans ?_
  split_ifs with hkey
  · simp [hkey]
  · simp [hkey, find?_eq_some_iff_mem]

end Lookup

end OrderedMap
