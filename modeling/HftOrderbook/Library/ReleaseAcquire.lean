import Mathlib.Order.Lattice
import Mathlib.Tactic

/-!
# Release stores and acquire loads

An atomic cell that one thread stores to, as the list of its stores. A clock counts for each thread
how many of its events happen before a point: a release store keeps the clock of its thread, and a
load that reads it with acquire takes it over. A load may read any store that is not known to have
been overwritten. Plain accesses are recorded with the event count of their thread, and two of them
race unless the clock of the later one covers the earlier.
-/

namespace ReleaseAcquire

variable {T V : Type*}

abbrev Clock (T : Type*) := T → Nat

structure Write (T V : Type*) where
  value : V
  clock : Clock T

abbrev History (T V : Type*) := List (Write T V)

/-- A load reads the store at `i`: no later one happens before the load. -/
structure Reads (history : History T V) (writer : T) (clock : Clock T) (i : Nat)
    (m : Write T V) : Prop where
  found : history[i]? = some m
  newest : ∀ j m', i < j → history[j]? = some m' → clock writer < m'.clock writer

/-- The store at `k` happens before the point. -/
def Knows (history : History T V) (writer : T) (clock : Clock T) (k : Nat) : Prop :=
  ∃ m, history[k]? = some m ∧ m.clock writer ≤ clock writer

/-- Every store is an event of its own, and the writer is past all of them. -/
structure Stamped (history : History T V) (writer : T) (clock : Clock T) : Prop where
  rises : history.Pairwise fun m m' => m.clock writer < m'.clock writer
  past : ∀ m ∈ history, m.clock writer < clock writer

section Clocks

variable [DecidableEq T]

/-- The next event of a thread. -/
def tick (t : T) (clock : Clock T) : Clock T := Function.update clock t (clock t + 1)

theorem tick_self (t : T) (clock : Clock T) : tick t clock t = clock t + 1 :=
  Function.update_self ..

theorem le_tick (t : T) (clock : Clock T) : clock ≤ tick t clock := by
  intro u
  by_cases hu : u = t
  · subst hu
    rw [tick_self]
    exact Nat.le_succ _
  · rw [tick, Function.update_of_ne hu]

end Clocks

/-! ### What a thread knows -/

section Cells

variable {history : History T V} {writer : T} {clock clock' : Clock T} {i k : Nat}
  {m : Write T V}

theorem Knows.mono (h : Knows history writer clock k) (hle : clock ≤ clock') :
    Knows history writer clock' k := by
  obtain ⟨m, hm, hknown⟩ := h
  exact ⟨m, hm, hknown.trans (hle writer)⟩

theorem Knows.append (h : Knows history writer clock k) (later : History T V) :
    Knows (history ++ later) writer clock k := by
  obtain ⟨m, hm, hknown⟩ := h
  refine ⟨m, ?_, hknown⟩
  rwa [List.getElem?_append_left (List.getElem?_eq_some_iff.mp hm).1]

theorem Knows.lt_length (h : Knows history writer clock k) : k < history.length := by
  obtain ⟨m, hm, -⟩ := h
  exact (List.getElem?_eq_some_iff.mp hm).1

theorem Reads.lt_length (h : Reads history writer clock i m) : i < history.length :=
  (List.getElem?_eq_some_iff.mp h.found).1

/-- A load reads nothing older than what it knows. -/
theorem Reads.le (h : Reads history writer clock i m) (hknown : Knows history writer clock k) :
    k ≤ i := by
  obtain ⟨m', hm', hle⟩ := hknown
  by_contra hlt
  exact absurd hle (not_le.mpr (h.newest k m' (not_le.mp hlt) hm'))

theorem Reads.knows (h : Reads history writer clock i m) :
    Knows history writer (clock ⊔ m.clock) i :=
  ⟨m, h.found, le_sup_right⟩

/-- A load may always read the newest store. -/
theorem reads_newest (clock : Clock T) (hfound : history[i]? = some m)
    (hlength : history.length = i + 1) : Reads history writer clock i m := by
  refine ⟨hfound, fun j m' hlt hm' => ?_⟩
  have := (List.getElem?_eq_some_iff.mp hm').1
  omega

/-- The writer reads its own newest store. -/
theorem Reads.own (h : Reads history writer clock i m) (hstamped : Stamped history writer clock) :
    i + 1 = history.length := by
  by_contra hne
  have hlt : i + 1 < history.length := by
    have := h.lt_length
    omega
  have hnewest := h.newest (i + 1) _ (Nat.lt_succ_self i) (List.getElem?_eq_getElem hlt)
  exact absurd (hstamped.past _ (List.getElem_mem hlt)) hnewest.not_gt

/-- Who knows a store knows the earlier ones. -/
theorem Stamped.le (hstamped : Stamped history writer clock) {j : Nat} {m' : Write T V}
    (hm : history[k]? = some m) (hm' : history[j]? = some m') (hle : k ≤ j) :
    m.clock writer ≤ m'.clock writer := by
  obtain ⟨hk, rfl⟩ := List.getElem?_eq_some_iff.mp hm
  obtain ⟨hj, rfl⟩ := List.getElem?_eq_some_iff.mp hm'
  rcases hle.eq_or_lt with rfl | hlt
  · exact le_rfl
  · exact (List.pairwise_iff_getElem.mp hstamped.rises k j hk hj hlt).le

theorem Knows.of_le (h : Knows history writer clock' k) (hstamped : Stamped history writer clock)
    {j : Nat} (hle : j ≤ k) : Knows history writer clock' j := by
  obtain ⟨m, hm, hknown⟩ := h
  have hj : j < history.length := hle.trans_lt (List.getElem?_eq_some_iff.mp hm).1
  have hjth := List.getElem?_eq_getElem hj
  exact ⟨_, hjth, (hstamped.le hjth hm hle).trans hknown⟩

theorem Stamped.mono (hstamped : Stamped history writer clock) (hle : clock ≤ clock') :
    Stamped history writer clock' :=
  ⟨hstamped.rises, fun m hm => (hstamped.past m hm).trans_le (hle writer)⟩

theorem Stamped.release [DecidableEq T] (hstamped : Stamped history writer clock) (v : V) :
    Stamped (history ++ [⟨v, clock⟩]) writer (tick writer clock) := by
  constructor
  · rw [List.pairwise_append]
    refine ⟨hstamped.rises, List.pairwise_singleton _ _, fun m hm m' hm' => ?_⟩
    obtain rfl := List.mem_singleton.mp hm'
    exact hstamped.past m hm
  · intro m hm
    rw [tick_self]
    rcases List.mem_append.mp hm with hm | hm
    · exact (hstamped.past m hm).trans (Nat.lt_succ_self _)
    · obtain rfl := List.mem_singleton.mp hm
      exact Nat.lt_succ_self _

end Cells

/-! ### Plain accesses -/

/-- The last write and the last read of each thread, by its event count. -/
structure Accesses (T : Type*) where
  writes : Clock T := fun _ => 0
  reads : Clock T := fun _ => 0

namespace Accesses

variable (a : Accesses T) (t : T) (clock : Clock T)

/-- A read here is ordered behind every write of another thread. -/
def ReadSafe : Prop := ∀ u, u ≠ t → a.writes u ≤ clock u

/-- A write here is ordered behind every access of another thread. -/
def WriteSafe : Prop := ∀ u, u ≠ t → a.writes u ≤ clock u ∧ a.reads u ≤ clock u

variable [DecidableEq T]

def read : Accesses T := { a with reads := Function.update a.reads t (clock t) }

def write : Accesses T := { a with writes := Function.update a.writes t (clock t) }

end Accesses

end ReleaseAcquire
