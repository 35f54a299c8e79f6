import Mathlib.Data.List.SplitBy
import Mathlib.Tactic

/-!
# Maximal runs of equal keys

A list is cut wherever the key changes from one element to the next. A list that grows at its end
either extends its last run or begins a new one.
-/

namespace MaximalRuns

variable {α κ : Type} [DecidableEq κ] {key : α → κ} {l : List α}

/-- The longest segments in which neighbours have the same key. -/
def maximalRuns (key : α → κ) (l : List α) : List (List α) :=
  l.splitBy fun a b => key a == key b

theorem isChain_key_iff {run : List α} :
    (run.IsChain fun a b => (key a == key b) = true) ↔ ∀ a ∈ run, ∀ b ∈ run, key a = key b := by
  simp only [beq_iff_eq]
  have htrans : IsTrans α fun a b => key a = key b := ⟨fun _ _ _ => Eq.trans⟩
  have hsymm : Std.Symm fun a b : α => key a = key b := ⟨fun _ _ => Eq.symm⟩
  rw [List.isChain_iff_pairwise]
  constructor
  · intro hpairs a ha b hb
    exact List.Pairwise.forall_of_forall (fun _ _ => rfl : ∀ c ∈ run, key c = key c) hpairs ha hb
  · intro hkey
    exact List.pairwise_of_forall_mem_list hkey

/-- The runs are the segments of constant key between which the key changes. -/
theorem maximalRuns_eq_iff {runs : List (List α)} :
    maximalRuns key l = runs ↔
      l = runs.flatten ∧ [] ∉ runs ∧ (∀ run ∈ runs, ∀ a ∈ run, ∀ b ∈ run, key a = key b) ∧
        runs.IsChain fun run next => ∀ a ∈ run, ∀ b ∈ next, key a ≠ key b := by
  rw [maximalRuns, List.splitBy_eq_iff]
  simp only [isChain_key_iff]
  refine and_congr_right fun _ => and_congr_right fun hnil => and_congr_right fun hkey => ?_
  have hne : ∀ run ∈ runs, run ≠ [] := fun run hrun hempty => hnil (hempty ▸ hrun)
  refine List.IsChain.iff_of_mem_imp fun run next hrun hnext => ?_
  simp only [beq_eq_false_iff_ne]
  constructor
  · rintro ⟨hlast, hfirst, hchange⟩ a ha b hb
    rw [hkey run hrun a ha _ (List.getLast_mem hlast),
      hkey next hnext b hb _ (List.head_mem hfirst)]
    exact hchange
  · intro hchange
    exact ⟨hne run hrun, hne next hnext,
      hchange _ (List.getLast_mem _) _ (List.head_mem _)⟩

@[simp]
theorem flatten_maximalRuns (key : α → κ) (l : List α) : (maximalRuns key l).flatten = l :=
  List.flatten_splitBy _ l

theorem maximalRuns_eq_nil : maximalRuns key l = [] ↔ l = [] := List.splitBy_eq_nil

theorem maximalRuns_concat_ne {done : List (List α)} {run : List α} {a : α}
    (hruns : maximalRuns key l = done ++ [run]) (hne : ∀ b ∈ run, key b ≠ key a) :
    maximalRuns key (l ++ [a]) = done ++ [run] ++ [[a]] := by
  obtain ⟨rfl, hnil, hkey, hchain⟩ := maximalRuns_eq_iff.mp hruns
  refine maximalRuns_eq_iff.mpr ⟨?_, ?_, ?_, ?_⟩
  · simp
  · simpa using hnil
  · intro run' hrun'
    rcases List.mem_append.mp hrun' with hrun' | hrun'
    · exact hkey run' hrun'
    · rw [List.mem_singleton.mp hrun']
      simp
  · refine hchain.append (List.isChain_singleton _) fun last hlast first hfirst => ?_
    rw [List.getLast?_concat] at hlast
    cases hlast
    cases hfirst
    simpa using hne

/-- An element with the key of the last run extends it. -/
theorem maximalRuns_concat_eq {done : List (List α)} {run : List α} {a : α}
    (hruns : maximalRuns key l = done ++ [run]) (heq : ∀ b ∈ run, key b = key a) :
    maximalRuns key (l ++ [a]) = done ++ [run ++ [a]] := by
  obtain ⟨rfl, hnil, hkey, hchain⟩ := maximalRuns_eq_iff.mp hruns
  refine maximalRuns_eq_iff.mpr ⟨?_, ?_, ?_, ?_⟩
  · simp
  · simp only [List.mem_append, List.mem_singleton, not_or] at hnil ⊢
    exact ⟨hnil.1, by simp⟩
  · intro run' hrun'
    rcases List.mem_append.mp hrun' with hrun' | hrun'
    · exact hkey run' (List.mem_append_left _ hrun')
    · -- every element of the extended run has the key of the new one
      have hnew : ∀ b ∈ run ++ [a], key b = key a := by
        intro b hb
        rcases List.mem_append.mp hb with hb | hb
        · exact heq b hb
        · rw [List.mem_singleton.mp hb]
      rw [List.mem_singleton.mp hrun']
      exact fun b hb c hc => (hnew b hb).trans (hnew c hc).symm
  · obtain ⟨hdone, -, hlast⟩ := List.isChain_append.mp hchain
    refine hdone.append (List.isChain_singleton _) fun before hbefore next hnext => ?_
    cases hnext
    intro b hb c hc
    obtain ⟨d, hd⟩ : ∃ d, d ∈ run := List.exists_mem_of_ne_nil run fun hempty =>
      hnil (by simp [hempty])
    have hkeys : key c = key d := by
      rcases List.mem_append.mp hc with hc | hc
      · exact (heq c hc).trans (heq d hd).symm
      · rw [List.mem_singleton.mp hc, heq d hd]
    rw [hkeys]
    exact hlast before hbefore run rfl b hb d hd

/-- If a later element's key is above an earlier one's wherever they differ, then the keys of a
later run are above those of an earlier one. -/
theorem pairwise_key_of_ne {r : κ → κ → Prop} [IsTrans κ r]
    (hl : l.Pairwise fun a b => key a ≠ key b → r (key a) (key b)) :
    (maximalRuns key l).Pairwise fun run next => ∀ a ∈ run, ∀ b ∈ next, r (key a) (key b) := by
  obtain ⟨hflat, hnil, -, hchain⟩ := maximalRuns_eq_iff.mp (rfl : maximalRuns key l = _)
  rw [hflat, List.pairwise_flatten] at hl
  have htrans : IsTrans (List α) fun run next =>
      next ≠ [] ∧ ∀ a ∈ run, ∀ b ∈ next, r (key a) (key b) := by
    refine ⟨fun run middle next hrun hnext => ⟨hnext.1, fun a ha b hb => ?_⟩⟩
    obtain ⟨c, hc⟩ := List.exists_mem_of_ne_nil middle hrun.1
    exact IsTrans.trans _ _ _ (hrun.2 a ha c hc) (hnext.2 c hc b hb)
  have hrises : (maximalRuns key l).IsChain fun run next =>
      next ≠ [] ∧ ∀ a ∈ run, ∀ b ∈ next, r (key a) (key b) := by
    rw [List.isChain_iff_getElem] at hchain ⊢
    intro i hi
    refine ⟨fun hempty => hnil (hempty ▸ List.getElem_mem hi), fun a ha b hb => ?_⟩
    have hnext := List.pairwise_iff_getElem.mp hl.2 i (i + 1) (by omega) hi (Nat.lt_succ_self i)
    exact hnext a ha b hb (hchain i hi a ha b hb)
  exact (List.isChain_iff_pairwise.mp hrises).imp fun hrun => hrun.2

end MaximalRuns
