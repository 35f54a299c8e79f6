import HftOrderbook.Library.ByteText

/-!
# Two processes and two line channels

Two sequential processes exchange lines over two reliable channels, one in each direction. A step of
one process never takes away a step of the other, and the two can be done in either order. So if
one way to interleave them ends, every way does, after as many steps and in the same state.
-/

namespace LineProcesses

open ByteText

/-- What a process does next: send a text, wait for a line, or nothing any more. -/
inductive Action (S : Type*)
  | send (text : List UInt8) (next : S)
  | receive (next : List UInt8 → S)
  | stop

/-- The first line of a buffer, without its newline, and what stands behind. -/
def takeLine (buf : List UInt8) : Option (List UInt8 × List UInt8) :=
  (findIn [0x0A] buf).map fun nl => (buf.take nl, buf.drop (nl + 1))

@[ext]
structure Pair (S T : Type*) where
  left : S
  right : T
  toLeft : List UInt8 := []
  toRight : List UInt8 := []

variable {S T : Type*} (actLeft : S → Action S) (actRight : T → Action T)

def stepLeft (p : Pair S T) : Option (Pair S T) :=
  match actLeft p.left with
  | .send text next => some { p with left := next, toRight := p.toRight ++ text }
  | .receive next => (takeLine p.toLeft).map fun (line, rest) =>
      { p with left := next line, toLeft := rest }
  | .stop => none

def stepRight (p : Pair S T) : Option (Pair S T) :=
  match actRight p.right with
  | .send text next => some { p with right := next, toLeft := p.toLeft ++ text }
  | .receive next => (takeLine p.toRight).map fun (line, rest) =>
      { p with right := next line, toRight := rest }
  | .stop => none

def Step (p q : Pair S T) : Prop := stepLeft actLeft p = some q ∨ stepRight actRight p = some q

/-- A run of so many steps. -/
inductive Run : Nat → Pair S T → Pair S T → Prop
  | refl (p : Pair S T) : Run 0 p p
  | head {n : Nat} {p q r : Pair S T} (hstep : Step actLeft actRight p q) (hrun : Run n q r) :
      Run (n + 1) p r

/-- Neither process can do anything. -/
def Finished (p : Pair S T) : Prop :=
  stepLeft actLeft p = none ∧ stepRight actRight p = none

/-! ### Lines -/

theorem takeLine_append {line : List UInt8} (hline : (0x0A : UInt8) ∉ line) (rest : List UInt8) :
    takeLine (line ++ 0x0A :: rest) = some (line, rest) := by
  have hdrop : (line ++ 0x0A :: rest).drop (line.length + 1) = rest := by
    rw [List.append_cons]
    exact List.drop_left' (by simp)
  rw [takeLine, findIn_singleton hline, Option.map_some, List.take_left, hdrop]

theorem takeLine_eq_some {buf line rest : List UInt8} (h : takeLine buf = some (line, rest)) :
    buf = line ++ 0x0A :: rest ∧ (0x0A : UInt8) ∉ line := by
  obtain ⟨nl, hfind, hparts⟩ := Option.map_eq_some_iff.mp h
  obtain ⟨front, back, rfl, hfront, rfl⟩ := exists_of_findIn_singleton hfind
  have hwhole := takeLine_append hfront back
  obtain ⟨rfl, rfl⟩ := Prod.mk.inj (Option.some.inj (hwhole.symm.trans h))
  exact ⟨rfl, hfront⟩

theorem takeLine_eq_none {buf : List UInt8} (h : takeLine buf = none) : (0x0A : UInt8) ∉ buf := by
  intro hmem
  obtain ⟨line, rest, rfl, hline⟩ := List.eq_append_cons_of_mem hmem
  rw [takeLine_append hline] at h
  cases h

/-- What is sent later does not change the line that is read. -/
theorem takeLine_later {buf line rest : List UInt8} (h : takeLine buf = some (line, rest))
    (later : List UInt8) : takeLine (buf ++ later) = some (line, rest ++ later) := by
  obtain ⟨rfl, hline⟩ := takeLine_eq_some h
  rw [List.append_assoc, List.cons_append]
  exact takeLine_append hline _

/-! ### Messages that are sent and received at once -/

section Messages

variable {actLeft : S → Action S} {actRight : T → Action T}

theorem deliver_right {l l' : S} {r : T} {line : List UInt8} {next : List UInt8 → T}
    (hline : (0x0A : UInt8) ∉ line) (hsend : actLeft l = .send (line ++ [0x0A]) l')
    (hreceive : actRight r = .receive next) :
    Relation.ReflTransGen (Step actLeft actRight) ⟨l, r, [], []⟩ ⟨l', next line, [], []⟩ := by
  have hfirst : stepLeft actLeft (⟨l, r, [], []⟩ : Pair S T) =
      some ⟨l', r, [], line ++ [0x0A]⟩ := by
    simp only [stepLeft, hsend, List.nil_append]
  have hsecond : stepRight actRight (⟨l', r, [], line ++ [0x0A]⟩ : Pair S T) =
      some ⟨l', next line, [], []⟩ := by
    simp only [stepRight, hreceive, takeLine_append hline, Option.map_some]
  exact .head (Or.inl hfirst) (.single (Or.inr hsecond))

theorem deliver_left {l : S} {r r' : T} {line : List UInt8} {next : List UInt8 → S}
    (hline : (0x0A : UInt8) ∉ line) (hsend : actRight r = .send (line ++ [0x0A]) r')
    (hreceive : actLeft l = .receive next) :
    Relation.ReflTransGen (Step actLeft actRight) ⟨l, r, [], []⟩ ⟨next line, r', [], []⟩ := by
  have hfirst : stepRight actRight (⟨l, r, [], []⟩ : Pair S T) =
      some ⟨l, r', line ++ [0x0A], []⟩ := by
    simp only [stepRight, hsend, List.nil_append]
  have hsecond : stepLeft actLeft (⟨l, r', line ++ [0x0A], []⟩ : Pair S T) =
      some ⟨next line, r', [], []⟩ := by
    simp only [stepLeft, hreceive, takeLine_append hline, Option.map_some]
  exact .head (Or.inr hfirst) (.single (Or.inl hsecond))

end Messages

/-! ### Interleavings -/

section Interleavings

variable {actLeft : S → Action S} {actRight : T → Action T}

theorem stepLeft_cases {p q : Pair S T} (h : stepLeft actLeft p = some q) :
    q.right = p.right ∧ ((∃ text, actLeft p.left = .send text q.left) ∨
      ∃ next line, actLeft p.left = .receive next ∧ q.left = next line) := by
  unfold stepLeft at h
  cases hact : actLeft p.left with
  | stop =>
      rw [hact] at h
      cases h
  | send text next =>
      rw [hact] at h
      obtain rfl := Option.some.inj h
      exact ⟨rfl, Or.inl ⟨text, rfl⟩⟩
  | receive next =>
      rw [hact] at h
      obtain ⟨⟨line, rest⟩, -, rfl⟩ := Option.map_eq_some_iff.mp h
      exact ⟨rfl, Or.inr ⟨next, line, rfl, rfl⟩⟩

theorem stepRight_left {p q : Pair S T} (h : stepRight actRight p = some q) : q.left = p.left := by
  unfold stepRight at h
  cases hact : actRight p.right with
  | stop =>
      rw [hact] at h
      cases h
  | send text next =>
      rw [hact] at h
      obtain rfl := Option.some.inj h
      rfl
  | receive next =>
      rw [hact] at h
      obtain ⟨⟨line, rest⟩, -, rfl⟩ := Option.map_eq_some_iff.mp h
      rfl

theorem step_commute {p q r : Pair S T} (hleft : stepLeft actLeft p = some q)
    (hright : stepRight actRight p = some r) :
    ∃ s, stepRight actRight q = some s ∧ stepLeft actLeft r = some s := by
  unfold stepLeft at hleft ⊢
  unfold stepRight at hright ⊢
  cases hl : actLeft p.left with
  | stop =>
      rw [hl] at hleft
      cases hleft
  | send textL nextL =>
      rw [hl] at hleft
      obtain rfl := Option.some.inj hleft
      cases hr : actRight p.right with
      | stop =>
          rw [hr] at hright
          cases hright
      | send textR nextR =>
          rw [hr] at hright
          obtain rfl := Option.some.inj hright
          simp only [hl]
          exact ⟨_, rfl, rfl⟩
      | receive nextR =>
          rw [hr] at hright
          obtain ⟨⟨line, rest⟩, htake, rfl⟩ := Option.map_eq_some_iff.mp hright
          simp only [hl, takeLine_later htake textL, Option.map_some]
          exact ⟨_, rfl, rfl⟩
  | receive nextL =>
      rw [hl] at hleft
      obtain ⟨⟨line, rest⟩, htake, rfl⟩ := Option.map_eq_some_iff.mp hleft
      cases hr : actRight p.right with
      | stop =>
          rw [hr] at hright
          cases hright
      | send textR nextR =>
          rw [hr] at hright
          obtain rfl := Option.some.inj hright
          simp only [hl, takeLine_later htake textR, Option.map_some]
          exact ⟨_, rfl, rfl⟩
      | receive nextR =>
          rw [hr] at hright
          obtain ⟨⟨line', rest'⟩, htake', rfl⟩ := Option.map_eq_some_iff.mp hright
          simp only [hl, htake, htake', Option.map_some]
          exact ⟨_, rfl, rfl⟩

theorem step_diamond {p q r : Pair S T} (hq : Step actLeft actRight p q)
    (hr : Step actLeft actRight p r) :
    q = r ∨ ∃ s, Step actLeft actRight q s ∧ Step actLeft actRight r s := by
  rcases hq with hq | hq <;> rcases hr with hr | hr
  · exact Or.inl (Option.some.inj (hq.symm.trans hr))
  · obtain ⟨s, hqs, hrs⟩ := step_commute hq hr
    exact Or.inr ⟨s, Or.inr hqs, Or.inl hrs⟩
  · obtain ⟨s, hrs, hqs⟩ := step_commute hr hq
    exact Or.inr ⟨s, Or.inl hqs, Or.inr hrs⟩
  · exact Or.inl (Option.some.inj (hq.symm.trans hr))

theorem Finished.not_step {p q : Pair S T} (h : Finished actLeft actRight p) :
    ¬ Step actLeft actRight p q := by
  rintro (hstep | hstep)
  · rw [h.1] at hstep
    cases hstep
  · rw [h.2] at hstep
    cases hstep

/-- Where a run that ends begins, any other first step begins one that is as long. -/
theorem Run.of_step {n : Nat} {p z : Pair S T} (hrun : Run actLeft actRight n p z)
    (hz : Finished actLeft actRight z) :
    ∀ q, Step actLeft actRight p q → ∃ m, n = m + 1 ∧ Run actLeft actRight m q z := by
  induction hrun with
  | refl p => exact fun q hstep => absurd hstep hz.not_step
  | @head n p r z hstep hrest ih =>
      intro q hq
      rcases step_diamond hstep hq with rfl | ⟨s, hrs, hqs⟩
      · exact ⟨n, rfl, hrest⟩
      · obtain ⟨m, rfl, hsz⟩ := ih hz s hrs
        exact ⟨m + 1, rfl, Run.head hqs hsz⟩

/-- If one way to interleave ends, no other goes on for longer, and each can still end there. -/
theorem Run.of_run {n : Nat} {p z : Pair S T} (hrun : Run actLeft actRight n p z)
    (hz : Finished actLeft actRight z) {m : Nat} {q : Pair S T}
    (hother : Run actLeft actRight m p q) :
    ∃ k, n = m + k ∧ Run actLeft actRight k q z := by
  induction hother generalizing n with
  | refl p => exact ⟨n, (Nat.zero_add n).symm, hrun⟩
  | @head m p r q hstep _ ih =>
      obtain ⟨k, rfl, hrz⟩ := hrun.of_step hz r hstep
      obtain ⟨j, rfl, hqz⟩ := ih hrz
      exact ⟨j, by omega, hqz⟩

theorem Run.reachable {n : Nat} {p q : Pair S T} (hrun : Run actLeft actRight n p q) :
    Relation.ReflTransGen (Step actLeft actRight) p q := by
  induction hrun with
  | refl p => exact .refl
  | head hstep _ ih => exact .head hstep ih

theorem exists_run {p q : Pair S T} (hreach : Relation.ReflTransGen (Step actLeft actRight) p q) :
    ∃ n, Run actLeft actRight n p q := by
  induction hreach using Relation.ReflTransGen.head_induction_on with
  | refl => exact ⟨0, .refl q⟩
  | head hstep _ ih =>
      obtain ⟨n, hrun⟩ := ih
      exact ⟨n + 1, .head hstep hrun⟩

/-- A state that leads to an end and is not that end can do a step. -/
theorem exists_step {p z : Pair S T}
    (hreach : Relation.ReflTransGen (Step actLeft actRight) p z) (hne : p ≠ z) :
    ∃ q, Step actLeft actRight p q := by
  rcases hreach.cases_head with heq | ⟨q, hstep, -⟩
  · exact absurd heq hne
  · exact ⟨q, hstep⟩

end Interleavings

end LineProcesses
