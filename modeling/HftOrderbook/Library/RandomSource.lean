import Mathlib.Data.Stream.Defs
import Mathlib.Tactic

/-!
# Programs that draw from a random source

A program consumes words of an infinite stream and returns a value. `Always` says that the value has
a property whatever the stream holds; it composes along binds, branches and loops, so a fact about
every output of a generator is proved from one fact for each of its steps.
-/

namespace RandomSource

abbrev Random := StateM (Stream' UInt32)

variable {α β : Type}

def draw : Random UInt32 := fun s => (s.head, s.tail)

/-- `rng() % n`. -/
def below (n : Nat) : Random Nat := do
  let v ← draw
  pure (v.toNat % n)

/-- A `while` loop, cut off after `fuel` rounds. -/
def loopWhile (cond : α → Bool) (step : α → Random α) : Nat → α → Random α
  | 0, a => pure a
  | fuel + 1, a => if cond a then step a >>= loopWhile cond step fuel else pure a

def Always (x : Random α) (P : α → Prop) : Prop := ∀ s, P (x s).1

theorem always_pure {a : α} {P : α → Prop} (h : P a) : Always (pure a) P := fun _ => h

theorem always_bind {x : Random α} {f : α → Random β} {Q : α → Prop} {P : β → Prop}
    (hx : Always x Q) (hf : ∀ a, Q a → Always (f a) P) : Always (x >>= f) P :=
  fun s => hf (x s).1 (hx s) (x s).2

theorem Always.mono {x : Random α} {P Q : α → Prop} (hx : Always x Q) (h : ∀ a, Q a → P a) :
    Always x P := fun s => h _ (hx s)

theorem always_below {n : Nat} (hn : 0 < n) : Always (below n) (· < n) :=
  fun _ => Nat.mod_lt _ hn

/-- What a round preserves while the condition holds is there when the loop ends, and enough fuel
lets it end. -/
theorem always_loopWhile {cond : α → Bool} {step : α → Random α} (Inv : α → Prop) (μ : α → Nat)
    (hstep : ∀ a, Inv a → cond a = true → Always (step a) fun a' => Inv a' ∧ μ a' < μ a) :
    ∀ (fuel : Nat) (a : α), Inv a → μ a < fuel →
      Always (loopWhile cond step fuel a) fun a' => Inv a' ∧ cond a' = false := by
  intro fuel
  induction fuel with
  | zero => exact fun a _ hfuel => absurd hfuel (Nat.not_lt_zero _)
  | succ fuel ih =>
      intro a ha hfuel
      unfold loopWhile
      split_ifs with hcond
      · refine always_bind (hstep a ha hcond) fun a' ha' => ih a' ha'.1 ?_
        exact ha'.2.trans_le (Nat.lt_succ_iff.mp hfuel)
      · exact always_pure ⟨ha, by simpa using hcond⟩

/-- A loop whose rounds each count one stops at the count it was given. -/
theorem always_loopWhile_count {step : α → Random α} {count : α → Nat} {n : Nat} (Inv : α → Prop)
    (hle : ∀ a, Inv a → count a ≤ n)
    (hstep : ∀ a, Inv a → count a < n → Always (step a) fun a' => Inv a' ∧ count a' = count a + 1)
    {a : α} (ha : Inv a) :
    Always (loopWhile (fun a => decide (count a < n)) step (n + 1) a) fun a' =>
      Inv a' ∧ count a' = n := by
  have hround : ∀ a, Inv a → decide (count a < n) = true →
      Always (step a) fun a' => Inv a' ∧ n - count a' < n - count a := by
    intro a ha hcond
    have hlt : count a < n := of_decide_eq_true hcond
    refine (hstep a ha hlt).mono fun a' ⟨ha', hcount⟩ => ⟨ha', ?_⟩
    omega
  refine (always_loopWhile Inv (n - count ·) hround (n + 1) a ha (by omega)).mono fun a' ha' => ?_
  have hge : ¬ count a' < n := of_decide_eq_false ha'.2
  exact ⟨ha'.1, le_antisymm (hle a' ha'.1) (not_lt.mp hge)⟩

end RandomSource
