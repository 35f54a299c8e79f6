import HftOrderbook.Proof.SpscRing

/-!
# What `size_approx` returns while both sides run

The two loads see the popped count of one moment and the pushed count of a later one. Their
difference is the occupancy at the second load, plus the pops that completed in between.
-/

namespace HftOrderbook

open WrappingCounter

namespace Channel

variable {α : Type}

theorem counts_of_pushStep {c c' : Channel α} (hstep : c.pushStep = some c') :
    c'.popped = c.popped ∧ c.pushed.length ≤ c'.pushed.length := by
  obtain ⟨next, -, rfl⟩ := Option.map_eq_some_iff.mp hstep
  refine ⟨rfl, ?_⟩
  dsimp only
  split
  · rw [List.length_append]
    exact Nat.le_add_right _ _
  · exact le_rfl

theorem counts_of_popStep [Inhabited α] {c c' : Channel α} (hstep : c.popStep = some c') :
    c'.pushed = c.pushed ∧
      (c'.popped = c.popped ∨ c'.popped.length = c.popped.length + 1) := by
  obtain ⟨next, -, rfl⟩ := Option.map_eq_some_iff.mp hstep
  refine ⟨rfl, ?_⟩
  dsimp only
  split
  · exact Or.inr List.length_append
  · exact Or.inl rfl

/-- What a step does to the two counts. -/
theorem Step.counts [Inhabited α] {c c' : Channel α} (hstep : c.Step c') :
    (c'.popped.length = c.popped.length ∧ c.pushed.length ≤ c'.pushed.length) ∨
      (c'.popped.length = c.popped.length + 1 ∧ c'.pushed.length = c.pushed.length) := by
  cases hstep with
  | callPush item hidle => exact Or.inl ⟨rfl, le_rfl⟩
  | push hstep =>
      obtain ⟨hpopped, hpushed⟩ := counts_of_pushStep hstep
      exact Or.inl ⟨congrArg List.length hpopped, hpushed⟩
  | returnPush ok hreturned => exact Or.inl ⟨rfl, le_rfl⟩
  | callPop hidle => exact Or.inl ⟨rfl, le_rfl⟩
  | pop hstep =>
      obtain ⟨hpushed, hpopped | hpopped⟩ := counts_of_popStep hstep
      · exact Or.inl ⟨congrArg List.length hpopped, (congrArg List.length hpushed).ge⟩
      · exact Or.inr ⟨hpopped, congrArg List.length hpushed⟩
  | returnPop out hreturned => exact Or.inl ⟨rfl, le_rfl⟩

theorem Step.popped_length_le [Inhabited α] {c c' : Channel α} (hstep : c.Step c') :
    c.popped.length ≤ c'.popped.length := by
  rcases hstep.counts with ⟨hpopped, -⟩ | ⟨hpopped, -⟩ <;> omega

theorem Inv.unpopped_le {c : Channel α} {bits tailSeen headSeen : Nat}
    (h : c.Inv bits tailSeen headSeen) : c.unpopped ≤ 2 ^ bits := by
  have hpushed := h.pushed_le.trans (Nat.add_le_add_right h.tailSeen_le _)
  exact Nat.sub_le_of_le_add (by rwa [Nat.add_comm])

end Channel

namespace Observer

variable {α : Type}

/-- The next access of the call is its second load. -/
def BetweenLoads (o : Observer) : Prop := ∃ tail, o.pc = .loadHead tail

/-- What a running call knows of a ring of `cap` slots. -/
def Inv (o : Observer) (c : Channel α) (cap : Nat) : Prop :=
  match o.pc with
  | .idle | .loadTail => True
  | .loadHead tail => tail = UInt64.ofNat o.poppedBefore ∧ o.poppedBefore ≤ c.popped.length
  | .returned size => size = UInt64.ofNat (o.occupancy + o.popsBetween) ∧ o.occupancy ≤ cap

theorem Inv.frame {o : Observer} {c c' : Channel α} {cap : Nat} (h : o.Inv c cap)
    (hpopped : c.popped.length ≤ c'.popped.length) : o.Inv c' cap := by
  unfold Inv at h ⊢
  cases hpc : o.pc with
  | idle => trivial
  | loadTail => trivial
  | loadHead tail =>
      rw [hpc] at h
      exact ⟨h.1, h.2.trans hpopped⟩
  | returned size =>
      rw [hpc] at h
      exact h

theorem Inv.returned {o : Observer} {c : Channel α} {cap : Nat} (h : o.Inv c cap) {size : UInt64}
    (hpc : o.pc = .returned size) :
    size = UInt64.ofNat (o.occupancy + o.popsBetween) ∧ o.occupancy ≤ cap := by
  unfold Inv at h
  rwa [hpc] at h

/-- What one access of a call does. -/
theorem step_cases {o o' : Observer} {c : Channel α} (hstep : o.step c = some o') :
    (o.pc = .loadTail ∧
      o' = { o with pc := .loadHead c.ring.tail, poppedBefore := c.popped.length }) ∨
    (∃ tail, o.pc = .loadHead tail ∧
      o' = { o with
        pc := .returned (c.ring.head - tail)
        popsBetween := c.popped.length - o.poppedBefore
        occupancy := c.unpopped }) := by
  unfold step at hstep
  cases hpc : o.pc with
  | idle => simp [hpc, SpscRing.sizeStep] at hstep
  | returned size => simp [hpc, SpscRing.sizeStep] at hstep
  | loadTail =>
      simp only [hpc, SpscRing.sizeStep, Option.map_some, Option.some.injEq] at hstep
      exact Or.inl ⟨rfl, hstep.symm⟩
  | loadHead tail =>
      simp only [hpc, SpscRing.sizeStep, Option.map_some, Option.some.injEq] at hstep
      exact Or.inr ⟨tail, rfl, hstep.symm⟩

theorem Inv.step {o o' : Observer} {c : Channel α} {bits tailSeen headSeen : Nat}
    (hchannel : c.Inv bits tailSeen headSeen) (h : o.Inv c (2 ^ bits))
    (hstep : o.step c = some o') : o'.Inv c (2 ^ bits) := by
  obtain ⟨-, rfl⟩ | ⟨tail, hpc, rfl⟩ := step_cases hstep
  · exact ⟨hchannel.tail, le_rfl⟩
  · unfold Inv at h
    rw [hpc] at h
    obtain ⟨htail, hle⟩ := h
    have hpopped := hchannel.popped_prefix.length_le
    refine ⟨?_, hchannel.unpopped_le⟩
    -- the pushed count at this load, less the popped count at the first
    have hsum : c.unpopped + (c.popped.length - o.poppedBefore) =
        c.pushed.length - o.poppedBefore := by
      unfold Channel.unpopped
      omega
    rw [htail, hchannel.head, hsum]
    exact (UInt64.ofNat_sub (hle.trans hpopped)).symm

/-- If a pop has completed since the first load, something was left in the ring: now, or at the
second load of a call that has returned. -/
def LeavesSome (o : Observer) (c : Channel α) : Prop :=
  match o.pc with
  | .idle | .loadTail => True
  | .loadHead _ => c.popped.length = o.poppedBefore ∨ c.unpopped ≠ 0
  | .returned _ => o.popsBetween = 0 ∨ o.occupancy ≠ 0

theorem LeavesSome.step {o o' : Observer} {c : Channel α} (h : o.LeavesSome c)
    (hstep : o.step c = some o') : o'.LeavesSome c := by
  obtain ⟨-, rfl⟩ | ⟨tail, hpc, rfl⟩ := step_cases hstep
  · exact Or.inl rfl
  · unfold LeavesSome at h
    rw [hpc] at h
    exact h.imp_left fun hpopped => by rw [hpopped, Nat.sub_self]

theorem LeavesSome.returned {o : Observer} {c : Channel α} (h : o.LeavesSome c) {size : UInt64}
    (hpc : o.pc = .returned size) : o.popsBetween = 0 ∨ o.occupancy ≠ 0 := by
  unfold LeavesSome at h
  rwa [hpc] at h

end Observer

namespace Watched

variable {ι α : Type}

def Inv (w : Watched ι α) (bits tailSeen headSeen : Nat) : Prop :=
  w.channel.Inv bits tailSeen headSeen ∧ ∀ i, (w.observers i).Inv w.channel (2 ^ bits)

variable [DecidableEq ι]

theorem forall_setObserver (P : Observer → Prop) {w : Watched ι α} (h : ∀ j, P (w.observers j))
    (i : ι) {o : Observer} (ho : P o) : ∀ j, P ((w.setObserver i o).observers j) := by
  intro j
  rcases eq_or_ne j i with rfl | hne
  · simpa [Watched.setObserver] using ho
  · simpa [Watched.setObserver, Function.update_of_ne hne] using h j

theorem Inv.setObserver {w : Watched ι α} {bits tailSeen headSeen : Nat}
    (h : w.Inv bits tailSeen headSeen) (i : ι) {o : Observer} (ho : o.Inv w.channel (2 ^ bits)) :
    (w.setObserver i o).Inv bits tailSeen headSeen :=
  ⟨h.1, forall_setObserver (fun o => o.Inv w.channel (2 ^ bits)) h.2 i ho⟩

theorem Inv.step [Inhabited α] {w w' : Watched ι α} {bits tailSeen headSeen : Nat}
    (h : w.Inv bits tailSeen headSeen) (hstep : w.Step w') :
    ∃ tailSeen' headSeen', w'.Inv bits tailSeen' headSeen' := by
  cases hstep with
  | channel hstep =>
      obtain ⟨tailSeen', headSeen', h'⟩ := h.1.step hstep
      exact ⟨tailSeen', headSeen', h', fun i => (h.2 i).frame hstep.popped_length_le⟩
  | callSize i hidle => exact ⟨_, _, h.setObserver i trivial⟩
  | size i hstep => exact ⟨_, _, h.setObserver i ((h.2 i).step h.1 hstep)⟩
  | returnSize i size hreturned => exact ⟨_, _, h.setObserver i trivial⟩

theorem inv_of_run [Inhabited α] {n : UInt64} {ring : SpscRing α}
    (hring : SpscRing.new n = some ring) {w : Watched ι α}
    (hrun : Relation.ReflTransGen Step { channel := { ring := ring } } w) :
    ∃ bits tailSeen headSeen, w.Inv bits tailSeen headSeen := by
  obtain ⟨bits, hinit, -⟩ := Channel.inv_new hring
  refine ⟨bits, ?_⟩
  induction hrun with
  | refl => exact ⟨0, 0, hinit, fun i => trivial⟩
  | tail _ hstep ih =>
      obtain ⟨_, _, h⟩ := ih
      exact h.step hstep

/-! ### A call overtaken by a pop -/

def twoSlots : SpscRing Nat := { cap := 2, mask := 1, slots := [0, 0] }

theorem new_two : SpscRing.new 2 = some twoSlots := rfl

def onePushed : Channel Nat :=
  { ring := { twoSlots with slots := [7, 0], head := 1 }
    producer := .returned true
    pushed := [7] }

def onePopped : Channel Nat :=
  { onePushed with
    ring := { onePushed.ring with tail := 1, headCache := 1 }
    consumer := .returned (some 7)
    popped := [7]
    headLoad := 1 }

def overtaken : Watched Unit Nat :=
  { channel := onePopped
    observers := fun _ => { pc := .returned 1, popsBetween := 1 } }

theorem run_onePushed : Relation.ReflTransGen Channel.Step { ring := twoSlots } onePushed :=
  .head (.callPush 7 rfl) <| .head (.push rfl) <| .head (.push rfl) <| .head (.push rfl) <|
    .head (.push rfl) .refl

theorem run_onePopped : Relation.ReflTransGen Channel.Step onePushed onePopped :=
  .head (.callPop rfl) <| .head (.pop rfl) <| .head (.pop rfl) <| .head (.pop rfl) <|
    .head (.pop rfl) <| .head (.pop rfl) <| .head (.pop rfl) <| .head (.pop rfl) .refl

theorem run_channel [Inhabited α] (observers : ι → Observer) {c c' : Channel α}
    (hrun : Relation.ReflTransGen Channel.Step c c') :
    Relation.ReflTransGen Step { channel := c, observers := observers }
      { channel := c', observers := observers } := by
  induction hrun with
  | refl => exact .refl
  | tail _ hstep ih => exact ih.tail (.channel hstep)

/-- The pop runs between the loads of the only observer. -/
theorem run_overtaken :
    Relation.ReflTransGen Step { channel := { ring := twoSlots } } overtaken := by
  have hfirst : Relation.ReflTransGen Step ({ channel := onePushed } : Watched Unit Nat)
      { channel := onePushed, observers := fun _ => { pc := .loadHead 0 } } :=
    .head (.callSize () rfl) (.single (.size () rfl))
  have hsecond : ({ channel := onePopped, observers := fun _ => { pc := .loadHead 0 } } :
      Watched Unit Nat).Step overtaken :=
    .size () rfl
  exact (run_channel _ run_onePushed).trans
    (hfirst.trans ((run_channel _ run_onePopped).tail hsecond))

/-! ### The answers -/

/-- For any number of observers and every interleaving of their loads with the two sides' accesses:
short of `2 ^ 63` pops between the loads, the subtraction does not wrap. -/
theorem sizeApprox_between [Inhabited α] {n : UInt64} {ring : SpscRing α}
    (hring : SpscRing.new n = some ring) {w : Watched ι α}
    (hrun : Relation.ReflTransGen Step { channel := { ring := ring } } w) {i : ι} {size : UInt64}
    (hreturned : (w.observers i).pc = .returned size)
    (hpops : (w.observers i).popsBetween < 2 ^ 63) :
    size.toNat = (w.observers i).occupancy + (w.observers i).popsBetween ∧
      (w.observers i).occupancy ≤ size.toNat ∧
      size.toNat ≤ w.channel.ring.capacity.toNat + (w.observers i).popsBetween ∧
      (SpscRing.emptyApprox size = true → (w.observers i).occupancy = 0) := by
  obtain ⟨bits, _, _, hchannel, hobservers⟩ := inv_of_run hring hrun
  obtain ⟨hsize, hoccupancy⟩ := (hobservers i).returned hreturned
  have hpow := hchannel.two_pow_le
  have hexact : size.toNat = (w.observers i).occupancy + (w.observers i).popsBetween := by
    rw [hsize]
    exact UInt64.toNat_ofNat_of_lt' (by change _ < 2 ^ 64; omega)
  refine ⟨hexact, by omega, ?_, fun hempty => ?_⟩
  · rw [hchannel.capacity_toNat]
    omega
  · have hzero : size = 0 := eq_of_beq hempty
    have : size.toNat = 0 := congrArg UInt64.toNat hzero
    omega

theorem sizeApprox_between_overtaken :
    (overtaken.observers ()).pc = .returned 1 ∧ (overtaken.observers ()).popsBetween < 2 ^ 63 ∧
      (1 : UInt64).toNat = (overtaken.observers ()).occupancy +
        (overtaken.observers ()).popsBetween := by
  have hreturned : (overtaken.observers ()).pc = .returned 1 := rfl
  have hpops : (overtaken.observers ()).popsBetween < 2 ^ 63 := by decide
  exact ⟨hreturned, hpops, (sizeApprox_between new_two run_overtaken hreturned hpops).1⟩

/-- What the call's answer says, across the wrap. -/
theorem emptyApprox_eq_false_iff [Inhabited α] {n : UInt64} {ring : SpscRing α}
    (hring : SpscRing.new n = some ring) {w : Watched ι α}
    (hrun : Relation.ReflTransGen Step { channel := { ring := ring } } w) {i : ι} {size : UInt64}
    (hreturned : (w.observers i).pc = .returned size) :
    SpscRing.emptyApprox size = false ↔
      ¬ 2 ^ 64 ∣ (w.observers i).occupancy + (w.observers i).popsBetween := by
  obtain ⟨_, _, _, -, hobservers⟩ := inv_of_run hring hrun
  obtain ⟨hsize, -⟩ := (hobservers i).returned hreturned
  rw [SpscRing.emptyApprox, beq_eq_false_iff_ne, ne_eq, not_iff_not, ← UInt64.toNat_inj, hsize,
    UInt64.toNat_ofNat']
  exact (Nat.dvd_iff_mod_eq_zero).symm

/-- A step that does not empty the ring while some call is between its two loads. -/
def Undisturbed [Inhabited α] (w w' : Watched ι α) : Prop :=
  w.Step w' ∧ (w.channel.unpopped ≠ 0 → w'.channel.unpopped = 0 →
    ∀ i, ¬ (w.observers i).BetweenLoads)

def LeavesSome (w : Watched ι α) : Prop := ∀ i, (w.observers i).LeavesSome w.channel

omit [DecidableEq ι] in
theorem LeavesSome.channel [Inhabited α] {w : Watched ι α} (h : w.LeavesSome) {c : Channel α}
    (hstep : w.channel.Step c) (hle : c.popped.length ≤ c.pushed.length)
    (hcalm : w.channel.unpopped ≠ 0 → c.unpopped = 0 → ∀ i, ¬ (w.observers i).BetweenLoads) :
    LeavesSome { w with channel := c } := by
  intro i
  have hi := h i
  unfold Observer.LeavesSome at hi ⊢
  cases hpc : (w.observers i).pc with
  | idle => trivial
  | loadTail => trivial
  | returned size =>
      rw [hpc] at hi
      exact hi
  | loadHead tail =>
      rw [hpc] at hi
      by_cases hleft : c.unpopped = 0
      · -- an empty ring was empty before the step, which therefore popped nothing
        have hempty : w.channel.unpopped = 0 := by
          by_contra hsome
          exact hcalm hsome hleft i ⟨tail, hpc⟩
        have hpopped := hi.resolve_right (fun hne => hne hempty)
        rcases hstep.counts with ⟨hsame, -⟩ | ⟨hpop, hpushed⟩
        · exact Or.inl (hsame.trans hpopped)
        · unfold Channel.unpopped at hempty
          omega
      · exact Or.inr hleft

theorem LeavesSome.setObserver {w : Watched ι α} (h : w.LeavesSome) (i : ι) {o : Observer}
    (ho : o.LeavesSome w.channel) : (w.setObserver i o).LeavesSome :=
  forall_setObserver (fun o => o.LeavesSome w.channel) h i ho

theorem LeavesSome.step [Inhabited α] {w w' : Watched ι α} (h : w.LeavesSome)
    (hle : w'.channel.popped.length ≤ w'.channel.pushed.length) (hstep : w.Undisturbed w') :
    w'.LeavesSome := by
  obtain ⟨hstep, hcalm⟩ := hstep
  cases hstep with
  | channel hstep => exact h.channel hstep hle hcalm
  | callSize i hidle => exact h.setObserver i trivial
  | size i hstep => exact h.setObserver i ((h i).step hstep)
  | returnSize i size hreturned => exact h.setObserver i trivial

theorem step_of_undisturbed [Inhabited α] {w w' : Watched ι α}
    (hrun : Relation.ReflTransGen Undisturbed w w') : Relation.ReflTransGen Step w w' :=
  Relation.ReflTransGen.mono (fun _ _ hstep => hstep.1) _ _ hrun

theorem leavesSome_of_run [Inhabited α] {n : UInt64} {ring : SpscRing α}
    (hring : SpscRing.new n = some ring) {w : Watched ι α}
    (hrun : Relation.ReflTransGen Undisturbed { channel := { ring := ring } } w) :
    w.LeavesSome := by
  induction hrun with
  | refl => exact fun i => trivial
  | tail hrun hstep ih =>
      obtain ⟨_, _, _, hchannel, -⟩ := inv_of_run hring (step_of_undisturbed (hrun.tail hstep))
      exact ih.step hchannel.popped_prefix.length_le hstep

def twoPushed : Channel Nat :=
  { ring := { twoSlots with slots := [7, 8], head := 2 }
    producer := .returned true
    pushed := [7, 8] }

def oneLeft : Channel Nat :=
  { twoPushed with
    ring := { twoPushed.ring with tail := 1, headCache := 2 }
    consumer := .returned (some 7)
    popped := [7]
    headLoad := 2 }

/-- Of two values one is popped during the call. -/
def oneTaken : Watched Unit Nat :=
  { channel := oneLeft
    observers := fun _ => { pc := .returned 2, popsBetween := 1, occupancy := 1 } }

theorem run_twoPushed : Relation.ReflTransGen Channel.Step onePushed twoPushed :=
  .head (.returnPush true rfl) <| .head (.callPush 8 rfl) <| .head (.push rfl) <|
    .head (.push rfl) <| .head (.push rfl) <| .head (.push rfl) .refl

theorem run_oneLeft :
    Relation.ReflTransGen (fun c c' : Channel Nat => c.Step c' ∧ c'.unpopped ≠ 0) twoPushed
      oneLeft :=
  .head ⟨.callPop rfl, by decide⟩ <| .head ⟨.pop rfl, by decide⟩ <| .head ⟨.pop rfl, by decide⟩ <|
    .head ⟨.pop rfl, by decide⟩ <| .head ⟨.pop rfl, by decide⟩ <| .head ⟨.pop rfl, by decide⟩ <|
      .head ⟨.pop rfl, by decide⟩ <| .head ⟨.pop rfl, by decide⟩ .refl

theorem run_oneTaken :
    Relation.ReflTransGen Undisturbed { channel := { ring := twoSlots } } oneTaken := by
  -- before the call no step can disturb it
  have hidle : ∀ c : Channel Nat, Relation.ReflTransGen Channel.Step { ring := twoSlots } c →
      Relation.ReflTransGen Undisturbed ({ channel := { ring := twoSlots } } : Watched Unit Nat)
        { channel := c } := by
    intro c hrun
    induction hrun with
    | refl => exact .refl
    | tail _ hstep ih => exact ih.tail ⟨.channel hstep, fun _ _ _ hbetween => nomatch hbetween⟩
  have hcall : Relation.ReflTransGen Undisturbed ({ channel := twoPushed } : Watched Unit Nat)
      { channel := twoPushed, observers := fun _ => { pc := .loadHead 0 } } :=
    .head ⟨.callSize () rfl, fun hsome hnone => absurd hnone hsome⟩
      (.single ⟨.size () rfl, fun hsome hnone => absurd hnone hsome⟩)
  -- between the loads the pop leaves a value
  have hpop : ∀ c : Channel Nat, Relation.ReflTransGen
      (fun c c' : Channel Nat => c.Step c' ∧ c'.unpopped ≠ 0) twoPushed c →
      Relation.ReflTransGen Undisturbed
        ({ channel := twoPushed, observers := fun _ => { pc := .loadHead 0 } } : Watched Unit Nat)
        { channel := c, observers := fun _ => { pc := .loadHead 0 } } := by
    intro c hrun
    induction hrun with
    | refl => exact .refl
    | tail _ hstep ih => exact ih.tail ⟨.channel hstep.1, fun _ hnone => absurd hnone hstep.2⟩
  have hlast : ({ channel := oneLeft, observers := fun _ => { pc := .loadHead 0 } } :
      Watched Unit Nat).Undisturbed oneTaken :=
    ⟨.size () rfl, fun hsome hnone => absurd hnone hsome⟩
  exact ((hidle twoPushed (run_onePushed.trans run_twoPushed)).trans hcall).trans
    ((hpop oneLeft run_oneLeft).tail hlast)

/-- A call that answers "not empty" is right about the moment of its second load as long as no pop
empties the ring between its two loads. Of a single call, in any run: it is wrong when it finds the
ring empty and pops have completed since its first load, unless their number is a multiple of
`2 ^ 64`. -/
theorem emptyApprox_false_of_undisturbed [Inhabited α] {n : UInt64} {ring : SpscRing α}
    (hring : SpscRing.new n = some ring) :
    (∀ w : Watched ι α, Relation.ReflTransGen Undisturbed { channel := { ring := ring } } w →
      ∀ i size, (w.observers i).pc = .returned size → SpscRing.emptyApprox size = false →
        (w.observers i).occupancy ≠ 0) ∧
    ∀ w : Watched ι α, Relation.ReflTransGen Step { channel := { ring := ring } } w →
      ∀ i size, (w.observers i).pc = .returned size →
        ((SpscRing.emptyApprox size = false → (w.observers i).occupancy ≠ 0) ↔
          ((w.observers i).occupancy = 0 → 2 ^ 64 ∣ (w.observers i).popsBetween)) := by
  refine ⟨fun w hrun i size hreturned hanswer => ?_, fun w hrun i size hreturned => ?_⟩
  · rw [emptyApprox_eq_false_iff hring (step_of_undisturbed hrun) hreturned] at hanswer
    rcases (leavesSome_of_run hring hrun i).returned hreturned with hpops | hoccupancy
    · intro hempty
      rw [hempty, hpops] at hanswer
      exact hanswer (dvd_zero _)
    · exact hoccupancy
  · rw [emptyApprox_eq_false_iff hring hrun hreturned]
    constructor
    · intro hright hempty
      by_contra hpops
      rw [hempty, Nat.zero_add] at hright
      exact hright hpops rfl
    · intro hpops hanswer hempty
      rw [hempty, Nat.zero_add] at hanswer
      exact hanswer (hpops hempty)

theorem emptyApprox_false_of_undisturbed_two :
    ∃ w : Watched Unit Nat,
      Relation.ReflTransGen Undisturbed { channel := { ring := twoSlots } } w ∧
        (w.observers ()).pc = .returned 2 ∧ (w.observers ()).popsBetween = 1 ∧
        (w.observers ()).occupancy ≠ 0 := by
  have hreturned : (oneTaken.observers ()).pc = .returned 2 := rfl
  exact ⟨oneTaken, run_oneTaken, hreturned, rfl,
    (emptyApprox_false_of_undisturbed new_two).1 oneTaken run_oneTaken () 2 hreturned (by decide)⟩

/-- One value is pushed, and popped between the two loads: the answer is "not empty", and there is
nothing in the ring. -/
theorem emptyApprox_false_of_empty :
    SpscRing.new 2 = some twoSlots ∧
      ∃ w : Watched Unit Nat, Relation.ReflTransGen Step { channel := { ring := twoSlots } } w ∧
        ∃ size, (w.observers ()).pc = .returned size ∧ SpscRing.emptyApprox size = false ∧
          (w.observers ()).occupancy = 0 :=
  ⟨new_two, overtaken, run_overtaken, 1, rfl, by decide, rfl⟩

end Watched

end HftOrderbook
