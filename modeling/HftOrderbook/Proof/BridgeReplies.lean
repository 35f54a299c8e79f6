import HftOrderbook.Mt5.Bridge
import HftOrderbook.Proof.Mt5Codec

/-!
# One reply for every tick

A line can be a tick to `kind_of`, which reads nothing but its type, and not be one to `parse_tick`,
which wants its fields. The loop leaves such a line without a reply, and the peer that waits for one
is behind from there on. Every other tick is answered before the next line is taken.
-/

namespace HftOrderbook.Mt5

open ByteText

variable {Double σ : Type} [FloatText Double]

/-- The lines sent before the next one is taken. -/
def sentNext : List Event → List (List UInt8)
  | .sent text :: events => text :: sentNext events
  | _ => []

variable (Double) in
/-- A reply to a tick is an order or says that there is none. -/
def IsReply (text : List UInt8) : Prop :=
  text = encodeNop ∨ ∃ o : Order Double, text = encodeOrder o

variable (Double) in
/-- Exactly one reply follows each tick before the next line is taken. -/
def EveryTickAnswered (events : List Event) : Prop :=
  ∀ text later, .received text :: later <:+ events → kindOf text = .tick →
    ∃ reply, sentNext later = [reply] ∧ IsReply Double reply

/-- The lines that come before the peer closes, stays silent too long, or has said goodbye. -/
def linesHeard (maxIdleIntervals : Int) : Int → List Received → List (List UInt8)
  | _, [] => []
  | _, .closed :: _ => []
  | idle, .timedOut :: calls =>
      if 0 < maxIdleIntervals then
        if maxIdleIntervals ≤ idle + 1 then [] else linesHeard maxIdleIntervals (idle + 1) calls
      else []
  | _, .line text :: calls =>
      text :: if kindOf text = .bye then [] else linesHeard maxIdleIntervals 0 calls

/-! ### One round -/

namespace Bridge

variable (onTick : σ → Tick Double → σ × Option (Order Double)) {b : Bridge σ} {text : List UInt8}

theorem onLineWith_rejected (hkind : kindOf text = .tick)
    (hparse : (parseTick text ({} : Tick Double)).1 = false) : b.onLineWith onTick text = b := by
  rcases htick : parseTick text ({} : Tick Double) with ⟨ok, t⟩
  rw [htick] at hparse
  obtain rfl : ok = false := hparse
  rw [onLineWith, hkind, htick]

theorem onLineWith_accepted (hkind : kindOf text = .tick)
    (hparse : (parseTick text ({} : Tick Double)).1 = true) :
    ∃ reply, (b.onLineWith onTick text).outbox = some reply ∧ IsReply Double reply ∧
      (b.onLineWith onTick text).returned = b.returned := by
  rcases htick : parseTick text ({} : Tick Double) with ⟨ok, t⟩
  rw [htick] at hparse
  obtain rfl : ok = true := hparse
  rw [onLineWith, hkind, htick]
  rcases hdecision : onTick b.strat t with ⟨strat, decision⟩
  cases decision with
  | none =>
      simp only [hdecision]
      exact ⟨_, rfl, Or.inl rfl, trivial⟩
  | some ord =>
      simp only [hdecision]
      exact ⟨_, rfl, Or.inr ⟨_, rfl⟩, trivial⟩

/-- Only a goodbye ends the loop. -/
theorem returned_onLineWith (hreturned : b.returned = false) :
    (b.onLineWith onTick text).returned = true ↔ kindOf text = .bye := by
  cases hkind : kindOf text with
  | tick =>
      cases hparse : (parseTick text ({} : Tick Double)).1 with
      | false => rw [onLineWith_rejected onTick hkind hparse, hreturned]; simp
      | true =>
          obtain ⟨-, -, -, hsame⟩ := onLineWith_accepted onTick (b := b) hkind hparse
          rw [hsame, hreturned]
          simp
  | _ => simp [onLineWith, hkind, hreturned]

/-- A tick is replied to in its round exactly when it is accepted. -/
theorem reply_onLineWith (houtbox : b.outbox = none) (hkind : kindOf text = .tick) :
    (∃ r, (b.onLineWith onTick text).outbox = some r ∧ IsReply Double r) ↔
      (parseTick text ({} : Tick Double)).1 = true := by
  constructor
  · rintro ⟨r, hr, -⟩
    by_contra hparse
    rw [onLineWith_rejected onTick hkind (Bool.eq_false_iff.mpr hparse), houtbox] at hr
    cases hr
  · intro hparse
    obtain ⟨reply, hreply, hisReply, -⟩ := onLineWith_accepted onTick (b := b) hkind hparse
    exact ⟨reply, hreply, hisReply⟩

end Bridge

theorem everyTickAnswered_nil : EveryTickAnswered Double [] := by
  intro text later hsuffix
  exact absurd (List.suffix_nil.mp hsuffix) (List.cons_ne_nil _ _)

theorem everyTickAnswered_cons {e : Event} {events : List Event} :
    EveryTickAnswered Double (e :: events) ↔
      (∀ text, e = .received text → kindOf text = .tick →
        ∃ reply, sentNext events = [reply] ∧ IsReply Double reply) ∧
      EveryTickAnswered Double events := by
  constructor
  · intro h
    refine ⟨fun text he => h text events (by rw [he]), fun text later hsuffix => ?_⟩
    exact h text later (hsuffix.trans (List.suffix_cons e events))
  · rintro ⟨hfirst, hrest⟩ text later hsuffix
    rcases List.suffix_cons_iff.mp hsuffix with hsame | hsuffix
    · obtain ⟨rfl, rfl⟩ := List.cons.inj hsame
      exact hfirst text rfl
    · exact hrest text later hsuffix

/-- The line taken in a round and what is sent in it come before the next round. -/
theorem everyTickAnswered_round {text : List UInt8} {reply : Option (List UInt8)}
    {events : List Event} (hevents : sentNext events = []) :
    EveryTickAnswered Double (.received text :: ((reply.map Event.sent).toList ++ events)) ↔
      (kindOf text = .tick → ∃ r, reply = some r ∧ IsReply Double r) ∧
        EveryTickAnswered Double events := by
  have hnext : sentNext ((reply.map Event.sent).toList ++ events) = reply.toList := by
    cases reply with
    | none => exact hevents
    | some r => exact congrArg (r :: ·) hevents
  have hlater : EveryTickAnswered Double ((reply.map Event.sent).toList ++ events) ↔
      EveryTickAnswered Double events := by
    cases reply with
    | none => exact Iff.rfl
    | some r =>
        refine everyTickAnswered_cons.trans (and_iff_right fun text he => ?_)
        cases he
  rw [everyTickAnswered_cons, hlater, hnext]
  simp only [Event.received.injEq, forall_eq', Option.toList_eq_singleton_iff]

/-! ### The loop -/

section Serve

variable (onTick : σ → Tick Double → σ × Option (Order Double)) (maxIdleIntervals : Int)

theorem sentNext_serve (calls : List Received) : ∀ (b : Bridge σ) (idle : Int),
    sentNext (b.serve onTick maxIdleIntervals idle calls) = [] := by
  induction calls with
  | nil => exact fun _ _ => rfl
  | cons call calls ih =>
      intro b idle
      cases call with
      | line text => rfl
      | closed => rfl
      | timedOut =>
          rw [Bridge.serve]
          split_ifs
          · rfl
          · exact ih b _
          · rfl

/-- What holds from any round on. -/
theorem everyTickAnswered_serve (calls : List Received) : ∀ (b : Bridge σ) (idle : Int),
    b.outbox = none → b.returned = false →
      (EveryTickAnswered Double (b.serve onTick maxIdleIntervals idle calls) ↔
        ∀ text ∈ linesHeard maxIdleIntervals idle calls, kindOf text = .tick →
          (parseTick text ({} : Tick Double)).1 = true) := by
  induction calls with
  | nil =>
      intro b idle _ _
      exact iff_of_true everyTickAnswered_nil (by simp [linesHeard])
  | cons call calls ih =>
      intro b idle houtbox hreturned
      cases call with
      | closed => exact iff_of_true everyTickAnswered_nil (by simp [linesHeard])
      | timedOut =>
          rw [Bridge.serve, linesHeard]
          split_ifs
          · exact iff_of_true everyTickAnswered_nil (by simp)
          · exact ih b _ houtbox hreturned
          · exact iff_of_true everyTickAnswered_nil (by simp)
      | line text =>
          have hbye : (b.onLineWith onTick text).returned = true ↔ kindOf text = .bye :=
            Bridge.returned_onLineWith onTick hreturned
          rw [Bridge.serve, linesHeard, List.forall_mem_cons]
          set b' := b.onLineWith onTick text
          rw [everyTickAnswered_round (by
            split_ifs
            · rfl
            · exact sentNext_serve onTick maxIdleIntervals calls _ _)]
          refine and_congr
            (forall_congr' fun hkind => Bridge.reply_onLineWith onTick houtbox hkind) ?_
          by_cases hended : kindOf text = .bye
          · rw [if_pos (hbye.mpr hended), if_pos hended]
            exact iff_of_true everyTickAnswered_nil (by simp)
          · have hgoes : b'.returned = false := Bool.eq_false_iff.mpr fun h => hended (hbye.mp h)
            rw [if_neg (by rw [hgoes]; decide), if_neg hended]
            exact ih _ 0 rfl hgoes

end Serve

/-- Every tick that a session hears is answered exactly when `parse_tick` accepts each of them. -/
theorem ticks_answered_iff (Double σ : Type) [FloatText Double]
    (onTick : σ → Tick Double → σ × Option (Order Double)) (maxIdleIntervals : Int) (strat : σ)
    (calls : List Received) :
    EveryTickAnswered Double (({ strat } : Bridge σ).serve onTick maxIdleIntervals 0 calls) ↔
      ∀ text ∈ linesHeard maxIdleIntervals 0 calls, kindOf text = .tick →
        (parseTick text ({} : Tick Double)).1 = true :=
  everyTickAnswered_serve onTick maxIdleIntervals calls { strat } 0 rfl rfl

/-- A line that says no more than that it is a tick gets no reply. -/
theorem bareTick_not_answered :
    ¬ EveryTickAnswered Int (({ strat := () } : Bridge Unit).serve
      (fun _ _ => ((), none) : Unit → Tick Int → Unit × Option (Order Int)) 0 0
      [.line (ascii "\x7b\"t\":\"tick\"\x7d"), .closed]) := by
  intro h
  obtain ⟨reply, hsent, -⟩ := h (ascii "\x7b\"t\":\"tick\"\x7d") [] List.suffix_rfl (by decide)
  cases hsent

end HftOrderbook.Mt5
