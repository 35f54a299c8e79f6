import HftOrderbook.Mt5.LiveBridge

/-!
# Schedules of the two programs

A schedule says who moves next and how much of an ack gets out. Whatever is on its way arrives at
once, and all other sends get out whole. What a schedule does can be computed, and each of its moves
is a step.
-/

namespace HftOrderbook.Mt5

open ExpertAdvisor LineStream

variable {Double σ : Type} [FloatText Double]

/-- More bytes than there are in any text. -/
def sendRoom : Nat := 4096

/-- The bridge takes a line, or the bytes on their way, or finds the peer closed. It waits, with
`none`, where there is nothing of that. -/
def Link.next (strategy : Strategy Double σ) (l : Link Double σ) : Option (Link Double σ) :=
  match l.up.receive with
  | some (line, up) => some ({ l with up := up }.serve strategy line sendRoom)
  | none =>
      if l.up.flight ≠ [] then some { l with up := l.up.carry id [l.up.flight] }
      else if l.up.isOpen then none
      else if l.up.buf = [] then some l.finish
      else some ({ l with up := { l.up with buf := [] }, flushed := some l.up.buf }.serve strategy
        l.up.buf sendRoom)

inductive Move (Double : Type)
  | connect
  | tick (t : MqlTick Double)
  /-- `RecvLine`, and what follows if it finds a line. Of an ack, `n` bytes get out. -/
  | poll (price : EnumOrderType → Double) (result : TradeResult) (n : Nat)
  /-- On the `k`-th connection, the newest being the first. -/
  | bridge (k : Nat)
  | cut (k : Nat)

namespace Live

variable (terminal : Terminal Double) (strategy : Strategy Double σ) (strat : σ)

def move (s : Live Double σ) : Move Double → Option (Live Double σ)
  | .connect =>
      if s.advisor.pc = .waiting then
        some
          { advisor := { s.advisor with connected := true }
            links :=
              { bridge := { strat := strat }
                up := (({} : LineStream).send (helloLine terminal) sendRoom).send
                  (subscribeLine terminal) sendRoom } ::
                s.hangUp }
      else none
  | .tick t =>
      match s.links with
      | [] => none
      | l :: older =>
          if s.advisor.pc = .waiting ∧ s.advisor.connected = true then
            some
              { advisor := { s.advisor with pc := .draining true, ticks := s.advisor.ticks + 1 }
                links :=
                  { l with up := l.up.send (ExpertAdvisor.encodeTick terminal t) sendRoom } ::
                    older }
          else none
  | .poll price result n =>
      match s.advisor.pc, s.links with
      | .draining onTick, l :: older =>
          match (l.down.carry terminal.charArrayToString [l.down.flight]).receive with
          | none =>
              some
                { advisor := { s.advisor with pc := .waiting }
                  links :=
                    { l with down := l.down.carry terminal.charArrayToString [l.down.flight] } ::
                      older }
          | some (line, down) =>
              some
                { advisor :=
                    (handle terminal onTick price result n line s.advisor { l with down }).1
                  links :=
                    (handle terminal onTick price result n line s.advisor { l with down }).2 ::
                      older }
      | _, _ => none
  | .bridge k =>
      match s.links.drop k with
      | [] => none
      | l :: older =>
          if (∀ o ∈ older, o.bridge.returned = true) ∧ l.bridge.returned = false then
            (l.next strategy).map fun l' => { s with links := s.links.take k ++ l' :: older }
          else none
  | .cut k =>
      match s.links.drop k with
      | [] => none
      | l :: older =>
          some { s with
            links := s.links.take k ++
              { l with up := l.up.close, down := l.down.close } :: older }

def carryOut (s : Live Double σ) (moves : List (Move Double)) : Option (Live Double σ) :=
  moves.foldlM (move terminal strategy strat) s

end Live

/-! ### Moves are steps -/

variable {terminal : Terminal Double} {strategy : Strategy Double σ} {strat : σ}
  {maxIdleIntervals : Int}

theorem Link.serverStep_of_next {l l' : Link Double σ} (h : l.next strategy = some l') :
    l.ServerStep strategy maxIdleIntervals l' := by
  unfold next at h
  cases hreceive : l.up.receive with
  | some taken =>
      obtain ⟨line, up⟩ := taken
      simp only [hreceive] at h
      exact Option.some.inj h ▸ .line hreceive sendRoom
  | none =>
      simp only [hreceive] at h
      have hclosed (hflight : ¬ l.up.flight ≠ []) (hopen : ¬ l.up.isOpen = true) :
          l.ServerStep strategy maxIdleIntervals (if l.up.buf = [] then l.finish
            else { l with up := { l.up with buf := [] }, flushed := some l.up.buf }.serve strategy
              l.up.buf sendRoom) :=
        .closed hreceive (not_not.mp hflight) (Bool.eq_false_iff.mpr hopen) sendRoom
      split_ifs at h with hflight hopen hbuf
      · exact Option.some.inj h ▸ .recv hreceive List.prefix_rfl
      · have hstep := hclosed hflight hopen
        rw [if_pos hbuf] at hstep
        exact Option.some.inj h ▸ hstep
      · have hstep := hclosed hflight hopen
        rw [if_neg hbuf] at hstep
        exact Option.some.inj h ▸ hstep

namespace Live

/-- The connections up to the `k`-th, that one, and the older ones. -/
theorem links_eq_of_drop {s : Live Double σ} {k : Nat} {l : Link Double σ}
    {older : List (Link Double σ)} (hdrop : s.links.drop k = l :: older) :
    s.links = s.links.take k ++ l :: older := by
  rw [← hdrop, List.take_append_drop]

theorem step_of_move {s s' : Live Double σ} {m : Move Double}
    (h : s.move terminal strategy strat m = some s') :
    s.Step terminal strategy strat maxIdleIntervals s' := by
  cases m with
  | connect =>
      obtain ⟨hpc, h⟩ := Option.ite_none_right_eq_some.mp h
      exact Option.some.inj h ▸ .connect hpc sendRoom sendRoom
  | tick t =>
      unfold move at h
      cases hlinks : s.links with
      | nil => simp [hlinks] at h
      | cons l older =>
          simp only [hlinks] at h
          obtain ⟨⟨hpc, hconnected⟩, h⟩ := Option.ite_none_right_eq_some.mp h
          exact Option.some.inj h ▸ .tick hpc hconnected hlinks t sendRoom
  | poll price result n =>
      unfold move at h
      cases hpc : s.advisor.pc with
      | waiting => simp [hpc] at h
      | removed => simp [hpc] at h
      | draining onTick =>
          cases hlinks : s.links with
          | nil => simp [hpc, hlinks] at h
          | cons l older =>
              have hflight : [l.down.flight].flatten <+: l.down.flight := by
                rw [List.flatten_singleton]
              simp only [hpc, hlinks] at h
              cases hreceive :
                  (l.down.carry terminal.charArrayToString [l.down.flight]).receive with
              | none =>
                  simp only [hreceive] at h
                  exact Option.some.inj h ▸ .recvNone hpc hlinks hflight hreceive
              | some taken =>
                  obtain ⟨line, down⟩ := taken
                  simp only [hreceive] at h
                  exact Option.some.inj h ▸
                    .recvLine hpc hlinks hflight hreceive price result n
  | bridge k =>
      unfold move at h
      cases hdrop : s.links.drop k with
      | nil => simp [hdrop] at h
      | cons l older =>
          simp only [hdrop] at h
          obtain ⟨⟨hturn, hrunning⟩, h⟩ := Option.ite_none_right_eq_some.mp h
          obtain ⟨l', hnext, rfl⟩ := Option.map_eq_some_iff.mp h
          exact .server (links_eq_of_drop hdrop) hturn hrunning (Link.serverStep_of_next hnext)
  | cut k =>
      unfold move at h
      cases hdrop : s.links.drop k with
      | nil => simp [hdrop] at h
      | cons l older =>
          simp only [hdrop] at h
          exact Option.some.inj h ▸ .cut (links_eq_of_drop hdrop)

theorem reachable_of_carryOut (moves : List (Move Double)) : ∀ {s s' : Live Double σ},
    s.carryOut terminal strategy strat moves = some s' →
      Relation.ReflTransGen (Step terminal strategy strat maxIdleIntervals) s s' := by
  induction moves with
  | nil => exact fun h => Option.some.inj h ▸ .refl
  | cons m moves ih =>
      intro s s' h
      rw [carryOut, List.foldlM_cons, Option.bind_eq_bind] at h
      obtain ⟨t, hmove, hmoves⟩ := Option.bind_eq_some_iff.mp h
      exact .head (step_of_move hmove) (ih hmoves)

end Live

end HftOrderbook.Mt5
