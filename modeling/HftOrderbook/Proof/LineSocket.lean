import HftOrderbook.Mt5.Tcp

/-!
# What a socket hands out

The bytes in the buffer and those not yet received are the part of the stream that has not been
handed out. Every call takes what it returns from the front of it, so neither the sizes of the
chunks nor the timeouts can be seen in what the calls return.
-/

namespace HftOrderbook.Mt5

open ByteText ChunkedWire LineProcesses

/-- The line that a call returned. -/
def Received.lines : Received → List (List UInt8)
  | .line text => [text]
  | .timedOut | .closed => []

namespace LineSocket

def pending (s : LineSocket) : List UInt8 := s.buf ++ s.wire.rest

/-- A call of `recv_line`, by what it takes from the stream. -/
inductive Reads (s s' : LineSocket) : Received → Prop
  | line {text : List UInt8} (hline : (0x0A : UInt8) ∉ text)
      (hpending : s.pending = text ++ 0x0A :: s'.pending) : Reads s s' (.line text)
  | last {text : List UInt8} (hline : (0x0A : UInt8) ∉ text) (hne : text ≠ [])
      (hpending : s.pending = text) (hnothing : s'.pending = []) : Reads s s' (.line text)
  | timedOut (hpending : s'.pending = s.pending) : Reads s s' .timedOut
  | closed (hpending : s.pending = []) (hnothing : s'.pending = []) : Reads s s' .closed

/-! ### One line -/

/-- How the loop goes on after a call of `recv`. -/
def afterRecv (s : LineSocket) : Answer × Wire → Option (List UInt8) × LineSocket
  | (.data bytes, wire) => recvLineLoop { s with buf := s.buf ++ bytes, wire }
  | (.timedOut, wire) => (none, { s with wire, lastTimedOut := true })
  | (.closed, wire) =>
      if s.buf ≠ [] then (some s.buf, { s with buf := [], wire }) else (none, { s with wire })

theorem recvLineLoop_line {s : LineSocket} {line rest : List UInt8}
    (h : takeLine s.buf = some (line, rest)) :
    s.recvLineLoop = (some line, { s with buf := rest }) := by
  rw [recvLineLoop, h]

theorem recvLineLoop_none {s : LineSocket} (h : takeLine s.buf = none) :
    s.recvLineLoop = s.afterRecv (s.wire.recv 4096) := by
  rw [recvLineLoop, h]
  dsimp only
  split
  · next hrecv => rw [hrecv, afterRecv]
  · next hrecv => rw [hrecv, afterRecv]
  · next hrecv => rw [hrecv, afterRecv]

/-- Some chunks have come from the wire into the buffer. -/
structure Gathers (s t : LineSocket) : Prop where
  pending : t.pending = s.pending
  flag : t.lastTimedOut = s.lastTimedOut
  rest : t = s ∨ t.wire.rest.length < s.wire.rest.length
  script : ∃ j, t.wire.script = s.wire.script.drop j

theorem Gathers.refl (s : LineSocket) : Gathers s s := ⟨rfl, rfl, Or.inl rfl, 0, rfl⟩

theorem Gathers.of_chunk {s t : LineSocket} {bytes rest : List UInt8}
    (hrest : s.wire.rest = bytes ++ rest) (hlt : rest.length < s.wire.rest.length)
    (h : Gathers { s with buf := s.buf ++ bytes, wire := ⟨rest, s.wire.script.tail⟩ } t) :
    Gathers s t := by
  obtain ⟨j, hscript⟩ := h.script
  refine ⟨h.pending.trans ?_, h.flag, Or.inr ?_, j + 1, hscript⟩
  · rw [LineSocket.pending, LineSocket.pending, hrest, List.append_assoc]
  · rcases h.rest with rfl | hless
    · exact hlt
    · exact hless.trans hlt

/-- The last round of the loop. -/
inductive Ends (t : LineSocket) : Received × LineSocket → Prop
  | line {text rest : List UInt8} (hline : (0x0A : UInt8) ∉ text)
      (hbuf : t.buf = text ++ 0x0A :: rest) : Ends t (.line text, { t with buf := rest })
  | timedOut (hhead : t.wire.script.head = .timeout) :
      Ends t (.timedOut,
        { t with wire := ⟨t.wire.rest, t.wire.script.tail⟩, lastTimedOut := true })
  | last (hline : (0x0A : UInt8) ∉ t.buf) (hne : t.buf ≠ []) (hrest : t.wire.rest = []) :
      Ends t (.line t.buf, { t with buf := [], wire := ⟨[], t.wire.script.tail⟩ })
  | closed (hbuf : t.buf = []) (hrest : t.wire.rest = []) :
      Ends t (.closed, { t with wire := ⟨[], t.wire.script.tail⟩ })

/-- The loop gathers chunks, none or more, and comes to a last round. -/
theorem recvLineLoop_ends (s : LineSocket) (hflag : s.lastTimedOut = false) :
    ∃ t, Gathers s t ∧ Ends t (Received.of s.recvLineLoop) := by
  induction hn : s.wire.rest.length using Nat.strong_induction_on generalizing s with
  | _ n ih =>
      cases hline : takeLine s.buf with
      | some parts =>
          obtain ⟨line, rest⟩ := parts
          obtain ⟨hbuf, hnewline⟩ := takeLine_eq_some hline
          rw [recvLineLoop_line hline]
          exact ⟨s, .refl s, .line hnewline hbuf⟩
      | none =>
          rw [recvLineLoop_none hline]
          rcases s.wire.recv_cases (by decide : 0 < 4096) with
            ⟨bytes, rest, hrecv, hrest, -, -⟩ | ⟨hrecv, hhead⟩ | ⟨hrecv, hrest⟩
          · have hlt : rest.length < s.wire.rest.length := Wire.recv_data_lt (by decide) hrecv
            rw [hrecv, afterRecv]
            obtain ⟨t, hgathers, hends⟩ := ih rest.length (hn ▸ hlt)
              { s with buf := s.buf ++ bytes, wire := ⟨rest, s.wire.script.tail⟩ } hflag rfl
            exact ⟨t, .of_chunk hrest hlt hgathers, hends⟩
          · rw [hrecv]
            exact ⟨s, .refl s, .timedOut hhead⟩
          · rw [hrecv, afterRecv]
            split_ifs with hne
            · exact ⟨s, .refl s, .last (takeLine_eq_none hline) hne hrest⟩
            · rw [Received.of, if_neg (by rw [hflag]; decide)]
              exact ⟨s, .refl s, .closed (not_not.mp hne) hrest⟩

theorem receive_ends (s : LineSocket) :
    ∃ t, Gathers { s with lastTimedOut := false } t ∧ Ends t s.receive :=
  recvLineLoop_ends _ rfl

/-- A call of `recv_line` takes a line from the front of the stream, or nothing. -/
theorem receive_reads (s : LineSocket) : Reads s s.receive.2 s.receive.1 := by
  obtain ⟨t, hgathers, hends⟩ := receive_ends s
  have hpending : t.pending = s.pending := hgathers.pending
  generalize s.receive = result at hends
  cases hends with
  | line hline hbuf =>
      refine .line hline ?_
      rw [← hpending, pending, pending, hbuf, List.append_assoc, List.cons_append]
  | timedOut hhead => exact .timedOut hpending
  | last hline hne hrest =>
      refine .last hline hne ?_ rfl
      rw [← hpending, pending, hrest, List.append_nil]
  | closed hbuf hrest =>
      refine .closed ?_ ?_
      · rw [← hpending, pending, hbuf, hrest, List.append_nil]
      · rw [pending, hbuf, List.append_nil]

/-- A call that times out has moved some bytes into the buffer, or has met a timeout at once. -/
theorem receive_timedOut {s : LineSocket} (h : s.receive.1 = .timedOut) :
    s.receive.2.wire.rest.length < s.wire.rest.length ∨
      (s.wire.script.head = .timeout ∧ s.receive.2.wire = ⟨s.wire.rest, s.wire.script.tail⟩) := by
  obtain ⟨t, hgathers, hends⟩ := receive_ends s
  generalize s.receive = result at hends h ⊢
  cases hends with
  | timedOut hhead =>
      rcases hgathers.rest with rfl | hless
      · exact Or.inr ⟨hhead, rfl⟩
      · exact Or.inl hless
  | line hline hbuf => cases h
  | last hline hne hrest => cases h
  | closed hbuf hrest => cases h

/-- No call gives bytes back to the wire or sets the script back. -/
theorem receive_wire (s : LineSocket) :
    s.receive.2.wire.rest.length ≤ s.wire.rest.length ∧
      ∃ j, s.receive.2.wire.script = s.wire.script.drop j := by
  obtain ⟨t, hgathers, hends⟩ := receive_ends s
  obtain ⟨j, hscript⟩ := hgathers.script
  have hle : t.wire.rest.length ≤ s.wire.rest.length := by
    rcases hgathers.rest with rfl | hless
    · exact le_rfl
    · exact hless.le
  have htail : t.wire.script.tail = s.wire.script.drop (j + 1) := by
    rw [hscript, Stream'.tail_drop']
  generalize s.receive = result at hends ⊢
  cases hends with
  | line hline hbuf => exact ⟨hle, j, hscript⟩
  | timedOut hhead => exact ⟨hle, j + 1, htail⟩
  | last hline hne hrest => exact ⟨Nat.zero_le _, j + 1, htail⟩
  | closed hbuf hrest => exact ⟨Nat.zero_le _, j + 1, htail⟩

/-! ### Calls in a row -/

theorem Reads.splitLines {s s' : LineSocket} {r : Received} (h : Reads s s' r) :
    r.lines ++ splitLines s'.pending = splitLines s.pending := by
  cases h with
  | line hline hpending => rw [hpending, splitLines_append hline]; rfl
  | last hline hne hpending hnothing =>
      rw [hpending, hnothing, splitLines_eq_singleton hline hne]
      rfl
  | timedOut hpending => rw [hpending]; rfl
  | closed hpending hnothing => rw [hpending, hnothing]; rfl

theorem Reads.pending_eq_nil {s s' : LineSocket} {r : Received} (h : Reads s s' r)
    (hnothing : s.pending = [] ∨ r = .closed) : s'.pending = [] := by
  cases h with
  | line hline hpending =>
      rcases hnothing with hnothing | hclosed
      · exact absurd (hpending.symm.trans hnothing) (by simp)
      · cases hclosed
  | last hline hne hpending hrest => exact hrest
  | timedOut hpending =>
      rcases hnothing with hnothing | hclosed
      · exact hpending.trans hnothing
      · cases hclosed
  | closed hpending hrest => exact hrest

theorem receives_splitLines (n : Nat) : ∀ s : LineSocket,
    (s.receives n).1.flatMap Received.lines ++ splitLines (s.receives n).2.pending =
      splitLines s.pending := by
  induction n with
  | zero => exact fun s => rfl
  | succ n ih =>
      intro s
      change (s.receive.1 :: (s.receive.2.receives n).1).flatMap Received.lines ++
        splitLines (s.receive.2.receives n).2.pending = _
      calc
        _ = s.receive.1.lines ++ splitLines s.receive.2.pending := by
          rw [List.flatMap_cons, List.append_assoc, ih s.receive.2]
        _ = splitLines s.pending := (receive_reads s).splitLines

theorem receives_closed (n : Nat) : ∀ s : LineSocket,
    s.pending = [] ∨ .closed ∈ (s.receives n).1 → (s.receives n).2.pending = [] := by
  induction n with
  | zero =>
      rintro s (hnothing | hclosed)
      · exact hnothing
      · cases hclosed
  | succ n ih =>
      intro s hnothing
      refine ih s.receive.2 ?_
      rcases hnothing with hnothing | hclosed
      · exact Or.inl ((receive_reads s).pending_eq_nil (Or.inl hnothing))
      · rcases List.mem_cons.mp hclosed with hfirst | hlater
        · exact Or.inl ((receive_reads s).pending_eq_nil (Or.inr hfirst.symm))
        · exact Or.inr hlater

theorem Reads.length_pending_lt {s s' : LineSocket} {text : List UInt8}
    (h : Reads s s' (.line text)) : s'.pending.length < s.pending.length := by
  cases h with
  | line hline hpending =>
      rw [hpending, List.length_append, List.length_cons]
      omega
  | last hline hne hpending hnothing =>
      rw [hpending, hnothing]
      exact List.length_pos_of_ne_nil hne

/-- What a socket has still to do: receive bytes and hand them out. -/
def size (s : LineSocket) : Nat := s.pending.length + s.wire.rest.length

theorem receive_progress (s : LineSocket) :
    s.receive.1 = .closed ∨ s.receive.2.size < s.size ∨
      (s.wire.script.head = .timeout ∧ s.receive.2.wire.script = s.wire.script.tail ∧
        s.receive.2.size = s.size) := by
  have hreads := receive_reads s
  have hrest := (receive_wire s).1
  cases hresult : s.receive.1 with
  | closed => exact Or.inl rfl
  | line text =>
      rw [hresult] at hreads
      have hlt := hreads.length_pending_lt
      refine Or.inr (Or.inl ?_)
      rw [size, size]
      omega
  | timedOut =>
      rw [hresult] at hreads
      have hpending : s.receive.2.pending = s.pending := by
        cases hreads with
        | timedOut hpending => exact hpending
      rcases receive_timedOut hresult with hlt | ⟨hhead, hwire⟩
      · refine Or.inr (Or.inl ?_)
        rw [size, size, hpending]
        omega
      · refine Or.inr (Or.inr ⟨hhead, ?_, ?_⟩)
        · rw [hwire]
        · rw [size, size, hpending, hwire]

theorem fair_receive {s : LineSocket} (hfair : Fair s.wire.script) :
    Fair s.receive.2.wire.script := by
  obtain ⟨-, j, hscript⟩ := receive_wire s
  rw [hscript]
  exact hfair.drop j

theorem closed_of_receive {s : LineSocket} (h : ∃ n, .closed ∈ (s.receive.2.receives n).1) :
    ∃ n, .closed ∈ (s.receives n).1 := by
  obtain ⟨n, hn⟩ := h
  exact ⟨n + 1, List.mem_cons_of_mem _ hn⟩

/-- If the timeouts do not go on forever, a call finds the peer closed. -/
theorem exists_closed (s : LineSocket) (hfair : Fair s.wire.script) :
    ∃ n, .closed ∈ (s.receives n).1 := by
  induction hsize : s.size using Nat.strong_induction_on generalizing s with
  | _ k ih =>
      have hstep : ∀ s : LineSocket, Fair s.wire.script → s.size = k →
          (∃ n, .closed ∈ (s.receives n).1) ∨ (s.wire.script.head = .timeout ∧
            s.receive.2.wire.script = s.wire.script.tail ∧ s.receive.2.size = k) := by
        intro s hfair hsize
        rcases receive_progress s with hclosed | hlt | ⟨hhead, hscript, hsame⟩
        · exact Or.inl ⟨1, List.mem_cons.mpr (Or.inl hclosed.symm)⟩
        · exact Or.inl (closed_of_receive (ih _ (hsize ▸ hlt) _ (fair_receive hfair) rfl))
        · exact Or.inr ⟨hhead, hscript, hsame.trans hsize⟩
      -- the first call of `recv` that does not time out is `m` calls away
      obtain ⟨m, -, hm⟩ := hfair 0
      induction m generalizing s with
      | zero =>
          rcases hstep s hfair hsize with hclosed | ⟨hhead, -, -⟩
          · exact hclosed
          · exact absurd hhead hm
      | succ m ihm =>
          rcases hstep s hfair hsize with hclosed | ⟨-, hscript, hsame⟩
          · exact hclosed
          · refine closed_of_receive (ihm _ (fair_receive hfair) hsame ?_)
            rw [hscript]
            exact hm

/-! ### Calls of both kinds -/

/-- How the loop of `recv_exact` goes on after a call of `recv`. -/
def afterRecvRest (s : LineSocket) (got : List UInt8) (n : Nat) :
    Answer × Wire → Option (List UInt8) × LineSocket
  | (.data bytes, wire) => recvRest { s with wire } (got ++ bytes) n
  | (.timedOut, wire) => (none, { s with wire })
  | (.closed, wire) => (none, { s with wire })

theorem recvRest_of_le {s : LineSocket} {got : List UInt8} {n : Nat} (h : n ≤ got.length) :
    s.recvRest got n = (some got, s) := by
  rw [recvRest]
  exact dif_neg (by omega)

theorem recvRest_of_lt {s : LineSocket} {got : List UInt8} {n : Nat} (h : got.length < n) :
    s.recvRest got n = s.afterRecvRest got n (s.wire.recv (n - got.length)) := by
  rw [recvRest, dif_pos h]
  split
  · next hrecv => rw [hrecv, afterRecvRest]
  · next hrecv => rw [hrecv, afterRecvRest]
  · next hrecv => rw [hrecv, afterRecvRest]

/-- What `recv_exact` adds to what it has comes from the front of the wire. -/
theorem recvRest_eq_some {s s' : LineSocket} {got out : List UInt8} {n : Nat}
    (hgot : got.length ≤ n) (h : s.recvRest got n = (some out, s')) :
    out.length = n ∧ s'.buf = s.buf ∧ got ++ s.wire.rest = out ++ s'.wire.rest := by
  induction hn : s.wire.rest.length using Nat.strong_induction_on generalizing s got with
  | _ k ih =>
      by_cases hmore : got.length < n
      · rw [recvRest_of_lt hmore] at h
        rcases s.wire.recv_cases (by omega : 0 < n - got.length) with
          ⟨bytes, rest, hrecv, hrest, -, hle⟩ | ⟨hrecv, -⟩ | ⟨hrecv, -⟩
        · have hlt : rest.length < s.wire.rest.length := Wire.recv_data_lt (by omega) hrecv
          have hlength : (got ++ bytes).length ≤ n := by
            rw [List.length_append]
            omega
          rw [hrecv, afterRecvRest] at h
          obtain ⟨hout, hbuf, hbytes⟩ := ih rest.length (hn ▸ hlt) hlength h rfl
          refine ⟨hout, hbuf, ?_⟩
          rw [hrest, ← List.append_assoc]
          exact hbytes
        · rw [hrecv, afterRecvRest] at h
          cases h
        · rw [hrecv, afterRecvRest] at h
          cases h
      · rw [recvRest_of_le (by omega)] at h
        cases h
        exact ⟨by omega, rfl, rfl⟩

theorem recvExact_eq_some {s s' : LineSocket} {out : List UInt8} {n : Nat}
    (h : s.recvExact n = (some out, s')) :
    out.length = n ∧ s.pending = out ++ s'.pending := by
  rw [recvExact] at h
  by_cases hless : n < s.buf.length
  · rw [if_pos hless, recvRest_of_le (by rw [List.length_take]; omega)] at h
    cases h
    refine ⟨by rw [List.length_take]; omega, ?_⟩
    rw [pending, pending, ← List.append_assoc, List.take_append_drop]
  · rw [if_neg hless, List.take_length, List.drop_length] at h
    obtain ⟨hout, hbuf, hbytes⟩ := recvRest_eq_some (by omega) h
    refine ⟨hout, ?_⟩
    rw [pending, pending, hbuf, List.nil_append]
    exact hbytes

/-- A `recv_exact` that has failed: its last call of `recv`, behind `j` others, has run into a
timeout or has found the peer closed with fewer bytes left than were asked for. -/
def Interrupted (s s' : LineSocket) (n : Nat) : Prop :=
  ∃ j, s'.wire.script = s.wire.script.drop (j + 1) ∧
    (s.wire.script.get j = .timeout ∨ s'.wire.rest = [] ∧ s.pending.length < n)

theorem recvRest_eq_none {s s' : LineSocket} {got : List UInt8} {n : Nat}
    (h : s.recvRest got n = (none, s')) :
    ∃ j, s'.wire.script = s.wire.script.drop (j + 1) ∧
      (s.wire.script.get j = .timeout ∨
        s'.wire.rest = [] ∧ got.length + s.wire.rest.length < n) := by
  induction hn : s.wire.rest.length using Nat.strong_induction_on generalizing s got with
  | _ k ih =>
      by_cases hmore : got.length < n
      · rw [recvRest_of_lt hmore] at h
        rcases s.wire.recv_cases (by omega : 0 < n - got.length) with
          ⟨bytes, rest, hrecv, hrest, -, -⟩ | ⟨hrecv, hhead⟩ | ⟨hrecv, hrest⟩
        · have hlt : rest.length < s.wire.rest.length := Wire.recv_data_lt (by omega) hrecv
          have hlength : (got ++ bytes).length + rest.length = got.length + k := by
            rw [← hn, hrest, List.length_append, List.length_append, Nat.add_assoc]
          rw [hrecv, afterRecvRest] at h
          obtain ⟨j, hscript, hcause⟩ := ih rest.length (hn ▸ hlt) h rfl
          rw [hlength] at hcause
          exact ⟨j + 1, hscript, hcause⟩
        · rw [hrecv] at h
          cases h
          exact ⟨0, rfl, .inl hhead⟩
        · rw [hrecv] at h
          cases h
          rw [hrest, List.length_nil] at hn
          exact ⟨0, rfl, .inr ⟨rfl, by omega⟩⟩
      · rw [recvRest_of_le (by omega)] at h
        cases h

theorem recvExact_eq_none {s s' : LineSocket} {n : Nat} (h : s.recvExact n = (none, s')) :
    Interrupted s s' n := by
  obtain ⟨j, hscript, hcause⟩ := recvRest_eq_none h
  refine ⟨j, hscript, hcause.imp_right fun ⟨hrest, hless⟩ => ⟨hrest, ?_⟩⟩
  rw [List.length_take] at hless
  rw [pending, List.length_append]
  dsimp only at hless
  split_ifs at hless
  · omega
  · omega

theorem recvRest_of_prompt {s : LineSocket} {got : List UInt8} {n : Nat}
    (hprompt : Prompt s.wire.script) (henough : n ≤ got.length + s.wire.rest.length) :
    ∃ out s', s.recvRest got n = (some out, s') ∧ Prompt s'.wire.script := by
  induction hn : s.wire.rest.length using Nat.strong_induction_on generalizing s got with
  | _ k ih =>
      by_cases hmore : got.length < n
      · rw [recvRest_of_lt hmore]
        rcases s.wire.recv_cases (by omega : 0 < n - got.length) with
          ⟨bytes, rest, hrecv, hrest, -, -⟩ | ⟨-, hhead⟩ | ⟨-, hrest⟩
        · have hlt : rest.length < s.wire.rest.length := Wire.recv_data_lt (by omega) hrecv
          have hlength : n ≤ (got ++ bytes).length + rest.length := by
            rw [hrest, List.length_append] at henough
            rw [List.length_append]
            omega
          rw [hrecv, afterRecvRest]
          exact ih rest.length (hn ▸ hlt) hprompt.tail hlength rfl
        · exact absurd hhead (hprompt 0)
        · rw [hrest, List.length_nil] at henough
          omega
      · exact ⟨got, s, recvRest_of_le (by omega), hprompt⟩

/-- Without timeouts `recv_exact` takes the bytes asked for from the front of what is pending. -/
theorem recvExact_of_pending {s : LineSocket} {out rest : List UInt8}
    (hprompt : Prompt s.wire.script) (hpending : s.pending = out ++ rest) :
    ∃ s', s.recvExact out.length = (some out, s') ∧ s'.pending = rest ∧
      Prompt s'.wire.script := by
  have hlength : out.length ≤ s.buf.length + s.wire.rest.length := by
    have hboth := congrArg List.length hpending
    rw [pending, List.length_append, List.length_append] at hboth
    omega
  obtain ⟨out', s', hrest, hprompt'⟩ : ∃ out' s',
      s.recvExact out.length = (some out', s') ∧ Prompt s'.wire.script := by
    refine recvRest_of_prompt hprompt ?_
    rw [List.length_take]
    dsimp only
    split_ifs
    · omega
    · omega
  obtain ⟨hlen, hsplit⟩ := recvExact_eq_some hrest
  obtain ⟨rfl, hpending'⟩ := List.append_inj (hsplit.symm.trans hpending) hlen
  exact ⟨s', hrest, hpending', hprompt'⟩

/-- All that was pending has been handed out or still is. A last line without a newline is handed
out as if it had one. -/
def Accounts (s s' : LineSocket) (out : List UInt8) : Prop :=
  out ++ s'.pending = s.pending ∨
    (out = s.pending ++ [0x0A] ∧ s'.pending = [] ∧ ∃ b ∈ s.pending.getLast?, b ≠ 0x0A)

theorem Accounts.trans {s t u : LineSocket} {out out' : List UInt8} (h : Accounts s t out)
    (h' : Accounts t u out') : Accounts s u (out ++ out') := by
  rcases h with h | ⟨hout, hnothing, hlast⟩
  · rcases h' with h' | ⟨hout', hnothing', b, hb, hne⟩
    · refine Or.inl ?_
      rw [List.append_assoc, h', h]
    · refine Or.inr ⟨?_, hnothing', b, ?_, hne⟩
      · rw [hout', ← List.append_assoc, h]
      · rw [← h, List.getLast?_append, Option.mem_def.mp hb]
        rfl
  · rcases h' with h' | ⟨-, -, b, hb, -⟩
    · rw [hnothing, List.append_eq_nil_iff] at h'
      refine Or.inr ⟨?_, h'.2, hlast⟩
      rw [h'.1, List.append_nil, hout]
    · rw [hnothing] at hb
      cases hb

end LineSocket

/-- What a call hands out, with the newline behind a line put back. -/
def Result.handed : Result → List UInt8
  | .line r => r.lines.flatMap (· ++ [0x0A])
  | .exact _ out => out.getD []

namespace LineSocket

theorem Reads.accounts {s s' : LineSocket} {r : Received} (h : Reads s s' r) :
    Accounts s s' (Result.line r).handed := by
  cases h with
  | @line text hline hpending =>
      refine Or.inl ?_
      rw [hpending]
      simp [Result.handed, Received.lines]
  | @last text hline hne hpending hnothing =>
      refine Or.inr ⟨?_, hnothing, text.getLast hne, ?_, ?_⟩
      · rw [hpending]
        simp [Result.handed, Received.lines]
      · rw [hpending]
        exact List.getLast?_eq_some_getLast hne
      · intro hnewline
        exact hline (hnewline ▸ List.getLast_mem hne)
  | timedOut hpending => exact Or.inl hpending
  | closed hpending hnothing => exact Or.inl (hnothing.trans hpending.symm)

theorem call_accounts (s : LineSocket) (c : Call) (hc : ∀ n, (s.call c).1 ≠ .exact n none) :
    Accounts s (s.call c).2 (s.call c).1.handed := by
  cases c with
  | line => exact (receive_reads s).accounts
  | exact n =>
      cases hout : (s.recvExact n).1 with
      | none => exact absurd (congrArg (Result.exact n) hout) (hc n)
      | some out =>
          obtain ⟨-, hpending⟩ := recvExact_eq_some (Prod.ext hout rfl)
          refine Or.inl ?_
          change ((s.recvExact n).1.getD []) ++ _ = _
          rw [hout, hpending]
          rfl

theorem calls_accounts (cs : List Call) : ∀ s : LineSocket,
    (∀ n, .exact n none ∉ (s.calls cs).1) →
      Accounts s (s.calls cs).2 ((s.calls cs).1.flatMap Result.handed) := by
  induction cs with
  | nil => exact fun s _ => Or.inl rfl
  | cons c cs ih =>
      intro s hcalls
      have hfirst : ∀ n, (s.call c).1 ≠ .exact n none := fun n h =>
        hcalls n (List.mem_cons.mpr (Or.inl h.symm))
      have hlater := ih (s.call c).2 fun n h => hcalls n (List.mem_cons_of_mem _ h)
      exact (call_accounts s c hfirst).trans hlater

theorem length_of_mem_calls (cs : List Call) : ∀ (s : LineSocket) (n : Nat) (out : List UInt8),
    .exact n (some out) ∈ (s.calls cs).1 → out.length = n := by
  induction cs with
  | nil => exact fun s n out hmem => absurd hmem List.not_mem_nil
  | cons c cs ih =>
      intro s n out hmem
      rcases List.mem_cons.mp hmem with hfirst | hlater
      · cases c with
        | line => cases hfirst
        | exact k =>
            obtain ⟨rfl, hout⟩ := Result.exact.inj hfirst
            exact (recvExact_eq_some (Prod.ext hout.symm rfl)).1
      · exact ih _ n out hlater

/-- A socket on which nothing has been read. -/
def start (stream : List UInt8) (script : Stream' Choice) : LineSocket :=
  { wire := ⟨stream, script⟩ }

/-- Whatever the chunks and the timeouts are, the calls return the lines of the stream, and together
the bytes of the stream unless a `recv_exact` runs into a timeout or the end. -/
theorem reading_ignores_chunks (stream : List UInt8) (script : Stream' Choice) :
    (∀ n, ((start stream script).receives n).1.flatMap Received.lines ++
        splitLines ((start stream script).receives n).2.pending = splitLines stream) ∧
    (∀ n, .closed ∈ ((start stream script).receives n).1 →
      ((start stream script).receives n).1.flatMap Received.lines = splitLines stream) ∧
    (Fair script → ∃ n, .closed ∈ ((start stream script).receives n).1) ∧
    (∀ (s : LineSocket) (n : Nat), (s.recvExact n).1 = none →
      Interrupted s (s.recvExact n).2 n) ∧
    ∀ cs, (∀ n, .exact n none ∉ ((start stream script).calls cs).1) →
      (∀ n out, .exact n (some out) ∈ ((start stream script).calls cs).1 → out.length = n) ∧
      Accounts (start stream script) ((start stream script).calls cs).2
        (((start stream script).calls cs).1.flatMap Result.handed) := by
  have hlines : ∀ n, ((start stream script).receives n).1.flatMap Received.lines ++
      splitLines ((start stream script).receives n).2.pending = splitLines stream := fun n =>
    receives_splitLines n (start stream script)
  refine ⟨hlines, fun n hclosed => ?_, exists_closed (start stream script),
    fun s n hnone => recvExact_eq_none (Prod.ext hnone rfl), fun cs hcs =>
    ⟨length_of_mem_calls cs _, calls_accounts cs _ hcs⟩⟩
  have hall := hlines n
  rw [receives_closed n _ (Or.inr hclosed)] at hall
  exact (List.append_nil _).symm.trans hall

/-- The stream `ab`, newline, `cdef`, newline in chunks of four bytes, so that with the first line a
byte of the two behind it is read. -/
theorem reading_ignores_chunks_mixed :
    let s := start [0x61, 0x62, 0x0A, 0x63, 0x64, 0x65, 0x66, 0x0A] (Stream'.const (.chunk 4))
    let results := s.calls [.line, .exact 2, .line]
    results.1 = [.line (.line [0x61, 0x62]), .exact 2 (some [0x63, 0x64]),
        .line (.line [0x65, 0x66])] ∧
      Accounts s results.2 (results.1.flatMap Result.handed) := by
  intro s results
  let t : LineSocket := { buf := [0x63], wire := ⟨[0x64, 0x65, 0x66, 0x0A], s.wire.script⟩ }
  let u : LineSocket := { wire := ⟨[0x65, 0x66, 0x0A], s.wire.script⟩ }
  have hfirst : s.receive = (.line [0x61, 0x62], t) := by
    rw [receive, recvLine, recvLineLoop_none rfl]
    exact congrArg Received.of (recvLineLoop_line rfl)
  have hexact : t.recvExact 2 = (some [0x63, 0x64], u) := by
    rw [recvExact]
    exact (recvRest_of_lt (by decide)).trans (recvRest_of_le (by decide))
  have hlast : u.receive = (.line [0x65, 0x66], { wire := ⟨[], s.wire.script⟩ }) := by
    rw [receive, recvLine, recvLineLoop_none rfl]
    exact congrArg Received.of (recvLineLoop_line rfl)
  have hresults : results.1 = [.line (.line [0x61, 0x62]), .exact 2 (some [0x63, 0x64]),
      .line (.line [0x65, 0x66])] := by
    simp only [results, calls, call, hfirst, hexact, hlast]
  obtain ⟨-, -, -, -, hcalls⟩ := reading_ignores_chunks
    [0x61, 0x62, 0x0A, 0x63, 0x64, 0x65, 0x66, 0x0A] (Stream'.const (.chunk 4))
  refine ⟨hresults, (hcalls [.line, .exact 2, .line] fun n hmem => ?_).2⟩
  change _ ∈ results.1 at hmem
  rw [hresults] at hmem
  simp at hmem

end LineSocket

end HftOrderbook.Mt5
