import HftOrderbook.Feed.Handshake
import HftOrderbook.Proof.WebSocket

/-!
# A WebSocket session from its opening on

The header lines of a request or a response are taken one by one whatever the chunks are, and not a
byte behind the empty line is touched. So the server answers the last key of a request, the client
that sent it accepts the answer, and the frames that follow are read as they were sent.
-/

namespace HftOrderbook.Ws

open ByteText ChunkedWire Mt5

/-! ### Lines of a prompt socket -/

theorem receive_prompt {s : LineSocket} (hprompt : Prompt s.wire.script) :
    s.receive.1 ≠ .timedOut ∧ Prompt s.receive.2.wire.script := by
  obtain ⟨t, hgathers, hends⟩ := LineSocket.receive_ends s
  obtain ⟨j, hscript⟩ := hgathers.script
  have hlater (k : Nat) : Prompt (s.wire.script.drop k) := by
    intro n
    rw [Stream'.get_drop]
    exact hprompt _
  have ht : Prompt t.wire.script := by
    rw [hscript]
    exact hlater j
  generalize s.receive = result at hends
  cases hends with
  | line hline hbuf => exact ⟨Received.noConfusion, ht⟩
  | timedOut hhead => exact absurd hhead (ht 0)
  | last hline hne hrest => exact ⟨Received.noConfusion, ht.tail⟩
  | closed hbuf hrest => exact ⟨Received.noConfusion, ht.tail⟩

theorem recvLine_eq_some {s : LineSocket} {text : List UInt8} (h : s.receive.1 = .line text) :
    s.recvLine = (some text, s.receive.2) := by
  rw [LineSocket.receive] at h ⊢
  generalize s.recvLine = result at h ⊢
  rcases result with ⟨_ | line, s'⟩
  · change (if s'.lastTimedOut then Received.timedOut else .closed) = _ at h
    split_ifs at h
  · cases h
    rfl

theorem recvLine_eq_none {s : LineSocket} (h : s.receive.1 = .closed) :
    s.recvLine = (none, s.receive.2) := by
  rw [LineSocket.receive] at h ⊢
  generalize s.recvLine = result at h ⊢
  rcases result with ⟨_ | line, s'⟩
  · rfl
  · cases h

theorem recvLine_of_pending {s : LineSocket} {line rest : List UInt8}
    (hprompt : Prompt s.wire.script) (hline : (0x0A : UInt8) ∉ line)
    (hpending : s.pending = line ++ 0x0A :: rest) :
    ∃ s', s.recvLine = (some line, s') ∧ s'.pending = rest ∧ Prompt s'.wire.script := by
  obtain ⟨hnot, hprompt'⟩ := receive_prompt hprompt
  have hreads := LineSocket.receive_reads s
  cases hresult : s.receive.1 with
  | timedOut => exact absurd hresult hnot
  | closed =>
      rw [hresult] at hreads
      cases hreads with
      | closed hnothing => exact absurd (hpending.symm.trans hnothing) (by simp)
  | line text =>
      rw [hresult] at hreads
      have hsome := recvLine_eq_some hresult
      cases hreads with
      | line htext hpending' =>
          have hfirst : LineProcesses.takeLine s.pending = some (line, rest) := by
            rw [hpending, LineProcesses.takeLine_append hline]
          rw [hpending', LineProcesses.takeLine_append htext] at hfirst
          obtain ⟨rfl, hrest⟩ := Prod.mk.inj (Option.some.inj hfirst)
          exact ⟨_, hsome, hrest, hprompt'⟩
      | last htext hne hpending' hnothing =>
          rw [hpending'] at hpending
          exact absurd (hpending ▸ htext) (by simp)

theorem readHeaders_cons {α : Type} {keep : α → List UInt8 → α} {kept : α} {s s' : LineSocket}
    {line : List UInt8} (h : s.recvLine = (some line, s')) :
    (readHeaders keep kept).run s =
      if dropCr line = [] then (some kept, s')
      else (readHeaders keep (keep kept (dropCr line))).run s' := by
  change headerLoop keep kept s = _
  rw [headerLoop]
  split
  · next hrecv => rw [h] at hrecv; cases hrecv
  · next hrecv =>
      obtain ⟨rfl, rfl⟩ : _ ∧ _ := by
        rw [h] at hrecv
        exact ⟨Option.some.inj (Prod.mk.inj hrecv).1, (Prod.mk.inj hrecv).2⟩
      rfl

theorem readHeaders_none {α : Type} {keep : α → List UInt8 → α} {kept : α} {s s' : LineSocket}
    (h : s.recvLine = (none, s')) : (readHeaders keep kept).run s = (none, s') := by
  change headerLoop keep kept s = _
  rw [headerLoop]
  split
  · next hrecv => rw [h] at hrecv; cases hrecv; rfl
  · next hrecv => rw [h] at hrecv; cases hrecv

section Headers

variable {α : Type} (keep : α → List UInt8 → α) (kept : α)

/-- Header lines as they stand in a request or a response. -/
structure IsHeader (line : List UInt8) : Prop where
  oneLine : (0x0A : UInt8) ∉ line
  nonempty : dropCr line ≠ []

/-- The bytes of some header lines and of the empty line behind them. -/
def headerBytes (headers : List (List UInt8)) (blank : List UInt8) : List UInt8 :=
  headers.flatMap (· ++ [0x0A]) ++ (blank ++ [0x0A])

theorem headerBytes_cons (line : List UInt8) (headers : List (List UInt8)) (blank : List UInt8) :
    headerBytes (line :: headers) blank = line ++ 0x0A :: headerBytes headers blank := by
  rw [headerBytes, List.flatMap_cons, List.append_assoc, List.append_assoc]
  rfl

theorem takes_readHeaders {headers : List (List UInt8)} {blank : List UInt8}
    (hheaders : ∀ line ∈ headers, IsHeader line) (hblank : blank = [] ∨ blank = [0x0D]) :
    Takes (readHeaders keep kept) (headerBytes headers blank)
      (headers.foldl (fun kept line => keep kept (dropCr line)) kept) := by
  induction headers generalizing kept with
  | nil =>
      intro s rest hprompt hpending
      have hempty : (0x0A : UInt8) ∉ blank ∧ dropCr blank = [] := by
        rcases hblank with rfl | rfl <;> decide
      have hblanks : s.pending = blank ++ 0x0A :: rest := by
        rw [hpending, headerBytes, List.flatMap_nil, List.nil_append, List.append_assoc]
        rfl
      obtain ⟨s', hrecv, hrest, hprompt'⟩ := recvLine_of_pending hprompt hempty.1 hblanks
      refine ⟨s', ?_, hrest, hprompt'⟩
      rw [readHeaders_cons hrecv, if_pos hempty.2]
      rfl
  | cons line headers ih =>
      intro s rest hprompt hpending
      have hheader := hheaders line List.mem_cons_self
      rw [headerBytes_cons, List.append_assoc] at hpending
      obtain ⟨s', hrecv, hrest, hprompt'⟩ := recvLine_of_pending hprompt hheader.oneLine hpending
      obtain ⟨s'', hrun, hrest', hprompt''⟩ :=
        ih _ (fun line hline => hheaders line (List.mem_cons_of_mem _ hline)) s' rest hprompt' hrest
      refine ⟨s'', ?_, hrest', hprompt''⟩
      rw [readHeaders_cons hrecv, if_neg hheader.nonempty]
      exact hrun

/-- Without an empty line the peer has closed before the loop is through. -/
theorem readHeaders_unfinished {s : LineSocket} (hprompt : Prompt s.wire.script)
    (hlines : ∀ line ∈ splitLines s.pending, dropCr line ≠ []) :
    ((readHeaders keep kept).run s).1 = none := by
  induction hn : s.pending.length using Nat.strong_induction_on generalizing s kept with
  | _ n ih =>
      have hreads := LineSocket.receive_reads s
      obtain ⟨hnot, hprompt'⟩ := receive_prompt hprompt
      cases hresult : s.receive.1 with
      | timedOut => exact absurd hresult hnot
      | closed => rw [readHeaders_none (recvLine_eq_none hresult)]
      | line text =>
          have hrecv := recvLine_eq_some hresult
          have hsplit := hreads.splitLines
          rw [hresult] at hsplit
          rw [← hsplit] at hlines
          rw [readHeaders_cons hrecv, if_neg (hlines text List.mem_cons_self)]
          exact ih _ (hn ▸ recvLine_pending_lt hrecv) _ hprompt'
            (fun line hline => hlines line (List.mem_cons_of_mem _ hline)) rfl

end Headers

/-! ### The key of a request -/

theorem foldl_keepValue (name kept : List UInt8) (headers : List (List UInt8)) :
    headers.foldl (fun kept line => keepValue name kept (dropCr line)) kept =
      ((headers.filterMap fun line => headerValue name (dropCr line)).getLast?).getD kept := by
  induction headers generalizing kept with
  | nil => rfl
  | cons line headers ih =>
      rw [List.foldl_cons, ih, List.filterMap_cons, keepValue]
      cases headerValue name (dropCr line) with
      | none => rfl
      | some value =>
          simp only [Option.getD_some]
          rw [List.getLast?_cons]
          rfl

theorem headerValue_ne_nil {name line value : List UInt8} (h : headerValue name line = some value) :
    value ≠ [] := by
  rw [headerValue] at h
  dsimp only at h
  split_ifs at h with hname hempty
  exact Option.some.inj h ▸ hempty

/-- The handshake fails unless the headers hold a key. -/
theorem handshake_eq_none {s : LineSocket}
    (h : ∀ key, ((readHeaders (keepValue keyHeader) []).run s).1 = some key → key = []) :
    (handshake.run s).1 = none := by
  rw [handshake, OptionT.run_bind, Option.elimM]
  change (Option.elim ((readHeaders (keepValue keyHeader) []).run s).1 (pure none : StateM _ _)
    (fun key => OptionT.run (if key = [] then failure else pure (switchingProtocols key)))
    ((readHeaders (keepValue keyHeader) []).run s).2).1 = none
  cases hkey : ((readHeaders (keepValue keyHeader) []).run s).1 with
  | none => rfl
  | some key =>
      obtain rfl := h key hkey
      rfl

section Server

variable {headers : List (List UInt8)} {blank : List UInt8}
  (hheaders : ∀ line ∈ headers, IsHeader line) (hblank : blank = [] ∨ blank = [0x0D])

include hheaders hblank

theorem takes_handshake {key : List UInt8}
    (hkey : (headers.filterMap fun line => headerValue keyHeader (dropCr line)).getLast? =
      some key) : Takes handshake (headerBytes headers blank) (switchingProtocols key) := by
  have hread := takes_readHeaders (keepValue keyHeader) [] hheaders hblank
  rw [foldl_keepValue, hkey] at hread
  have hne : key ≠ [] := by
    obtain ⟨line, -, hvalue⟩ := List.mem_filterMap.mp (List.mem_of_getLast? hkey)
    exact headerValue_ne_nil hvalue
  have hanswer : Takes (if key = [] then failure else pure (switchingProtocols key)) []
      (switchingProtocols key) := by
    rw [if_neg hne]
    exact Takes.pure _
  have hboth := hread.bind (f := fun key => if key = [] then failure else pure _) hanswer
  rwa [List.append_nil] at hboth

theorem handshake_without_key {s : LineSocket} {rest : List UInt8} (hprompt : Prompt s.wire.script)
    (hpending : s.pending = headerBytes headers blank ++ rest)
    (hkeys : (headers.filterMap fun line => headerValue keyHeader (dropCr line)) = []) :
    (handshake.run s).1 = none := by
  obtain ⟨s', hrun, -, -⟩ :=
    takes_readHeaders (keepValue keyHeader) [] hheaders hblank s rest hprompt
      hpending
  rw [foldl_keepValue, hkeys] at hrun
  refine handshake_eq_none fun key hkey => ?_
  rw [hrun] at hkey
  exact (Option.some.inj hkey).symm

end Server

theorem handshake_unfinished {s : LineSocket} (hprompt : Prompt s.wire.script)
    (hlines : ∀ line ∈ splitLines s.pending, dropCr line ≠ []) : (handshake.run s).1 = none := by
  have hnone := readHeaders_unfinished (keepValue keyHeader) [] hprompt hlines
  refine handshake_eq_none fun key hkey => ?_
  rw [hnone] at hkey
  cases hkey

/-- What the server does with a request, however it arrives: it answers the last key among the
headers and has then read the request and nothing behind it. Without a key, or if the peer closes
before an empty line, it sends nothing. -/
theorem handshake_answers_last_key :
    (∀ (headers : List (List UInt8)) (blank rest : List UInt8) (s : LineSocket),
      (∀ line ∈ headers, IsHeader line) → blank = [] ∨ blank = [0x0D] → Prompt s.wire.script →
      s.pending = headerBytes headers blank ++ rest →
      (∀ key, (headers.filterMap fun line => headerValue keyHeader (dropCr line)).getLast? =
          some key →
        ∃ s', handshake.run s = (some (switchingProtocols key), s') ∧ s'.pending = rest) ∧
      ((headers.filterMap fun line => headerValue keyHeader (dropCr line)) = [] →
        (handshake.run s).1 = none)) ∧
    ∀ s : LineSocket, Prompt s.wire.script →
      (∀ line ∈ splitLines s.pending, dropCr line ≠ []) → (handshake.run s).1 = none := by
  refine ⟨fun headers blank rest s hheaders hblank hprompt hpending => ⟨fun key hkey => ?_, ?_⟩,
    fun s => handshake_unfinished⟩
  · obtain ⟨s', hrun, hrest, -⟩ := takes_handshake hheaders hblank hkey s rest hprompt hpending
    exact ⟨s', hrun, hrest⟩
  · exact handshake_without_key hheaders hblank hprompt hpending

/-- Of two keys the second is answered, and what follows the request is left alone. -/
theorem handshake_answers_last_key_two :
    ∃ s', handshake.run (LineSocket.start (headerBytes
        [ascii "Sec-WebSocket-Key: a\r", ascii "SEC-WEBSOCKET-KEY:\tb \r"] [0x0D] ++ [0x81])
        (Stream'.const (.chunk 5))) =
      (some (switchingProtocols (ascii "b")), s') ∧ s'.pending = [0x81] := by
  have hheaders : ∀ line ∈ [ascii "Sec-WebSocket-Key: a\r", ascii "SEC-WEBSOCKET-KEY:\tb \r"],
      (0x0A : UInt8) ∉ line ∧ dropCr line ≠ [] := by
    decide
  exact (handshake_answers_last_key.1 _ [0x0D] [0x81] _
    (fun line hline => ⟨(hheaders line hline).1, (hheaders line hline).2⟩) (Or.inr rfl)
    (fun n => Choice.noConfusion) rfl).1 (ascii "b") (by decide)

/-! ### Server and client -/

theorem dropCr_append (line : List UInt8) : dropCr (line ++ [0x0D]) = line := by
  rw [dropCr, List.getLast?_append, List.dropLast_append_of_ne_nil (List.cons_ne_nil _ _)]
  exact List.append_nil line

def requestHeaders (path : List UInt8) : List (List UInt8) :=
  (ascii "GET " ++ path ++ ascii " HTTP/1.1\r") ::
    [ascii "Host: localhost\r", ascii "Upgrade: websocket\r", ascii "Connection: Upgrade\r",
      ascii "Sec-WebSocket-Key: " ++ kKey ++ ascii "\r", ascii "Sec-WebSocket-Version: 13\r"]

theorem upgradeRequest_eq (path : List UInt8) :
    upgradeRequest path = headerBytes (requestHeaders path) [0x0D] := by
  rw [requestHeaders, headerBytes_cons, upgradeRequest]
  simp only [List.append_assoc]
  rfl

theorem isHeader_requestHeaders {path : List UInt8} (hpath : (0x0A : UInt8) ∉ path) :
    ∀ line ∈ requestHeaders path, IsHeader line := by
  have hothers : ∀ line ∈ (requestHeaders []).tail, (0x0A : UInt8) ∉ line ∧ dropCr line ≠ [] := by
    decide
  intro line hline
  rcases List.mem_cons.mp hline with rfl | hline
  · constructor
    · simp only [List.mem_append, not_or]
      exact ⟨⟨by decide, hpath⟩, by decide⟩
    · have hparts : ascii "GET " ++ path ++ ascii " HTTP/1.1\r" =
          (ascii "GET " ++ path ++ ascii " HTTP/1.1") ++ [0x0D] := by
        simp only [List.append_assoc]
        rfl
      rw [hparts, dropCr_append]
      exact List.cons_ne_nil _ _
  · exact ⟨(hothers line hline).1, (hothers line hline).2⟩

/-- Whatever the path is, the key is the last of the request. -/
theorem requestHeaders_key (path : List UInt8) :
    ((requestHeaders path).filterMap fun line => headerValue keyHeader (dropCr line)).getLast? =
      some kKey := by
  have htail : ((requestHeaders path).tail.filterMap
      fun line => headerValue keyHeader (dropCr line)) = [kKey] := by
    change ((requestHeaders []).tail.filterMap _) = _
    decide
  rw [requestHeaders, List.filterMap_cons]
  cases headerValue keyHeader (dropCr (ascii "GET " ++ path ++ ascii " HTTP/1.1\r")) with
  | none => exact congrArg List.getLast? htail
  | some value => exact congrArg (fun keys => List.getLast? (value :: keys)) htail

theorem acceptKey_kKey : acceptKey kKey = ascii "s3pPLMBiTxaQ9kYGzzhZRbK+xOo=" := by
  decide +kernel

def responseHeaders : List (List UInt8) :=
  [ascii "HTTP/1.1 101 Switching Protocols\r", ascii "Upgrade: websocket\r",
    ascii "Connection: Upgrade\r",
    ascii "Sec-WebSocket-Accept: s3pPLMBiTxaQ9kYGzzhZRbK+xOo=\r"]

theorem switchingProtocols_eq :
    switchingProtocols kKey = headerBytes responseHeaders [0x0D] := by
  rw [switchingProtocols, acceptKey_kKey]
  decide

theorem takes_accepted {text accept : List UInt8}
    (hread : Takes (readHeaders keepAnswer (false, [])) text (true, accept)) :
    Takes (readHeaders keepAnswer (false, []) >>= fun kept =>
      if kept.1 ∧ kept.2 = accept then pure () else failure) text () := by
  have haccepted : Takes (if true = true ∧ accept = accept then pure () else failure) [] () := by
    rw [if_pos ⟨rfl, rfl⟩]
    exact Takes.pure _
  have hboth := hread.bind (f := fun kept => if kept.1 ∧ kept.2 = accept then pure ()
    else failure) haccepted
  rwa [List.append_nil] at hboth

theorem takes_clientOpen : Takes clientOpen (switchingProtocols kKey) () := by
  have hheaders : ∀ line ∈ responseHeaders, (0x0A : UInt8) ∉ line ∧ dropCr line ≠ [] := by decide
  have hkept : responseHeaders.foldl (fun kept line => keepAnswer kept (dropCr line)) (false, []) =
      (true, acceptKey kKey) := by
    rw [acceptKey_kKey]
    decide
  have hread := takes_readHeaders keepAnswer (false, [])
    (fun line hline => ⟨(hheaders line hline).1, (hheaders line hline).2⟩) (Or.inr rfl)
  rw [hkept, ← switchingProtocols_eq] at hread
  exact takes_accepted hread

/-- A session of `wsbook`, with any chunks in both directions: the server accepts the request of the
client, reads nothing behind it, and the client accepts the answer and then gets the payloads that
the server frames, in their order. -/
theorem websocket_session (path : List UInt8) (hpath : (0x0A : UInt8) ∉ path)
    (payloads : List (List UInt8)) (hlength : ∀ payload ∈ payloads, payload.length < 2 ^ 63)
    (server : LineSocket) (hserver : Prompt server.wire.script) (rest : List UInt8)
    (hrequest : server.pending = upgradeRequest path ++ rest) :
    ∃ response server', handshake.run server = (some response, server') ∧ server'.pending = rest ∧
      ∀ (client : LineSocket) (later : List UInt8), Prompt client.wire.script →
        client.pending = response ++ payloads.flatMap frameText ++ later →
        ∃ client', (clientOpen >>= fun _ => readFrames payloads.length).run client =
            (some (payloads.map (·, 1)), client') ∧ client'.pending = later := by
  rw [upgradeRequest_eq] at hrequest
  obtain ⟨server', hhandshake, hrest, -⟩ := takes_handshake (isHeader_requestHeaders hpath)
    (Or.inr rfl) (requestHeaders_key path) server rest hserver hrequest
  refine ⟨_, server', hhandshake, hrest, fun client later hclient hresponse => ?_⟩
  obtain ⟨client', hrun, hlater, -⟩ :=
    takes_clientOpen.bind (f := fun _ => readFrames payloads.length) (takes_frames hlength) client
      later hclient hresponse
  exact ⟨client', hrun, hlater⟩

/-- Both directions come three bytes at a time. -/
theorem websocket_session_hello :
    ∃ response client', (handshake.run
        (LineSocket.start (upgradeRequest (ascii "/")) (Stream'.const (.chunk 3)))).1 =
        some response ∧
      (clientOpen >>= fun _ => readFrames 1).run
          (LineSocket.start (response ++ frameText (ascii "hello")) (Stream'.const (.chunk 3))) =
        (some [(ascii "hello", 1)], client') ∧ client'.pending = [] := by
  have hprompt : Prompt (Stream'.const (.chunk 3)) := fun n => Choice.noConfusion
  obtain ⟨response, server', hhandshake, -, hclient⟩ := websocket_session (ascii "/") (by decide)
    [ascii "hello"] (by decide)
    (LineSocket.start (upgradeRequest (ascii "/")) (Stream'.const (.chunk 3))) hprompt []
    (List.append_nil _).symm
  have hpending : (LineSocket.start (response ++ frameText (ascii "hello"))
      (Stream'.const (.chunk 3))).pending =
      response ++ [ascii "hello"].flatMap frameText ++ [] := by
    rw [List.flatMap_singleton, List.append_nil]
    rfl
  obtain ⟨client', hrun, hlater⟩ := hclient _ [] hprompt hpending
  exact ⟨response, client', congrArg Prod.fst hhandshake, hrun, hlater⟩

end HftOrderbook.Ws
