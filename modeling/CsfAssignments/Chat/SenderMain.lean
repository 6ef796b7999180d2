import CsfAssignments.Chat.EndOfInput
import CsfAssignments.Chat.Session
/-!
# The sender on its connection (`csf_assign05/sender.cpp`)

| here | there |
| --- | --- |
| `Client`          | `conn`, `msg`, `joined_room` (`:24-47`) and what is on the two output streams |
| `Client.exchange` | the block of a request, whose errors all go on to the next prompt |
| `Client.command`  | one round on the line that `getline` leaves |
| `Client.Loop`     | with `line` and `std::cin`, as in `EndOfInput` |
| `senderMain`      | `main`, with at most `n` rounds of its loop |

`Sender` has its replies from a `Server`, here they come over the connection. `Simulates` relates the two for a
piece of the code: the connection answers `exchanges`, and every server that answers the same way takes a
`Sender` where the code takes the `Client`. `senderMain_refines` says so of the whole run, as far as it goes: a
write to a closed connection kills the program, where `Sender` has its error and prompts again.
-/

namespace CsfAssignments.Chat

open Lines (takeLine)

structure Client where
  conn : Connection
  msg : Message
  joinedRoom : Bool
  stdout : Str
  stderr : List Str

namespace Client

inductive Turn where
  | prompt (client : Client)
  | quit (client : Client)
  /-- by `SIGPIPE` -/
  | killed (client : Client)

/-- How the block of a request ends. -/
inductive Asking where
  | granted (client : Client)
  | failed (client : Client)
  | killed (client : Client)

def complain (c : Client) (text : Str) : Client := { c with stderr := c.stderr ++ [text] }

def exchange (c : Client) (request : Message) (sendError : Str) : Asking :=
  match c.conn.exchange c.msg request sendError with
  | .granted msg conn => .granted { c with conn := conn, msg := msg }
  | .failed error msg conn => .failed ({ c with conn := conn, msg := msg }.complain error)
  | .killed conn => .killed { c with conn := conn }

/-- `sender.cpp:83-98`. -/
def join (c : Client) (room : Str) : Turn :=
  match c.exchange (.ofData tagJoin room) (str "Join room request failed to send!") with
  | .failed c => .prompt c
  | .killed c => .killed c
  | .granted c => .prompt { c with joinedRoom := true }

def command (c : Client) (input : Str) : Turn :=
  let line := stripend input
  if Sender.isJoin line then
    match Sender.roomName line with
    | none => .prompt (c.complain (str "Room name cannot be empty!"))
    | some room =>
      if c.joinedRoom then
        match c.exchange (.ofData tagLeave []) (str "Leave room request failed to send!") with
        | .failed c => .prompt c
        | .killed c => .killed c
        | .granted c => c.join room
      else c.join room
  else if line = str "/leave" then
    match c.exchange (.ofData tagLeave []) (str "Leave room request failed to send!") with
    | .failed c => .prompt c
    | .killed c => .killed c
    | .granted c => .prompt { c with joinedRoom := false }
  else if line = str "/quit" then
    match c.exchange (.ofData tagQuit []) (str "Quit request failed to send!") with
    | .failed c => .prompt c
    | .killed c => .killed c
    | .granted c => .quit c
  else if c.joinedRoom then
    match c.exchange (.ofData tagSendall line) (str "Message to room failed to send!") with
    | .failed c => .prompt c
    | .killed c => .killed c
    | .granted c => .prompt c
  else .prompt (c.complain (str "You must use `/join [room_name]` first!"))

structure Loop where
  client : Client
  line : Str
  stdin : Stdin

inductive Progress where
  | looping (l : Loop)
  | exited (c : Client)
  | killed (c : Client)

def Loop.iteration (l : Loop) : Progress :=
  let c := { l.client with stdout := l.client.stdout ++ str "> " }
  let (line, stdin) := getline l.line l.stdin
  match c.command line with
  | .prompt c => .looping ⟨c, stripend line, stdin⟩
  | .quit c => .exited { c with conn := { c.conn with opened := false } }
  | .killed c => .killed c

def Loop.run : Nat → Loop → Progress
  | 0, l => .looping l
  | n + 1, l =>
    match l.iteration with
    | .looping l' => run n l'
    | .exited c => .exited c
    | .killed c => .killed c

end Client

/-- `main` leaves with the status, or is still in its loop. -/
inductive SenderProgress where
  | left (exit : Exit)
  | looping (l : Client.Loop)

def senderMain (argv : List Str) (connect : Str → Int → Connection) (stdin : Str) (n : Nat) :
    Option SenderProgress :=
  match argv with
  | [_, serverHostname, port, username] =>
    (stoi port).map fun serverPort =>
      match (connect serverHostname serverPort).exchange ⟨[], []⟩ (.ofData tagSlogin username)
          (str "Sender login failed to send!") with
      | .killed conn => .left ⟨none, [], [], some conn⟩
      | .failed error _ conn => .left ⟨some (-1), [], endl error, some conn⟩
      | .granted msg conn =>
        match Client.Loop.run n ⟨⟨conn, msg, false, [], []⟩, [], ⟨stdin, false⟩⟩ with
        | .looping l => .looping l
        | .exited c => .left ⟨some 0, c.stdout, c.stderr.flatMap endl, some c.conn⟩
        | .killed c => .left ⟨none, c.stdout, c.stderr.flatMap endl, some c.conn⟩
  | _ => some (.left ⟨some 1, [], endl (str "Usage: ./sender [server_address] [port] [username]"), none⟩)

/-! ## What a connection answers -/

namespace Connection

/-- One request, and how it ends. -/
def ask (conn : Connection) (request : Message) : Reply × Connection :=
  match conn.send request with
  | (false, conn) => (.sendFailed, conn)
  | (true, conn) =>
    match conn.receive ⟨[], []⟩ with
    | (false, _, conn) => (.receiveFailed, conn)
    | (true, msg, conn) => (.answered msg, conn)

/-- One request after the other, to the one at which the sender is killed, if it is. -/
inductive Asked : Connection → List (Message × Reply) → (killed : Bool) → Connection → Prop
  | nil (conn : Connection) : Asked conn [] false conn
  | cons {conn conn' : Connection} {request : Message} {exchanges : List (Message × Reply)} {killed : Bool}
      (hpipe : conn.breaks request = false) (h : Asked (conn.ask request).2 exchanges killed conn') :
      Asked conn ((request, (conn.ask request).1) :: exchanges) killed conn'
  | broken {conn : Connection} {request : Message} (hpipe : conn.breaks request = true) :
      Asked conn [(request, .sendFailed)] true (conn.send request).2

theorem Asked.append {conn conn' conn'' : Connection} {exchanges exchanges' : List (Message × Reply)}
    {killed : Bool} (h : Asked conn exchanges false conn') (h' : Asked conn' exchanges' killed conn'') :
    Asked conn (exchanges ++ exchanges') killed conn'' := by
  generalize hfalse : false = alive at h
  induction h with
  | nil => exact h'
  | cons hpipe _ ih => exact .cons hpipe (ih h' hfalse)
  | broken => cases hfalse

/-- The caller's `msg` is only written to. -/
theorem receive_any (conn : Connection) :
    ∃ conn', (∀ msg, conn.receive msg = (false, msg, conn')) ∨ ∃ m, ∀ msg, conn.receive msg = (true, m, conn') := by
  unfold receive
  split
  · split
    · exact ⟨_, .inl fun _ => rfl⟩
    · exact ⟨_, .inl fun _ => rfl⟩
    · split
      · exact ⟨_, .inl fun _ => rfl⟩
      · exact ⟨_, .inr ⟨_, fun _ => rfl⟩⟩
  · exact ⟨_, .inl fun _ => rfl⟩

end Connection

/-- What goes to `std::cerr`. -/
def Reply.complaint (sendError : Str) : Reply → List Str
  | .sendFailed => [sendError]
  | .receiveFailed => [receiveError]
  | .answered msg => if msg.tag = tagOk then [] else [msg.data]

/-- What a request leaves of the two. -/
def Client.after (c : Client) (request msg : Message) (sendError : Str) : Client :=
  { c with
    conn := (c.conn.ask request).2
    msg := msg
    stderr := c.stderr ++ (c.conn.ask request).1.complaint sendError }

def Sender.after (s : Sender) (request : Message) (sendError : Str) (reply : Reply) : Sender :=
  { s with
    exchanges := s.exchanges ++ [(request, reply)]
    stderr := s.stderr ++ reply.complaint sendError }

theorem Client.exchange_killed {c : Client} {request : Message} (hpipe : c.conn.breaks request = true)
    (sendError : Str) : c.exchange request sendError = .killed { c with conn := (c.conn.send request).2 } := by
  simp [Client.exchange, Connection.exchange, hpipe]

theorem Client.exchange_eq {c : Client} {request : Message} (hpipe : c.conn.breaks request = false)
    (sendError : Str) :
    ∃ msg, c.exchange request sendError =
      if (c.conn.ask request).1.ok then .granted (c.after request msg sendError)
      else .failed (c.after request msg sendError) := by
  unfold Client.exchange Connection.exchange Client.after Connection.ask
  rw [hpipe]
  rcases c.conn.send request with ⟨_ | _, conn⟩
  · exact ⟨c.msg, rfl⟩
  · obtain ⟨conn', hreceive | ⟨m, hreceive⟩⟩ := conn.receive_any
    · simp only [hreceive]
      exact ⟨c.msg, rfl⟩
    · simp only [hreceive]
      refine ⟨m, ?_⟩
      by_cases hok : m.tag = tagOk <;> simp [hok, Reply.ok, Reply.complaint, complain]

theorem Sender.exchange_eq (server : Server) (s : Sender) (request : Message) (sendError : Str) :
    s.exchange server request sendError =
      ((server s.exchanges.length).ok, s.after request sendError (server s.exchanges.length)) := by
  unfold Sender.exchange Sender.after
  cases hr : server s.exchanges.length with
  | sendFailed => rfl
  | receiveFailed => rfl
  | answered msg =>
    by_cases hok : msg.tag = tagOk <;> simp [hok, Reply.ok, Reply.complaint, Sender.complain]

/-! ## The simulation -/

/-- From its `n`-th reply on, the server answers as in `exchanges`. -/
def Server.Answers (server : Server) (n : Nat) (exchanges : List (Message × Reply)) : Prop :=
  ∀ k (h : k < exchanges.length), server (n + k) = (exchanges[k]).2

theorem Server.Answers.append {server : Server} {n : Nat} {exchanges exchanges' : List (Message × Reply)}
    (h : server.Answers n (exchanges ++ exchanges')) :
    server.Answers n exchanges ∧ server.Answers (n + exchanges.length) exchanges' := by
  constructor
  · intro k hk
    rw [h k (by rw [List.length_append]; omega), List.getElem_append_left hk]
  · intro k hk
    rw [Nat.add_assoc, h (exchanges.length + k) (by rw [List.length_append]; omega),
      List.getElem_append_right (Nat.le_add_right _ _)]
    simp

namespace Client

structure Like (c : Client) (s : Sender) : Prop where
  joinedRoom : c.joinedRoom = s.joinedRoom
  stderr : c.stderr = s.stderr

/-- `Sender` outlives `SIGPIPE`: it reports the request that fails. -/
inductive LikeTurn : Turn → Chat.Turn → Prop
  | prompt {c : Client} {s : Sender} (h : Like c s) : LikeTurn (.prompt c) (.prompt s)
  | quit {c : Client} {s : Sender} (h : Like c s) : LikeTurn (.quit c) (.quit s)
  | killed {c : Client} {s : Sender} (error : Str) (h : s.stderr = c.stderr ++ [error]) :
      LikeTurn (.killed c) (.prompt s)

def Turn.client : Turn → Client
  | .prompt c => c
  | .quit c => c
  | .killed c => c

def Turn.isKilled : Turn → Bool
  | .killed _ => true
  | _ => false

end Client

def Turn.sender : Turn → Sender
  | .prompt s => s
  | .quit s => s

namespace Client

open Connection

/-- The code takes `c` to `turn`, and does so as `abs` does. -/
def Simulates (c : Client) (turn : Turn) (abs : Server → Sender → Chat.Turn) : Prop :=
  ∃ exchanges, Asked c.conn exchanges turn.isKilled turn.client.conn ∧ ∀ server s, Like c s →
    server.Answers s.exchanges.length exchanges →
      LikeTurn turn (abs server s) ∧ (abs server s).sender.exchanges = s.exchanges ++ exchanges

variable {c : Client} {turn : Turn} {abs abs' : Server → Sender → Chat.Turn}

theorem Simulates.congr (h : Simulates c turn abs') (heq : ∀ server s, Like c s → abs server s = abs' server s) :
    Simulates c turn abs := by
  obtain ⟨exchanges, hasked, hsim⟩ := h
  refine ⟨exchanges, hasked, fun server s hlike hanswers => ?_⟩
  rw [heq server s hlike]
  exact hsim server s hlike hanswers

/-- Nothing is sent. -/
theorem simulates_prompt {c' : Client} (f : Sender → Sender) (hconn : c'.conn = c.conn)
    (hlike : ∀ s, Like c s → Like c' (f s)) (hf : ∀ s, (f s).exchanges = s.exchanges) :
    Simulates c (.prompt c') fun _ s => .prompt (f s) := by
  refine ⟨[], ?_, fun server s h _ => ⟨.prompt (hlike s h), ?_⟩⟩
  · show Asked c.conn [] false c'.conn
    rw [hconn]
    exact .nil _
  · simpa [Turn.sender] using hf s

theorem simulates_complain (text : Str) :
    Simulates c (.prompt (c.complain text)) fun _ s => .prompt (s.complain text) :=
  simulates_prompt (fun s => s.complain text) rfl (fun _ h => ⟨h.joinedRoom, congrArg (· ++ [text]) h.stderr⟩)
    fun _ => rfl

theorem simulates_stay : Simulates c (.prompt c) fun _ s => .prompt s :=
  simulates_prompt (fun s => s) rfl (fun _ h => h) fun _ => rfl

theorem Like.after {s : Sender} (h : Like c s) (request msg : Message) (sendError : Str) :
    Like (c.after request msg sendError) (s.after request sendError (c.conn.ask request).1) :=
  ⟨h.joinedRoom, congrArg (· ++ _) h.stderr⟩

/-- What is simulated behind a request is simulated from the request on. -/
theorem Simulates.ask {request msg : Message} {sendError : Str} (hpipe : c.conn.breaks request = false)
    (h : Simulates (c.after request msg sendError) turn abs')
    (heq : ∀ server s, server s.exchanges.length = (c.conn.ask request).1 →
      abs server s = abs' server (s.after request sendError (c.conn.ask request).1)) :
    Simulates c turn abs := by
  obtain ⟨exchanges, hasked, hsim⟩ := h
  refine ⟨(request, (c.conn.ask request).1) :: exchanges, .cons hpipe hasked, fun server s hlike hanswers => ?_⟩
  obtain ⟨hfirst, hrest⟩ := Server.Answers.append
    (show server.Answers s.exchanges.length ([(request, (c.conn.ask request).1)] ++ exchanges) from hanswers)
  have hreply : server s.exchanges.length = (c.conn.ask request).1 := hfirst 0 Nat.one_pos
  obtain ⟨hturn, hlog⟩ := hsim server (s.after request sendError (c.conn.ask request).1)
    (hlike.after request msg sendError) (by simpa [Sender.after] using hrest)
  rw [heq server s hreply]
  exact ⟨hturn, by simpa [Sender.after] using hlog⟩

/-- A request that kills the sender. -/
theorem simulates_killed {request : Message} (hpipe : c.conn.breaks request = true) (sendError : Str)
    (habs : ∀ server s, server s.exchanges.length = .sendFailed →
      abs server s = .prompt (s.after request sendError .sendFailed)) :
    Simulates c (.killed { c with conn := (c.conn.send request).2 }) abs := by
  refine ⟨[(request, .sendFailed)], .broken hpipe, fun server s hlike hanswers => ?_⟩
  rw [habs server s (hanswers 0 Nat.one_pos)]
  exact ⟨.killed sendError (congrArg (· ++ [sendError]) hlike.stderr.symm), rfl⟩

/-- A request, and what follows when it is granted. -/
theorem simulates_exchange {request : Message} {sendError : Str} {granted : Client → Turn}
    {absGranted : Server → Sender → Chat.Turn} (hgranted : ∀ c, Simulates c (granted c) absGranted) :
    Simulates c
      (match c.exchange request sendError with
        | .failed c => .prompt c
        | .killed c => .killed c
        | .granted c => granted c)
      fun server s =>
        match s.exchange server request sendError with
        | (false, s) => .prompt s
        | (true, s) => absGranted server s := by
  cases hpipe : c.conn.breaks request with
  | true =>
    rw [exchange_killed hpipe]
    refine simulates_killed hpipe sendError fun server s hreply => ?_
    rw [Sender.exchange_eq, hreply]
    rfl
  | false =>
    obtain ⟨msg, hexchange⟩ := exchange_eq hpipe sendError
    rw [hexchange]
    cases hok : (c.conn.ask request).1.ok with
    | false =>
      have hstay : Simulates (c.after request msg sendError) _ fun _ s => .prompt s := simulates_stay
      refine hstay.ask hpipe fun server s hreply => ?_
      rw [Sender.exchange_eq, hreply, hok]
    | true =>
      refine (hgranted (c.after request msg sendError)).ask hpipe fun server s hreply => ?_
      rw [Sender.exchange_eq, hreply, hok]

theorem simulates_joined (joined : Bool) :
    Simulates c (.prompt { c with joinedRoom := joined }) fun _ s => .prompt { s with joinedRoom := joined } :=
  simulates_prompt (fun s => { s with joinedRoom := joined }) rfl (fun _ h => ⟨rfl, h.stderr⟩) fun _ => rfl

theorem simulates_quit : Simulates c (.quit c) fun _ s => .quit s :=
  ⟨[], .nil _, fun _ _ h _ => ⟨.quit h, (List.append_nil _).symm⟩⟩

theorem simulates_join (room : Str) : Simulates c (c.join room) fun server s => s.join server room :=
  simulates_exchange fun _ => simulates_joined true

/-- **Round.** -/
theorem simulates_command (c : Client) (input : Str) :
    Simulates c (c.command input) fun server s => s.command server input := by
  unfold command Sender.command
  dsimp only
  split
  · cases Sender.roomName (stripend input) with
    | none => exact simulates_complain _
    | some room =>
      cases hjoined : c.joinedRoom with
      | false =>
        refine (simulates_join room).congr fun server s hlike => ?_
        rw [← hlike.joinedRoom, hjoined]
        rfl
      | true =>
        refine (simulates_exchange fun _ => simulates_join room).congr
          fun server s hlike => ?_
        rw [← hlike.joinedRoom, hjoined]
        rfl
  · split
    · exact simulates_exchange fun _ => simulates_joined false
    · split
      · exact simulates_exchange fun _ => simulates_quit
      · cases hjoined : c.joinedRoom with
        | false =>
          refine (simulates_complain _).congr fun server s hlike => ?_
          rw [← hlike.joinedRoom, hjoined]
          rfl
        | true =>
          refine (simulates_exchange fun _ => simulates_stay).congr
            fun server s hlike => ?_
          rw [← hlike.joinedRoom, hjoined]
          rfl

/-! ## Round after round -/

/-- What is left of a run, with the connection that is left. -/
inductive LikeProgress : Connection → List (Message × Reply) → (killed : Bool) → Progress → Chat.Progress → Prop
  | looping {c : Client} {s : Sender} {line : Str} {stdin : Stdin} (h : Like c s) :
      LikeProgress c.conn s.exchanges false (.looping ⟨c, line, stdin⟩) (.looping ⟨s, line, stdin⟩)
  | exited {c : Client} {s : Sender} (h : Like c s) :
      LikeProgress c.conn s.exchanges false (.exited { c with conn := { c.conn with opened := false } }) (.exited s)
  | killed {c : Client} {s : Sender} {line : Str} {stdin : Stdin} (error : Str) (h : s.stderr = c.stderr ++ [error]) :
      LikeProgress c.conn s.exchanges true (.killed c) (.looping ⟨s, line, stdin⟩)

/-- As many rounds, if the sender lives. -/
theorem run_simulates (n : Nat) (c : Client) (line : Str) (stdin : Stdin) :
    ∃ k ≤ n, ∃ exchanges killed conn, Asked c.conn exchanges killed conn ∧ (killed = false → k = n) ∧
      ∀ server s, Like c s → server.Answers s.exchanges.length exchanges →
        LikeProgress conn (s.exchanges ++ exchanges) killed (Loop.run n ⟨c, line, stdin⟩)
          (Chat.Loop.run server k ⟨s, line, stdin⟩) := by
  induction n generalizing c line stdin with
  | zero =>
    refine ⟨0, Nat.le_refl _, [], false, c.conn, .nil _, fun _ => rfl, fun server s h _ => ?_⟩
    rw [List.append_nil]
    exact .looping h
  | succ n ih =>
    obtain ⟨exchanges, hasked, hsim⟩ :=
      simulates_command { c with stdout := c.stdout ++ str "> " } (getline line stdin).1
    change Asked c.conn exchanges _ _ at hasked
    simp only [Loop.run, Loop.iteration]
    cases hturn : command { c with stdout := c.stdout ++ str "> " } (getline line stdin).1 with
    | prompt c' =>
      rw [hturn] at hasked hsim
      obtain ⟨k, hk, rest, killed, conn, hasked', hall, hrun⟩ :=
        ih c' (stripend (getline line stdin).1) (getline line stdin).2
      refine ⟨k + 1, Nat.succ_le_succ hk, exchanges ++ rest, killed, conn, hasked.append hasked',
        fun halive => congrArg (· + 1) (hall halive), fun server s h hanswers => ?_⟩
      obtain ⟨hfirst, hrest⟩ := hanswers.append
      obtain ⟨hlike, hlog⟩ := hsim server s ⟨h.joinedRoom, h.stderr⟩ hfirst
      dsimp only at hlike hlog
      simp only [Chat.Loop.run, Chat.Loop.iteration]
      generalize s.command server (getline line stdin).1 = abs at hlike hlog ⊢
      cases hlike with
      | @prompt _ s' hlike =>
        change s'.exchanges = _ at hlog
        have hnext := hrun server s' hlike (by rw [hlog, List.length_append]; exact hrest)
        rw [hlog, List.append_assoc] at hnext
        exact hnext
    | quit c' =>
      rw [hturn] at hasked hsim
      refine ⟨n + 1, Nat.le_refl _, exchanges, false, c'.conn, hasked, fun _ => rfl, fun server s h hanswers => ?_⟩
      obtain ⟨hlike, hlog⟩ := hsim server s ⟨h.joinedRoom, h.stderr⟩ hanswers
      dsimp only at hlike hlog
      simp only [Chat.Loop.run, Chat.Loop.iteration]
      generalize s.command server (getline line stdin).1 = abs at hlike hlog ⊢
      cases hlike with
      | @quit _ s' hlike =>
        change s'.exchanges = _ at hlog
        rw [← hlog]
        exact .exited hlike
    | killed c' =>
      -- the abstract run stops behind the round in which the code is killed
      rw [hturn] at hasked hsim
      refine ⟨1, Nat.succ_le_succ (Nat.zero_le _), exchanges, true, c'.conn, hasked,
        fun halive => Bool.noConfusion halive, fun server s h hanswers => ?_⟩
      obtain ⟨hlike, hlog⟩ := hsim server s ⟨h.joinedRoom, h.stderr⟩ hanswers
      dsimp only at hlike hlog
      simp only [Chat.Loop.run, Chat.Loop.iteration]
      generalize s.command server (getline line stdin).1 = abs at hlike hlog ⊢
      cases hlike with
      | @killed _ s' error hstderr =>
        change s'.exchanges = _ at hlog
        rw [← hlog]
        exact .killed error hstderr

end Client

/-! ## Without failures -/

/-- What comes back on a line of the stream. -/
def replyTo (buf : Str) : Reply :=
  match Connection.answer buf ⟨[], []⟩ with
  | (true, msg, _) => .answered msg
  | (false, _, _) => .receiveFailed

/-- The server whose `n`-th reply is the `n`-th line of the stream. -/
def Server.ofStream (stream : Str) : Server
  | 0 => replyTo (takeLine newline 254 stream).1
  | n + 1 => Server.ofStream (takeLine newline 254 stream).2 n

namespace Connection

variable {conn conn' : Connection} {exchanges : List (Message × Reply)} {killed : Bool}

theorem ask_spec (hr : conn.Readable) (hw : conn.Writable) (request : Message) :
    (conn.ask request).1 = replyTo (takeLine newline 254 conn.stream).1 ∧
      (conn.ask request).2.Readable ∧ (conn.ask request).2.Writable ∧
      (conn.ask request).2.stream = (takeLine newline 254 conn.stream).2 ∧
      (conn.ask request).2.sent = conn.sent ++ request.toString := by
  obtain ⟨writes, hsend, -, hwrites⟩ := send_wire hw.opened hw.writes request
  obtain ⟨rp, hread, hstream, hreads⟩ := readlineb_spec hr.reads Message.maxLen
  change rioReadlineb _ _ = (some (takeLine newline 254 conn.stream).1, rp) at hread
  have hreceive := receive_some
    (show Connection.opened { conn with
      sent := conn.sent ++ request.toString, writes := writes, lastResult := .success } = true from hw.opened)
    hread ⟨[], []⟩
  unfold ask replyTo
  rw [hsend]
  dsimp only
  rw [hreceive]
  rcases answer (takeLine newline 254 conn.stream).1 ⟨[], []⟩ with ⟨_ | _, m, result⟩
  · exact ⟨rfl, ⟨hw.opened, hreads⟩, ⟨hw.opened, hwrites⟩, hstream, rfl⟩
  · exact ⟨rfl, ⟨hw.opened, hreads⟩, ⟨hw.opened, hwrites⟩, hstream, rfl⟩

theorem Asked.spec (h : Asked conn exchanges killed conn') (hr : conn.Readable) (hw : conn.Writable) :
    killed = false ∧ (Server.ofStream conn.stream).Answers 0 exchanges ∧
      conn'.sent = conn.sent ++ exchanges.flatMap fun e => e.1.toString := by
  induction h with
  | nil => exact ⟨rfl, nofun, by simp⟩
  | @cons conn conn' request exchanges killed _ h ih =>
    obtain ⟨hreply, hr', hw', hstream, hsent⟩ := ask_spec hr hw request
    obtain ⟨halive, hanswers, hsent'⟩ := ih hr' hw'
    refine ⟨halive, fun k hk => ?_, ?_⟩
    · rw [Nat.zero_add]
      cases k with
      | zero => exact hreply.symm
      | succ k =>
        have hnext := hanswers k (Nat.lt_of_succ_lt_succ hk)
        rw [hstream, Nat.zero_add] at hnext
        exact hnext
    · rw [hsent', hsent, List.flatMap_cons, List.append_assoc]
  | @broken conn request hpipe =>
    obtain ⟨-, -, hintact, -⟩ := send_wire hw.opened hw.writes request
    rw [hpipe] at hintact
    cases hintact

end Connection

/-! ## The whole program -/

/-- The program is where the abstract run is, with the requests `exchanges` behind it; or it has been killed, and
the abstract run has one more error to report. -/
def SenderProgress.Agrees (conn : Connection) (exchanges : List (Message × Reply)) (killed : Bool) :
    Option SenderProgress → Progress → Prop
  | some (.looping l), .looping l' =>
    killed = false ∧ l.client.joinedRoom = l'.sender.joinedRoom ∧ l.client.stderr = l'.sender.stderr ∧
      l.line = l'.line ∧ l.stdin = l'.stdin ∧ l.client.conn = conn ∧ l'.sender.exchanges = exchanges
  | some (.left exit), .exited s =>
    killed = false ∧ exit.status = some 0 ∧ exit.stderr = s.stderr.flatMap endl ∧
      exit.conn = some { conn with opened := false } ∧ s.exchanges = exchanges
  | some (.left exit), .looping l' =>
    killed = true ∧ exit.status = none ∧ (∃ error, l'.sender.stderr.flatMap endl = exit.stderr ++ endl error) ∧
      exit.conn = some conn ∧ l'.sender.exchanges = exchanges
  | _, _ => False

/-- **Refinement**: behind its login, the program does what `Sender` does with a server that answers as the
connection does, up to the request at which `SIGPIPE` kills it. When nothing fails, that server is the incoming
stream, one line for each request, and the outgoing stream is the requests. -/
theorem senderMain_refines {connect : Str → Int → Connection} {name serverHostname port username : Str}
    {serverPort : Int} {msg : Message} {conn : Connection} (hport : stoi port = some serverPort)
    (hlogin : (connect serverHostname serverPort).exchange ⟨[], []⟩ (.ofData tagSlogin username)
      (str "Sender login failed to send!") = .granted msg conn) (text : Str) (n : Nat) :
    ∃ k ≤ n, ∃ server exchanges killed conn', conn.Asked exchanges killed conn' ∧ (killed = false → k = n) ∧
      SenderProgress.Agrees conn' exchanges killed
        (senderMain [name, serverHostname, port, username] connect text n) ((Loop.start text).run server k) ∧
      (conn.Readable → conn.Writable → killed = false ∧ server = Server.ofStream conn.stream ∧
        conn'.sent = conn.sent ++ exchanges.flatMap fun e => e.1.toString) := by
  obtain ⟨k, hk, exchanges, killed, conn', hasked, hall, hsim⟩ :=
    Client.run_simulates n ⟨conn, msg, false, [], []⟩ [] ⟨text, false⟩
  change conn.Asked exchanges killed conn' at hasked
  have hagrees (server : Server) (hanswers : server.Answers 0 exchanges) :
      SenderProgress.Agrees conn' exchanges killed
        (senderMain [name, serverHostname, port, username] connect text n) ((Loop.start text).run server k) := by
    have hlike := hsim server Sender.start ⟨rfl, rfl⟩ hanswers
    simp only [senderMain, hport, Option.map_some, hlogin]
    change Client.LikeProgress conn' exchanges killed _ ((Loop.start text).run server k) at hlike
    revert hlike
    generalize Client.Loop.run n ⟨⟨conn, msg, false, [], []⟩, [], ⟨text, false⟩⟩ = p
    generalize (Loop.start text).run server k = q
    rintro (h | h | ⟨error, h⟩)
    · exact ⟨rfl, h.joinedRoom, h.stderr, rfl, rfl, rfl, rfl⟩
    · exact ⟨rfl, rfl, congrArg (·.flatMap endl) h.stderr, rfl, rfl⟩
    · exact ⟨rfl, rfl, ⟨error, by simp [h]⟩, rfl, rfl⟩
  by_cases hreliable : conn.Readable ∧ conn.Writable
  · obtain ⟨halive, hanswers, hsent⟩ := hasked.spec hreliable.1 hreliable.2
    exact ⟨k, hk, Server.ofStream conn.stream, exchanges, killed, conn', hasked, hall, hagrees _ hanswers,
      fun _ _ => ⟨halive, rfl, hsent⟩⟩
  · refine ⟨k, hk, fun k => (exchanges[k]?).elim .sendFailed Prod.snd, exchanges, killed, conn', hasked, hall,
      hagrees _ ?_, fun hr hw => absurd ⟨hr, hw⟩ hreliable⟩
    intro k hk
    simp [List.getElem?_eq_getElem hk]

/-- The server lets amy in, and grants one request. -/
def amyConn : Connection := .ofChunk (str "ok:hi\nok:in\n") (by decide) (by decide)

theorem senderMain_refines_amy :
    let conn : Connection := ⟨true, ⟨str "ok:in\n", []⟩, [], str "slogin:amy\n", .success⟩
    ∃ k ≤ 2, ∃ server exchanges killed conn', conn.Asked exchanges killed conn' ∧ (killed = false → k = 2) ∧
      SenderProgress.Agrees conn' exchanges killed
        (senderMain [str "./sender", str "localhost", str "5000", str "amy"] (fun _ _ => amyConn) (str "/join a\n") 2)
        ((Loop.start (str "/join a\n")).run server k) ∧
      (conn.Readable → conn.Writable → killed = false ∧ server = Server.ofStream conn.stream ∧
        conn'.sent = conn.sent ++ exchanges.flatMap fun e => e.1.toString) := by
  have hport : stoi (str "5000") = some 5000 := by decide
  exact senderMain_refines hport rfl _ _

/-- The server closes behind the login: the `/join` kills the sender. -/
example : ∃ exit, senderMain [str "./sender", str "localhost", str "5000", str "amy"]
    (fun _ _ => { amyConn with writes := [.accepted 10, .broken] }) (str "/join a\n") 2 = some (.left exit) ∧
      exit.status = none ∧ exit.stdout = str "> " :=
  ⟨_, rfl, rfl, rfl⟩

end CsfAssignments.Chat
