import CsfAssignments.Chat.Rio
/-!
# `Connection` (`csf_assign05/connection.h`, `connection.cpp`)

`m_fd` is open or not; what the open descriptor does is in `fdbuf.reads` and `writes`, and `sent`
collects what its writes let through. `receive` reads with `Message::MAX_LEN` for a length that
`rio_readlineb` takes to include the NUL.
-/

namespace CsfAssignments.Chat

open Lines (takeLine)

inductive Result where
  | success
  | eofOrError
  | invalidMsg
deriving DecidableEq, Repr

structure Connection where
  opened : Bool
  fdbuf : Rio
  writes : List Write
  sent : Str
  lastResult : Result

namespace Connection

/-- `connection.cpp:48`. -/
def send (conn : Connection) (msg : Message) : Bool × Connection :=
  if conn.opened then
    let message := msg.toString
    let (ok, out, writes) := rioWriten message conn.writes
    let conn := { conn with sent := conn.sent ++ out, writes := writes }
    if ok then (true, { conn with lastResult := .success })
    else (false, { conn with lastResult := .eofOrError })
  else (false, { conn with lastResult := .eofOrError })

/-- `SIGPIPE` comes while `msg` is sent. -/
def breaks (conn : Connection) (msg : Message) : Bool := conn.opened && sigpipe msg.toString conn.writes

/-- What `std::string line(buf)` makes of the bytes in front of the final NUL. -/
def cString (buf : Str) : Str := buf.takeWhile (· ≠ 0)

/-- `connection.cpp:68`: the answer, the caller's `msg`, the connection. -/
def receive (conn : Connection) (msg : Message) : Bool × Message × Connection :=
  if conn.opened then
    match rioReadlineb conn.fdbuf Message.maxLen with
    | (none, rp) => (false, msg, { conn with fdbuf := rp, lastResult := .eofOrError })
    | (some [], rp) => (false, msg, { conn with fdbuf := rp, lastResult := .eofOrError })
    | (some buf, rp) =>
      match Message.ofLine (cString buf) with
      | none => (false, msg, { conn with fdbuf := rp, lastResult := .invalidMsg })
      | some m => (true, m, { conn with fdbuf := rp, lastResult := .success })
  else (false, msg, { conn with lastResult := .eofOrError })

/-- Bytes not yet received. -/
def stream (conn : Connection) : Str := conn.fdbuf.stream

/-- An open connection whose reads do not fail. -/
structure Readable (conn : Connection) : Prop where
  opened : conn.opened = true
  reads : conn.fdbuf.Reliable

/-- An open connection whose writes do not fail. -/
structure Writable (conn : Connection) : Prop where
  opened : conn.opened = true
  writes : Intact conn.writes

theorem cString_eq {s : Str} (h : (0 : UInt8) ∉ s) : cString s = s := by
  induction s with
  | nil => rfl
  | cons c s ih =>
    simp only [List.mem_cons, not_or] at h
    simpa [cString, Ne.symm h.1] using ih h.2

/-- **`send`** adds the encoding to what has been sent. -/
theorem send_spec {conn : Connection} (h : conn.Writable) (msg : Message) :
    ∃ conn', conn.send msg = (true, conn') ∧ conn'.Writable ∧
      conn'.sent = conn.sent ++ msg.toString ∧ conn'.lastResult = .success := by
  obtain ⟨writes, h1, -, h2⟩ := writen_spec msg.toString conn.writes h.writes
  refine ⟨{ conn with sent := conn.sent ++ msg.toString, writes := writes, lastResult := .success },
    ?_, ⟨h.opened, h2⟩, rfl, rfl⟩
  simp [send, h.opened, h1]

/-- What `receive` makes of the bytes `rio_readlineb` has stored. -/
def answer (buf : Str) (msg : Message) : Bool × Message × Result :=
  if buf = [] then (false, msg, .eofOrError)
  else
    match Message.ofLine (cString buf) with
    | none => (false, msg, .invalidMsg)
    | some m => (true, m, .success)

/-- **`receive`** takes what `takeLine` takes and answers it, however the bytes are chopped. -/
theorem receive_spec {conn : Connection} (h : conn.Readable) (msg : Message) :
    ∃ conn', conn'.Readable ∧ conn'.stream = (takeLine newline 254 conn.stream).2 ∧
      conn.receive msg = ((answer (takeLine newline 254 conn.stream).1 msg).1,
        (answer (takeLine newline 254 conn.stream).1 msg).2.1, conn') ∧
      conn'.lastResult = (answer (takeLine newline 254 conn.stream).1 msg).2.2 := by
  obtain ⟨rp, h1, h2, h3⟩ := readlineb_spec h.reads Message.maxLen
  change rioReadlineb _ _ = (some (takeLine newline 254 conn.stream).1, rp) at h1
  refine ⟨{ conn with fdbuf := rp, lastResult := (answer (takeLine newline 254 conn.stream).1 msg).2.2 },
    ⟨h.opened, h3⟩, h2, ?_, rfl⟩
  simp only [receive, h.opened, h1, if_true, answer]
  cases (takeLine newline 254 conn.stream).1 with
  | nil => rfl
  | cons c buf =>
    cases hm : Message.ofLine (cString (c :: buf)) with
    | none => simp [hm]
    | some m => simp [hm]

end Connection

end CsfAssignments.Chat
