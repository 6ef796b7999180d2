import Mathlib.Algebra.Group.Int.Defs
import Mathlib.Algebra.GroupWithZero.Nat
import CsfAssignments.Chat.Framing
/-!
# A client's session (`csf_assign05/sender.cpp`, `receiver.cpp`)

What the two clients share: the arguments, and the block that sends a request and waits for its `ok`.

| here | there |
| --- | --- |
| `stoi`                 | `std::stoi` of the port: `none` is an exception, which nobody catches |
| `Connection.exchange`  | the block `send`, `receive`, `msg.tag != TAG_OK` (`receiver.cpp:28-53`, `sender.cpp:31-43`): an error is a line on `std::cerr` |
| `Exit`                 | what `main` leaves behind |

Only the server ignores `SIGPIPE` (`server_main.cpp:20`): a client that writes to a closed connection is killed.

A `read` may fail. What arrives up to then is `delivered`, and `Hears` compares it with what the other side has
put on the wire: `receive_message` is the one lemma about reading that the clients need.
-/

namespace CsfAssignments.Chat

open Lines (takeLine takeLine_line unlines)

/-- `isspace` in the C locale. -/
def isspace (c : UInt8) : Bool := c = 32 || (9 ≤ c && c ≤ 13)

def isdigit (c : UInt8) : Bool := 48 ≤ c && c ≤ 57

/-- The digits in front, as a number; the rest of the string is ignored. -/
def decimal (s : Str) : Option Nat :=
  match s.takeWhile isdigit with
  | [] => none
  | digits => some (digits.foldl (fun n c => 10 * n + (c.toNat - 48)) 0)

def stoi (s : Str) : Option Int :=
  let s := s.dropWhile isspace
  let value : Option Int :=
    match s with
    | 45 :: s => (decimal s).map fun n => -(n : Int)
    | 43 :: s => (decimal s).map fun n => (n : Int)
    | s => (decimal s).map fun n => (n : Int)
  value.bind fun n => if -2 ^ 31 ≤ n ∧ n < 2 ^ 31 then some n else none

/-- The exit status, the two streams, and the connection at the end. -/
structure Exit where
  /-- `none`: ended by `SIGPIPE`. -/
  status : Option Int
  stdout : Str
  stderr : Str
  conn : Option Connection

/-- `std::endl`. -/
def endl (s : Str) : Str := s ++ [newline]

def receiveError : Str := str "Failed to receive message from server!"

/-- How a request ends. -/
inductive Exchanged where
  | granted (msg : Message) (conn : Connection)
  | failed (error : Str) (msg : Message) (conn : Connection)
  | killed (conn : Connection)

/-- Sends a request and waits for the answer, with the caller's `msg`. -/
def Connection.exchange (conn : Connection) (msg request : Message) (sendError : Str) : Exchanged :=
  if conn.breaks request then .killed (conn.send request).2
  else
    match conn.send request with
    | (false, conn) => .failed sendError msg conn
    | (true, conn) =>
      match conn.receive msg with
      | (false, msg, conn) => .failed receiveError msg conn
      | (true, msg, conn) => if msg.tag ≠ tagOk then .failed msg.data msg conn else .granted msg conn

/-! ## Reads that may fail -/

/-- What arrives before a `read` fails. -/
def arrives : List Read → Str
  | [] => []
  | .failed :: _ => []
  | read :: reads => read.bytes ++ arrives reads

def Rio.delivered (rp : Rio) : Str := rp.unread ++ arrives rp.reads

theorem rioRead_one_delivered : ∀ (unread : Str) (reads : List Read),
    (Read.failed ∈ reads ∧ (Rio.mk unread reads).delivered = [] ∧ ∃ rp, rioRead 1 unread reads = (none, rp)) ∨
      ∃ rp, (Read.failed ∈ rp.reads ↔ Read.failed ∈ reads) ∧
        ((Rio.mk unread reads).delivered = [] → Read.failed ∉ reads) ∧
        rioRead 1 unread reads = (some ((Rio.mk unread reads).delivered.take 1), rp) ∧
        rp.delivered = (Rio.mk unread reads).delivered.drop 1
  | c :: cs, reads => .inr ⟨⟨cs, reads⟩, Iff.rfl, nofun, by simp [rioRead, Rio.delivered], by simp [Rio.delivered]⟩
  | [], [] => .inr ⟨⟨[], []⟩, Iff.rfl, nofun, by simp [rioRead, Rio.delivered, arrives], by simp [Rio.delivered, arrives]⟩
  | [], .failed :: reads => .inl ⟨.head _, rfl, _, rfl⟩
  | [], .chunk [] hne _ :: reads => absurd rfl hne
  | [], .chunk (c :: cs) _ _ :: reads =>
    .inr ⟨⟨cs, reads⟩, by simp, nofun, by simp [rioRead, Rio.delivered, arrives, Read.bytes],
      by simp [Rio.delivered, arrives, Read.bytes]⟩
  | [], .interrupted :: reads => by
    have hsame : (Rio.mk [] (.interrupted :: reads)).delivered = (Rio.mk [] reads).delivered := rfl
    have hmem : Read.failed ∈ Read.interrupted :: reads ↔ Read.failed ∈ reads := by simp
    rw [hsame, hmem]
    exact rioRead_one_delivered [] reads

/-- `rio_readlineb` fails when a `read` does before the line is over; else the failures to come do not show. -/
theorem readlineLoop_delivered (room : Nat) (line : Str) (rp : Rio) :
    (Read.failed ∈ rp.reads ∧ rp.delivered.length < room ∧ newline ∉ rp.delivered ∧
        ∃ rp', readlineLoop room line rp = (none, rp')) ∨
      ¬(Read.failed ∈ rp.reads ∧ rp.delivered.length < room ∧ newline ∉ rp.delivered) ∧
        ∃ rp', readlineLoop room line rp = (some (line ++ (takeLine newline room rp.delivered).1), rp') ∧
          rp'.delivered = (takeLine newline room rp.delivered).2 ∧
          (Read.failed ∈ rp'.reads ↔ Read.failed ∈ rp.reads) := by
  induction room generalizing line rp with
  | zero => exact .inr ⟨by simp, rp, by simp [readlineLoop, takeLine], rfl, Iff.rfl⟩
  | succ room ih =>
    rcases rioRead_one_delivered rp.unread rp.reads with ⟨hfail, hnone, rp', hread⟩ | ⟨rp', hmem, hend, hread, hrest⟩
    · change rp.delivered = [] at hnone
      exact .inl ⟨hfail, by simp [hnone], by simp [hnone], rp', by simp [readlineLoop, hread]⟩
    · change rp.delivered = [] → _ at hend
      change rioRead 1 rp.unread rp.reads = (some (rp.delivered.take 1), rp') at hread
      change rp'.delivered = rp.delivered.drop 1 at hrest
      cases hs : rp.delivered with
      | nil =>
        rw [hs] at hread hrest
        exact .inr ⟨fun h => hend hs h.1, rp', by simp [readlineLoop, hread], by simpa using hrest, hmem⟩
      | cons c s =>
        rw [hs] at hread hrest
        by_cases hc : c = newline
        · refine .inr ⟨by simp [hc], rp', ?_, ?_, hmem⟩
          · simp [readlineLoop, hread, takeLine, hc]
          · simpa [takeLine, hc] using hrest
        · have hs' : rp'.delivered = s := by simpa using hrest
          have hnot : newline ∉ c :: s ↔ newline ∉ s := by simp [Ne.symm hc]
          have hlen : (c :: s).length < room + 1 ↔ s.length < room := by simp
          have hloop (o : Option Str) (rp'' : Rio) (h : readlineLoop room (line ++ [c]) rp' = (o, rp'')) :
              readlineLoop (room + 1) line rp = (o, rp'') := by
            simp [readlineLoop, hread, hc, h]
          rw [hnot, hlen, ← hmem]
          rcases ih (line ++ [c]) rp' with ⟨h1, h2, h3, rp'', h4⟩ | ⟨h1, rp'', h2, h3, h4⟩
          · rw [hs'] at h2 h3
            exact .inl ⟨h1, h2, h3, rp'', hloop _ _ h4⟩
          · rw [hs'] at h1 h2 h3
            refine .inr ⟨h1, rp'', ?_, ?_, h4⟩
            · rw [hloop _ _ h2]
              simp [takeLine, hc]
            · simpa [takeLine, hc] using h3

/-! ## The other side of the wire -/

namespace Connection

variable {conn : Connection} {m : Message} {rest : Str}

/-- The other side sends `wire` and closes; only a `read` that fails loses some of it. -/
structure Hears (conn : Connection) (wire : Str) : Prop where
  opened : conn.opened = true
  arrives : ∃ lost, wire = conn.fdbuf.delivered ++ lost ∧ (Read.failed ∉ conn.fdbuf.reads → lost = [])

theorem receive_some {buf : Str} {rp : Rio} (hopen : conn.opened = true)
    (h : rioReadlineb conn.fdbuf Message.maxLen = (some buf, rp)) (msg : Message) :
    conn.receive msg = ((answer buf msg).1, (answer buf msg).2.1,
      { conn with fdbuf := rp, lastResult := (answer buf msg).2.2 }) := by
  simp only [receive, hopen, h, if_true, answer]
  cases buf with
  | nil => rfl
  | cons c buf =>
    cases hm : Message.ofLine (cString (c :: buf)) with
    | none => simp [hm]
    | some m => simp [hm]

theorem receive_none {rp : Rio} (hopen : conn.opened = true)
    (h : rioReadlineb conn.fdbuf Message.maxLen = (none, rp)) (msg : Message) :
    conn.receive msg = (false, msg, { conn with fdbuf := rp, lastResult := .eofOrError }) := by
  simp [receive, hopen, h]

/-- A line that is on the wire is received, or a `read` fails first. -/
theorem receive_wire {line : Str} (h : conn.Hears (line ++ newline :: rest)) (hn : newline ∉ line)
    (hlen : line.length < 254) (msg : Message) :
    (∃ rp, (conn.receive msg) = ((answer (line ++ [newline]) msg).1, (answer (line ++ [newline]) msg).2.1,
        { conn with fdbuf := rp, lastResult := (answer (line ++ [newline]) msg).2.2 }) ∧
      (Read.failed ∈ rp.reads ↔ Read.failed ∈ conn.fdbuf.reads) ∧ Hears { conn with fdbuf := rp } rest) ∨
      Read.failed ∈ conn.fdbuf.reads ∧ ∃ rp,
        conn.receive msg = (false, msg, { conn with fdbuf := rp, lastResult := .eofOrError }) := by
  obtain ⟨hopen, lost, hwire, hlost⟩ := h
  have hread := readlineLoop_delivered (Message.maxLen - 1) [] conn.fdbuf
  change (_ ∧ _ < 254 ∧ _ ∧ ∃ rp, rioReadlineb conn.fdbuf Message.maxLen = (none, rp)) ∨
    ¬(_ ∧ _ < 254 ∧ _) ∧ ∃ rp, rioReadlineb conn.fdbuf Message.maxLen =
      (some (takeLine newline 254 conn.fdbuf.delivered).1, rp) ∧
      rp.delivered = (takeLine newline 254 conn.fdbuf.delivered).2 ∧ _ at hread
  rcases hread with ⟨hfail, -, -, rp, hnone⟩ | ⟨hshort, rp, hsome, hrest, hmem⟩
  · exact .inr ⟨hfail, rp, receive_none hopen hnone msg⟩
  · left
    -- the line and its newline are there, or all that is there is a part of the line
    have hcut : ∃ s, conn.fdbuf.delivered = line ++ newline :: s ∧ rest = s ++ lost := by
      have happ : (line ++ [newline]) ++ rest = conn.fdbuf.delivered ++ lost := by simpa using hwire
      rcases List.append_eq_append_iff.1 happ with ⟨s, hs, hr⟩ | ⟨s, hs, hl⟩
      · exact ⟨s, by simpa using hs, hr⟩
      · rcases List.eq_nil_or_concat s with rfl | ⟨front, c, rfl⟩
        · exact ⟨[], by simpa using hs.symm, by simpa using hl.symm⟩
        · exfalso
          rw [List.concat_eq_append, ← List.append_assoc] at hs
          have hpre : line = conn.fdbuf.delivered ++ front := (List.append_inj' hs rfl).1
          refine hshort ⟨?_, ?_, ?_⟩
          · by_contra hok
            have := hlost hok
            simp [hl] at this
          · have := congrArg List.length hpre
            rw [List.length_append] at this
            omega
          · exact fun h => hn (hpre ▸ List.mem_append_left _ h)
    obtain ⟨s, hs, hr⟩ := hcut
    rw [hs, takeLine_line hn hlen] at hsome hrest
    refine ⟨rp, receive_some hopen hsome msg, hmem, hopen, lost, ?_, ?_⟩
    · rw [hr]
      exact congrArg (· ++ lost) hrest.symm
    · exact fun hok => hlost fun h => hok (hmem.2 h)

theorem receive_message (h : conn.Hears (m.toString ++ rest)) (hlegal : Legal m)
    (hlen : m.toString.length ≤ 254) (msg : Message) :
    (∃ rp, conn.receive msg = (true, m, { conn with fdbuf := rp, lastResult := .success }) ∧
      (Read.failed ∈ rp.reads ↔ Read.failed ∈ conn.fdbuf.reads) ∧ Hears { conn with fdbuf := rp } rest) ∨
      Read.failed ∈ conn.fdbuf.reads ∧ ∃ rp,
        conn.receive msg = (false, msg, { conn with fdbuf := rp, lastResult := .eofOrError }) := by
  rw [toString_eq, List.append_assoc] at h
  rw [toString_eq, List.length_append, List.length_singleton] at hlen
  have hwire := receive_wire h hlegal.newline_not_mem (by omega) msg
  rw [(answer_encoded hlegal msg).1] at hwire
  exact hwire

/-- Behind the last line. -/
theorem receive_silence (h : conn.Hears []) (msg : Message) :
    ∃ rp, conn.receive msg = (false, msg, { conn with fdbuf := rp, lastResult := .eofOrError }) := by
  obtain ⟨hopen, lost, hwire, -⟩ := h
  have hnone : conn.fdbuf.delivered = [] := (List.append_eq_nil_iff.1 hwire.symm).1
  rcases readlineLoop_delivered (Message.maxLen - 1) [] conn.fdbuf with ⟨-, -, -, rp, hread⟩ | ⟨-, rp, hread, -, -⟩
  · exact ⟨rp, receive_none hopen hread msg⟩
  · rw [hnone, Lines.takeLine_nil] at hread
    exact ⟨rp, receive_some hopen hread msg⟩

theorem send_wire (hopen : conn.opened = true) (hw : Intact conn.writes) (msg : Message) :
    ∃ writes, conn.send msg =
        (true, { conn with sent := conn.sent ++ msg.toString, writes := writes, lastResult := .success }) ∧
      conn.breaks msg = false ∧ Intact writes := by
  obtain ⟨writes, h1, h2, h3⟩ := writen_spec msg.toString conn.writes hw
  exact ⟨writes, by simp [send, hopen, h1], by simp [breaks, h2], h3⟩

/-- **A request** that the other side grants, or a `read` fails before the answer is there. -/
theorem exchange_granted (h : conn.Hears (m.toString ++ rest)) (hlegal : Legal m)
    (hlen : m.toString.length ≤ 254) (hok : m.tag = tagOk) (hw : Intact conn.writes)
    (msg request : Message) (sendError : Str) :
    (∃ conn', conn.exchange msg request sendError = .granted m conn' ∧ conn'.Hears rest ∧
      Intact conn'.writes ∧ conn'.sent = conn.sent ++ request.toString ∧
      (Read.failed ∈ conn'.fdbuf.reads ↔ Read.failed ∈ conn.fdbuf.reads)) ∨
      Read.failed ∈ conn.fdbuf.reads ∧ ∃ conn',
        conn.exchange msg request sendError = .failed receiveError msg conn' ∧
          conn'.sent = conn.sent ++ request.toString := by
  obtain ⟨writes, hsend, hbreaks, hw'⟩ := send_wire h.opened hw request
  have hhears : Hears { conn with sent := conn.sent ++ request.toString, writes := writes, lastResult := .success }
      (m.toString ++ rest) := ⟨h.opened, h.arrives⟩
  rcases receive_message hhears hlegal hlen msg with ⟨rp, hreceive, hmem, hrest⟩ | ⟨hfail, rp, hreceive⟩
  · refine .inl ⟨_, ?_, ⟨hrest.opened, hrest.arrives⟩, hw', rfl, hmem⟩
    simp only [exchange, hbreaks, hsend, hreceive, hok, ne_eq, not_true, if_false, Bool.false_eq_true]
  · exact .inr ⟨hfail, { conn with
      fdbuf := rp, sent := conn.sent ++ request.toString, writes := writes, lastResult := .eofOrError },
      by simp only [exchange, hbreaks, hsend, hreceive, Bool.false_eq_true, if_false], rfl⟩

end Connection

/-! ## Reading comes to an end -/

/-- What the `read` calls to come can still be good for. -/
def Rio.left (rp : Rio) : Nat := rp.unread.length + (rp.reads.map fun read => read.bytes.length + 1).sum

theorem rioRead_left : ∀ (unread : Str) (reads : List Read),
    (rioRead 1 unread reads).2.left ≤ (Rio.mk unread reads).left ∧
      ∀ c cs, (rioRead 1 unread reads).1 = some (c :: cs) →
        (rioRead 1 unread reads).2.left < (Rio.mk unread reads).left
  | c :: cs, reads => by simp [rioRead, Rio.left]
  | [], [] => by simp [rioRead, Rio.left]
  | [], .failed :: reads => by simp [rioRead, Rio.left]
  | [], .chunk bytes _ _ :: reads => by
    have hlt : (rioRead 1 [] (.chunk bytes ‹_› ‹_› :: reads)).2.left <
        (Rio.mk [] (.chunk bytes ‹_› ‹_› :: reads)).left := by
      simp only [rioRead, Rio.left, Read.bytes, List.map_cons, List.sum_cons, List.length_nil, List.length_drop]
      omega
    exact ⟨Nat.le_of_lt hlt, fun _ _ _ => hlt⟩
  | [], .interrupted :: reads => by
    obtain ⟨h1, h2⟩ := rioRead_left [] reads
    have hlt : (Rio.mk [] reads).left < (Rio.mk [] (.interrupted :: reads)).left := by
      simp [Rio.left]
    exact ⟨Nat.le_of_lt (Nat.lt_of_le_of_lt h1 hlt), fun c cs h => Nat.lt_trans (h2 c cs h) hlt⟩

theorem readlineLoop_left (room : Nat) (line : Str) (rp : Rio) :
    (readlineLoop room line rp).2.left ≤ rp.left ∧
      ∀ buf, (readlineLoop room line rp).1 = some buf → buf ≠ line → (readlineLoop room line rp).2.left < rp.left := by
  induction room generalizing line rp with
  | zero => exact ⟨Nat.le_refl _, fun buf h hne => absurd (Option.some.inj h).symm hne⟩
  | succ room ih =>
    obtain ⟨hle, hlt⟩ := rioRead_left rp.unread rp.reads
    change _ ≤ rp.left at hle
    change ∀ c cs, _ → _ < rp.left at hlt
    rw [readlineLoop]
    rcases hread : rioRead 1 rp.unread rp.reads with ⟨_ | _ | ⟨c, cs⟩, rp'⟩
    · rw [hread] at hle
      exact ⟨hle, fun buf h => absurd h.symm (Option.some_ne_none buf)⟩
    · rw [hread] at hle
      exact ⟨hle, fun buf h hne => absurd (Option.some.inj h).symm hne⟩
    · rw [hread] at hle hlt
      have hlt' := hlt c cs rfl
      by_cases hnewline : c = newline
      · simp only [if_pos hnewline]
        exact ⟨hle, fun _ _ _ => hlt'⟩
      · simp only [if_neg hnewline]
        have hrec := (ih (line ++ [c]) rp').1
        exact ⟨Nat.le_trans hrec hle, fun _ _ _ => Nat.lt_of_le_of_lt hrec hlt'⟩

namespace Connection

/-- Every message that is received uses up some of it. -/
theorem receive_left {conn conn' : Connection} {msg m : Message} (h : conn.receive msg = (true, m, conn')) :
    conn'.fdbuf.left < conn.fdbuf.left := by
  unfold receive at h
  split at h
  · split at h
    · cases h
    · cases h
    · rename_i buf rp hne hread
      split at h
      · cases h
      · cases h
        have hleft := (readlineLoop_left (Message.maxLen - 1) [] conn.fdbuf).2
        change ∀ b, (rioReadlineb conn.fdbuf Message.maxLen).1 = some b → _ →
          (rioReadlineb conn.fdbuf Message.maxLen).2.left < _ at hleft
        rw [hread] at hleft
        exact hleft buf rfl hne
  · cases h

end Connection

end CsfAssignments.Chat
