import CsfAssignments.Chat.Delivery
import CsfAssignments.Chat.Session
/-!
# The receiver (`csf_assign05/receiver.cpp`)

| here | there |
| --- | --- |
| `receiverMain`        | `main`: `connect` is what `conn.connect` makes of the host and the port |
| `Receiver.session`    | `:25-53`, from the login on |
| `Receiver.deliveries` | the loop (`:57-72`), which only an error ends |
| `Receiver.printed`    | `std::cout << sender_name << ": " << message << std::endl` (`:69`) |

`receiverMain_prints` is about a whole run: of what has been broadcast to the receiver everything is printed, once
and in order, or all that came in before a `read` failed.
-/

namespace CsfAssignments.Chat

open Lines (unlines)

namespace Receiver

def printed (line : Str × Str) : Str := endl (line.1 ++ str ": " ++ line.2)

/-- The loop, behind what is on the two streams. -/
def deliveries (conn : Connection) (msg : Message) (stdout stderr : Str) : Exit :=
  match _ : conn.receive msg with
  | (false, _, conn) => ⟨some (-1), stdout, stderr ++ endl receiveError, some conn⟩
  | (true, msg, conn') =>
    match print msg with
    | .ok line => deliveries conn' msg (stdout ++ printed line) stderr
    | .error text => deliveries conn' msg stdout (stderr ++ text)
termination_by conn.fdbuf.left
decreasing_by
  · exact Connection.receive_left ‹_›
  · exact Connection.receive_left ‹_›

def session (conn : Connection) (username roomName : Str) : Exit :=
  match conn.exchange ⟨[], []⟩ (.ofData tagRlogin username) (str "Receiver login failed to send!") with
  | .killed conn => ⟨none, [], [], some conn⟩
  | .failed error _ conn => ⟨some (-1), [], endl error, some conn⟩
  | .granted msg conn =>
    match conn.exchange msg (.ofData tagJoin roomName) (str "Join room request failed to send!") with
    | .killed conn => ⟨none, [], [], some conn⟩
    | .failed error _ conn => ⟨some (-1), [], endl error, some conn⟩
    | .granted msg conn => deliveries conn msg [] []

end Receiver

def receiverMain (argv : List Str) (connect : Str → Int → Connection) : Option Exit :=
  match argv with
  | [_, serverHostname, port, username, roomName] =>
    (stoi port).map fun serverPort => Receiver.session (connect serverHostname serverPort) username roomName
  | _ => some ⟨some 1, [], endl (str "Usage: ./receiver [server_address] [port] [username] [room]"), none⟩

/-! ## What is broadcast -/

structure Broadcast where
  roomName : Str
  senderUsername : Str
  messageText : Str

namespace Broadcast

def message (b : Broadcast) : Message := Room.broadcastMessage b.roomName b.senderUsername b.messageText

def line (b : Broadcast) : Str := Receiver.printed (b.senderUsername, b.messageText)

/-- What a line of the protocol can carry. -/
structure Deliverable (b : Broadcast) : Prop where
  colons : colon ∉ b.roomName ∧ colon ∉ b.senderUsername
  newlines : newline ∉ b.roomName ∧ newline ∉ b.senderUsername ∧ newline ∉ b.messageText
  nuls : (0 : UInt8) ∉ b.roomName ∧ (0 : UInt8) ∉ b.senderUsername ∧ (0 : UInt8) ∉ b.messageText
  ending : b.messageText.getLast? ≠ some carriageReturn
  length : b.message.toString.length ≤ 254

variable {b : Broadcast}

theorem Deliverable.message_eq (h : b.Deliverable) :
    b.message = ⟨tagDelivery, b.roomName ++ colon :: (b.senderUsername ++ colon :: b.messageText)⟩ := by
  have hdata := (broadcast_data b.roomName b.senderUsername h.newlines.2.2 h.ending).1
  rw [← hdata]
  rfl

theorem Deliverable.legal (h : b.Deliverable) : Legal b.message := by
  have hlast := (broadcast_data b.roomName b.senderUsername h.newlines.2.2 h.ending).2
  have hlength := h.length
  rw [h.message_eq] at hlength ⊢
  exact {
    tag_colon := show colon ∉ tagDelivery by decide
    tag_newline := show newline ∉ tagDelivery by decide
    tag_nul := show (0 : UInt8) ∉ tagDelivery by decide
    data_newline := by
      simp [h.newlines]
      decide
    data_nul := by
      simp [h.nuls]
      decide
    data_end := hlast
    length := Nat.le_succ_of_le hlength }

theorem Deliverable.print (h : b.Deliverable) :
    Receiver.print b.message = .ok (b.senderUsername, b.messageText) := by
  rw [h.message_eq]
  simp only [Receiver.print, if_true, after_append h.colons.1, before_append h.colons.2,
    after_append h.colons.2]

end Broadcast

/-! ## A run -/

namespace Receiver

open Connection

variable {conn conn' : Connection} {msg m : Message} {stdout stderr : Str}

theorem deliveries_end (h : conn.receive msg = (false, m, conn')) :
    deliveries conn msg stdout stderr = ⟨some (-1), stdout, stderr ++ endl receiveError, some conn'⟩ := by
  rw [deliveries]
  split
  · rename_i heq
    rw [h] at heq
    cases heq
    rfl
  · rename_i heq
    rw [h] at heq
    cases heq

theorem deliveries_line {line : Str × Str} (h : conn.receive msg = (true, m, conn')) (hprint : print m = .ok line) :
    deliveries conn msg stdout stderr = deliveries conn' m (stdout ++ printed line) stderr := by
  rw [deliveries]
  split
  · rename_i heq
    rw [h] at heq
    cases heq
  · rename_i heq
    rw [h] at heq
    cases heq
    rw [hprint]

/-- **The loop.** -/
theorem deliveries_prints {broadcasts : List Broadcast} (hdel : ∀ b ∈ broadcasts, b.Deliverable)
    (h : conn.Hears (broadcasts.flatMap fun b => b.message.toString)) (msg : Message) (stdout stderr : Str) :
    ∃ k ≤ broadcasts.length, (Read.failed ∉ conn.fdbuf.reads → k = broadcasts.length) ∧ ∃ conn',
      deliveries conn msg stdout stderr = ⟨some (-1), stdout ++ (broadcasts.take k).flatMap Broadcast.line,
        stderr ++ endl receiveError, some conn'⟩ ∧ conn'.sent = conn.sent := by
  induction broadcasts generalizing conn msg stdout with
  | nil =>
    obtain ⟨rp, hend⟩ := receive_silence h msg
    exact ⟨0, Nat.le_refl _, fun _ => rfl, { conn with fdbuf := rp, lastResult := .eofOrError },
      by simp [deliveries_end hend], rfl⟩
  | cons b broadcasts ih =>
    simp only [List.mem_cons, forall_eq_or_imp] at hdel
    rw [List.flatMap_cons] at h
    rcases receive_message h hdel.1.legal hdel.1.length msg with ⟨rp, hline, hmem, hrest⟩ | ⟨hfail, rp, hend⟩
    · have hhears : Hears { conn with fdbuf := rp, lastResult := .success }
          (broadcasts.flatMap fun b => b.message.toString) := ⟨hrest.opened, hrest.arrives⟩
      obtain ⟨k, hk, hall, conn', hexit, hsent⟩ := ih hdel.2 hhears b.message (stdout ++ b.line)
      refine ⟨k + 1, Nat.succ_le_succ hk, fun hok => ?_, conn', ?_, hsent⟩
      · rw [hall fun hf => hok (hmem.1 hf)]
        rfl
      · rw [deliveries_line hline hdel.1.print]
        rw [List.take_succ_cons, List.flatMap_cons, ← List.append_assoc]
        exact hexit
    · exact ⟨0, Nat.zero_le _, fun hok => absurd hfail hok, { conn with fdbuf := rp, lastResult := .eofOrError },
        by simp [deliveries_end hend], rfl⟩

/-- **A session** with a server that lets the receiver in. -/
theorem session_prints {ok₁ ok₂ : Message} {broadcasts : List Broadcast}
    (hok : ∀ m ∈ [ok₁, ok₂], m.tag = tagOk ∧ Legal m ∧ m.toString.length ≤ 254)
    (hdel : ∀ b ∈ broadcasts, b.Deliverable) (hw : Intact conn.writes)
    (h : conn.Hears (ok₁.toString ++ (ok₂.toString ++ broadcasts.flatMap fun b => b.message.toString)))
    (username roomName : Str) :
    ∃ k ≤ broadcasts.length, (Read.failed ∉ conn.fdbuf.reads → k = broadcasts.length) ∧ ∃ conn',
      session conn username roomName =
        ⟨some (-1), (broadcasts.take k).flatMap Broadcast.line, endl receiveError, some conn'⟩ ∧
      (Read.failed ∉ conn.fdbuf.reads → conn'.sent = conn.sent ++ (Message.ofData tagRlogin username).toString ++
        (Message.ofData tagJoin roomName).toString) := by
  simp only [List.mem_cons, List.not_mem_nil, or_false, forall_eq_or_imp, forall_eq] at hok
  obtain ⟨⟨htag₁, hlegal₁, hlen₁⟩, htag₂, hlegal₂, hlen₂⟩ := hok
  have hlost (conn' : Connection) (hfail : Read.failed ∈ conn.fdbuf.reads)
      (hexit : session conn username roomName = ⟨some (-1), [], endl receiveError, some conn'⟩) :
      ∃ k ≤ broadcasts.length, (Read.failed ∉ conn.fdbuf.reads → k = broadcasts.length) ∧ ∃ conn',
        session conn username roomName =
          ⟨some (-1), (broadcasts.take k).flatMap Broadcast.line, endl receiveError, some conn'⟩ ∧
        (Read.failed ∉ conn.fdbuf.reads → conn'.sent = conn.sent ++
          (Message.ofData tagRlogin username).toString ++ (Message.ofData tagJoin roomName).toString) :=
    ⟨0, Nat.zero_le _, fun hok => absurd hfail hok, conn', hexit, fun hok => absurd hfail hok⟩
  rcases exchange_granted h hlegal₁ hlen₁ htag₁ hw ⟨[], []⟩ (.ofData tagRlogin username)
      (str "Receiver login failed to send!") with ⟨conn₁, hlogin, h₁, hw₁, hsent₁, hmem₁⟩ | ⟨hfail, conn₁, hlogin, -⟩
  · rcases exchange_granted h₁ hlegal₂ hlen₂ htag₂ hw₁ ok₁ (.ofData tagJoin roomName)
        (str "Join room request failed to send!") with ⟨conn₂, hjoin, h₂, -, hsent₂, hmem₂⟩ | ⟨hfail, conn₂, hjoin, -⟩
    · obtain ⟨k, hk, hall, conn', hexit, hsent⟩ := deliveries_prints hdel h₂ ok₂ [] []
      refine ⟨k, hk, fun hok => hall fun hf => hok (hmem₁.1 (hmem₂.1 hf)), conn', ?_, fun _ => ?_⟩
      · simp only [session, hlogin, hjoin]
        exact hexit
      · rw [hsent, hsent₂, hsent₁]
    · exact hlost conn₂ (hmem₁.1 hfail) (by simp only [session, hlogin, hjoin])
  · exact hlost conn₁ hfail (by simp only [session, hlogin])

end Receiver

/-- **Delivery, from end to end**: a server that sends the receiver two acknowledgements and then what has been
broadcast. However the kernel chops the stream, the receiver prints every broadcast once and in order and
leaves with -1 when the server closes; when a `read` fails, a first part of them is printed. -/
theorem receiverMain_prints {ok₁ ok₂ : Message} {broadcasts : List Broadcast} {server conn : Connection}
    {wire : Str} {name serverHostname port username roomName : Str} {serverPort : Int}
    {connect : Str → Int → Connection}
    (hok : ∀ m ∈ [ok₁, ok₂], m.tag = tagOk ∧ Legal m ∧ m.toString.length ≤ 254)
    (hdel : ∀ b ∈ broadcasts, b.Deliverable) (hserver : server.Writable)
    (hwire : (server.sendAll (ok₁ :: ok₂ :: broadcasts.map Broadcast.message)).2.sent = server.sent ++ wire)
    (hport : stoi port = some serverPort) (hconnect : connect serverHostname serverPort = conn)
    (hw : Intact conn.writes) (h : conn.Hears wire) :
    ∃ k ≤ broadcasts.length, (Read.failed ∉ conn.fdbuf.reads → k = broadcasts.length) ∧ ∃ conn',
      receiverMain [name, serverHostname, port, username, roomName] connect =
        some ⟨some (-1), (broadcasts.take k).flatMap Broadcast.line, endl receiveError, some conn'⟩ ∧
      (Read.failed ∉ conn.fdbuf.reads → conn'.sent = conn.sent ++ (Message.ofData tagRlogin username).toString ++
        (Message.ofData tagJoin roomName).toString) := by
  have hsent := (Connection.sendAll_spec (ok₁ :: ok₂ :: broadcasts.map Broadcast.message) hserver).2
  have hstream : wire = ok₁.toString ++ (ok₂.toString ++ broadcasts.flatMap fun b => b.message.toString) := by
    rw [List.append_cancel_left (hwire.symm.trans hsent)]
    simp [unlines, toString_eq, List.flatMap_map]
  rw [hstream] at h
  obtain ⟨k, hk, hall, conn', hexit, hreq⟩ := Receiver.session_prints hok hdel hw h username roomName
  refine ⟨k, hk, hall, conn', ?_, hreq⟩
  simp only [receiverMain, hport, Option.map_some, hconnect, hexit]

def twoBroadcasts : List Broadcast := [⟨str "cs", str "bob", str "a:b"⟩, ⟨str "cs", str "eve", str "hi"⟩]

def twoWire : Str := str "ok:in\nok:there\ndelivery:cs:bob:a:b\ndelivery:cs:eve:hi\n"

/-- They arrive in two chunks, with an interruption between them. -/
def twoConn : Connection :=
  ⟨true, ⟨[], [.chunk (twoWire.take 52) (by decide) (by decide), .interrupted,
    .chunk (twoWire.drop 52) (by decide) (by decide)]⟩, [.accepted 3], [], .success⟩

theorem receiverMain_prints_two :
    ∃ k ≤ twoBroadcasts.length, (Read.failed ∉ twoConn.fdbuf.reads → k = twoBroadcasts.length) ∧ ∃ conn',
      receiverMain [str "./receiver", str "localhost", str "5000", str "amy", str "cs"] (fun _ _ => twoConn) =
        some ⟨some (-1), (twoBroadcasts.take k).flatMap Broadcast.line, endl receiveError, some conn'⟩ ∧
      (Read.failed ∉ twoConn.fdbuf.reads → conn'.sent = twoConn.sent ++
        (Message.ofData tagRlogin (str "amy")).toString ++ (Message.ofData tagJoin (str "cs")).toString) := by
  have hlegal : ∀ data ∈ [str "in", str "there"], Legal ⟨tagOk, data⟩ := by
    intro data hdata
    simp only [List.mem_cons, List.not_mem_nil, or_false] at hdata
    rcases hdata with rfl | rfl <;> constructor <;> decide
  have hdel : ∀ b ∈ twoBroadcasts, b.Deliverable := by
    intro b hb
    simp only [twoBroadcasts, List.mem_cons, List.not_mem_nil, or_false] at hb
    rcases hb with rfl | rfl <;> constructor <;> decide
  have hok : ∀ m ∈ [Message.mk tagOk (str "in"), ⟨tagOk, str "there"⟩],
      m.tag = tagOk ∧ Legal m ∧ m.toString.length ≤ 254 := by
    simp only [List.mem_cons, List.not_mem_nil, or_false, forall_eq_or_imp, forall_eq]
    exact ⟨⟨trivial, hlegal _ (.head _), by decide⟩, trivial, hlegal _ (.tail _ (.head _)), by decide⟩
  have hserver : Connection.idle.Writable := ⟨rfl, by simp [Connection.idle], by simp [Connection.idle]⟩
  have hwire : (Connection.idle.sendAll (⟨tagOk, str "in"⟩ :: ⟨tagOk, str "there"⟩ ::
      twoBroadcasts.map Broadcast.message)).2.sent = Connection.idle.sent ++ twoWire := by decide
  have hhears : twoConn.Hears twoWire := ⟨rfl, [], by decide, fun _ => rfl⟩
  exact receiverMain_prints hok hdel hserver hwire
    (show stoi (str "5000") = some 5000 by decide) rfl ⟨by simp [twoConn], by simp [twoConn]⟩ hhears

end CsfAssignments.Chat
