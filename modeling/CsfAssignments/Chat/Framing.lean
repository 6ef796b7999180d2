import CsfAssignments.Chat.Connection
/-!
# Framing: one `receive`, one line

`message.h:12-16` promises that an encoded message has at most `MAX_LEN` = 255 characters with its
newline, the NUL not counted. `receive` hands 255 to `rio_readlineb` (`connection.cpp:77`), which
counts the NUL: a line of more than 254 bytes is cut, and what is left of it is the next line.

`oneLineEach_iff` and `roundTrip_iff` say exactly when this shows. Both are inductions over the
lines on top of one call, `receive_line` and `receive_cut`.
-/

namespace CsfAssignments.Chat

open Lines (takeLine takeLine_line takeLine_long unlines)

/-! ## Legal messages -/

/-- What the protocol lets a message be. -/
structure Legal (msg : Message) : Prop where
  tag_colon : colon ∉ msg.tag
  tag_newline : newline ∉ msg.tag
  tag_nul : (0 : UInt8) ∉ msg.tag
  data_newline : newline ∉ msg.data
  data_nul : (0 : UInt8) ∉ msg.data
  data_end : msg.data.getLast? ≠ some carriageReturn
  length : msg.toString.length ≤ Message.maxLen

/-- The encoding without its newline. -/
def encoded (msg : Message) : Str := msg.tag ++ colon :: msg.data

theorem toString_eq (msg : Message) : msg.toString = encoded msg ++ [newline] := by
  simp [Message.toString, encoded]

theorem Legal.newline_not_mem {m : Message} (h : Legal m) : newline ∉ encoded m := by
  simp [encoded, h.tag_newline, h.data_newline]
  decide

theorem Legal.nul_not_mem {m : Message} (h : Legal m) : (0 : UInt8) ∉ encoded m := by
  simp [encoded, h.tag_nul, h.data_nul]
  decide

/-- A message whose encoding is as long as it may be. -/
def longestMessage : Message := ⟨tagSendall, List.replicate 246 120⟩

theorem longestMessage_legal : Legal longestMessage where
  tag_colon := by decide
  tag_newline := by decide
  tag_nul := by decide
  data_newline h := absurd (List.eq_of_mem_replicate h) (by decide)
  data_nul h := absurd (List.eq_of_mem_replicate h) (by decide)
  data_end h := absurd (List.eq_of_mem_replicate (List.mem_of_getLast? h)) (by decide)
  length := by
    simp only [longestMessage, Message.toString, List.length_append, List.length_replicate]
    decide

theorem length_longestMessage : (encoded longestMessage).length = 254 := by
  simp only [longestMessage, encoded, List.length_append, List.length_cons, List.length_replicate]
  decide

namespace Connection

/-! ## One call -/

variable {conn : Connection} {line rest : Str}

/-- A line that fits is received whole. -/
theorem receive_line (h : conn.Readable) (hs : conn.stream = line ++ newline :: rest)
    (hn : newline ∉ line) (hfit : line.length + 1 ≤ 254) (msg : Message) :
    ∃ conn', conn'.Readable ∧ conn'.stream = rest ∧
      conn.receive msg = ((answer (line ++ [newline]) msg).1, (answer (line ++ [newline]) msg).2.1,
        conn') ∧ conn'.lastResult = (answer (line ++ [newline]) msg).2.2 := by
  obtain ⟨conn', h1, h2, h3, h4⟩ := receive_spec h msg
  rw [hs, takeLine_line hn (by omega)] at h2 h3 h4
  exact ⟨conn', h1, h2, h3, h4⟩

/-- Of a longer line, 254 bytes are received and the rest stays. -/
theorem receive_cut (h : conn.Readable) (hs : conn.stream = line ++ newline :: rest)
    (hn : newline ∉ line) (hcut : ¬ line.length + 1 ≤ 254) (msg : Message) :
    ∃ conn', conn'.Readable ∧ conn'.stream = line.drop 254 ++ newline :: rest ∧
      conn.receive msg = ((answer (line.take 254) msg).1, (answer (line.take 254) msg).2.1,
        conn') ∧ conn'.lastResult = (answer (line.take 254) msg).2.2 := by
  obtain ⟨conn', h1, h2, h3, h4⟩ := receive_spec h msg
  rw [hs, takeLine_long hn (by omega)] at h2 h3 h4
  exact ⟨conn', h1, h2, h3, h4⟩

/-- At the end of the stream. -/
theorem receive_end (h : conn.Readable) (hs : conn.stream = []) (msg : Message) :
    ∃ conn', conn'.Readable ∧ conn'.stream = [] ∧ conn.receive msg = (false, msg, conn') ∧
      conn'.lastResult = .eofOrError := by
  obtain ⟨conn', h1, h2, h3, h4⟩ := receive_spec h msg
  rw [hs, Lines.takeLine_nil] at h2 h3 h4
  exact ⟨conn', h1, h2, h3, h4⟩

theorem answer_line (h0 : (0 : UInt8) ∉ line) (msg : Message) :
    answer (line ++ [newline]) msg =
      match Message.ofLine (line ++ [newline]) with
      | some m => (true, m, .success)
      | none => (false, msg, .invalidMsg) := by
  have h0' : (0 : UInt8) ∉ line ++ [newline] := by simpa [newline] using h0
  rw [answer, if_neg (by simp), cString_eq h0']
  cases Message.ofLine (line ++ [newline]) <;> rfl

/-! ## Lines of any kind -/

/-- `n` more calls return false with `EOF_OR_ERROR` and leave `msg` alone. -/
def AtEnd : Nat → Connection → Message → Prop
  | 0, _, _ => True
  | n + 1, conn, msg =>
    (conn.receive msg).1 = false ∧ (conn.receive msg).2.1 = msg ∧
      (conn.receive msg).2.2.lastResult = .eofOrError ∧ AtEnd n (conn.receive msg).2.2 msg

/-- Each call consumes one line, newline included, and answers that line. -/
def OneLineEach : List Str → Connection → Message → Prop
  | [], conn, msg => ∀ n, AtEnd n conn msg
  | line :: lines, conn, msg =>
    (conn.receive msg).2.2.stream = unlines newline lines ∧
      ((conn.receive msg).1, (conn.receive msg).2.1, (conn.receive msg).2.2.lastResult) =
        (match Message.ofLine (line ++ [newline]) with
        | some m => (true, m, .success)
        | none => (false, msg, .invalidMsg)) ∧
      OneLineEach lines (conn.receive msg).2.2 (conn.receive msg).2.1

theorem atEnd (n : Nat) (h : conn.Readable) (hs : conn.stream = []) (msg : Message) :
    AtEnd n conn msg := by
  induction n generalizing conn with
  | zero => trivial
  | succ n ih =>
    obtain ⟨conn', h1, h2, h3, h4⟩ := receive_end h hs msg
    simp only [AtEnd, h3, h4, true_and]
    exact ih h1 h2

/-- A line that does not fit is not consumed. -/
theorem not_oneLineEach {lines : List Str} (h : conn.Readable)
    (hs : conn.stream = line ++ newline :: unlines newline lines) (hn : newline ∉ line)
    (hcut : ¬ line.length + 1 ≤ 254) (msg : Message) : ¬ OneLineEach (line :: lines) conn msg := by
  obtain ⟨conn', h1, h2, h3, -⟩ := receive_cut h hs hn hcut msg
  simp only [OneLineEach, h3, h2]
  rintro ⟨hlen, -⟩
  have := congrArg List.length hlen
  simp at this
  omega

/-- **One receive, one line**: it holds exactly of streams whose lines have at most 254 bytes with
their newline. -/
theorem oneLineEach_iff {lines : List Str} (h : conn.Readable)
    (hs : conn.stream = unlines newline lines) (hn : ∀ line ∈ lines, newline ∉ line)
    (h0 : ∀ line ∈ lines, (0 : UInt8) ∉ line) (msg : Message) :
    OneLineEach lines conn msg ↔ ∀ line ∈ lines, line.length + 1 ≤ 254 := by
  induction lines generalizing conn msg with
  | nil =>
    simp only [OneLineEach, List.not_mem_nil, false_imp_iff, implies_true, iff_true]
    exact fun n => atEnd n h hs msg
  | cons line lines ih =>
    simp only [List.mem_cons, forall_eq_or_imp] at hn h0 ⊢
    rw [Lines.unlines_cons] at hs
    by_cases hfit : line.length + 1 ≤ 254
    · obtain ⟨conn', h1, h2, h3, h4⟩ := receive_line h hs hn.1 hfit msg
      simp only [OneLineEach, h3, h4, h2, answer_line h0.1, true_and, hfit]
      exact ih h1 h2 hn.2 h0.2 _
    · simp [hfit, not_oneLineEach h hs hn.1 hfit msg]

/-- An open connection that gets its whole stream in one `read`. -/
def ofChunk (bytes : Str) (nonempty : bytes ≠ []) (fits : bytes.length ≤ rioBufsize) : Connection :=
  ⟨true, ⟨[], [.chunk bytes nonempty fits]⟩, [], [], .success⟩

theorem readable_ofChunk {bytes : Str} (nonempty : bytes ≠ [])
    (fits : bytes.length ≤ rioBufsize) : (ofChunk bytes nonempty fits).Readable :=
  ⟨rfl, by simp [ofChunk, Rio.Reliable]⟩

theorem stream_ofChunk {bytes : Str} (nonempty : bytes ≠ []) (fits : bytes.length ≤ rioBufsize) :
    (ofChunk bytes nonempty fits).stream = bytes := by
  simp [ofChunk, stream, Rio.stream, Read.bytes]

/-- A good line, an empty one and one with no colon. -/
theorem oneLineEach_mixed :
    OneLineEach [str "ok:a", [], str "bad"] (ofChunk (str "ok:a\n\nbad\n") (by decide) (by decide))
      ⟨[], []⟩ :=
  (oneLineEach_iff (readable_ofChunk _ _) (stream_ofChunk _ _) (by decide) (by decide) _).2
    (by decide)

/-- The longest legal line in one chunk. -/
def longestChunk : Connection :=
  ofChunk (encoded longestMessage ++ [newline]) (by simp)
    (by rw [List.length_append, length_longestMessage]; decide)

theorem stream_longestChunk : longestChunk.stream = encoded longestMessage ++ [newline] :=
  stream_ofChunk _ _

theorem readable_longestChunk : longestChunk.Readable := readable_ofChunk _ _

/-- Of the longest legal line, 255 bytes, the newline stays behind. -/
theorem oneLineEach_fails_255 :
    longestChunk.Readable ∧ longestChunk.stream = unlines newline [encoded longestMessage] ∧
      newline ∉ encoded longestMessage ∧ (0 : UInt8) ∉ encoded longestMessage ∧
      ¬ OneLineEach [encoded longestMessage] longestChunk ⟨[], []⟩ := by
  have hn := longestMessage_legal.newline_not_mem
  refine ⟨readable_longestChunk, by simpa using stream_longestChunk, hn,
    longestMessage_legal.nul_not_mem, ?_⟩
  refine not_oneLineEach readable_longestChunk stream_longestChunk hn ?_ _
  rw [length_longestMessage]
  decide

/-! ## Round trip -/

/-- One `send` after the other: whether all return true with `SUCCESS`. -/
def sendAll : Connection → List Message → Bool × Connection
  | conn, [] => (true, conn)
  | conn, msg :: msgs =>
    let (ok, conn) := conn.send msg
    let (oks, conn') := sendAll conn msgs
    (ok && conn.lastResult == .success && oks, conn')

/-- One `receive` for each message returns true with `SUCCESS` and yields it, and no byte is left. -/
def Received : List Message → Connection → Message → Prop
  | [], conn, _ => conn.stream = []
  | m :: ms, conn, msg =>
    (conn.receive msg).1 = true ∧ (conn.receive msg).2.2.lastResult = .success ∧
      (conn.receive msg).2.1 = m ∧ Received ms (conn.receive msg).2.2 m

theorem sendAll_spec (msgs : List Message) (h : conn.Writable) :
    (conn.sendAll msgs).1 = true ∧
      (conn.sendAll msgs).2.sent = conn.sent ++ unlines newline (msgs.map encoded) := by
  induction msgs generalizing conn with
  | nil => simp [sendAll]
  | cons msg msgs ih =>
    obtain ⟨conn', h1, h2, h3, h4⟩ := send_spec h msg
    obtain ⟨ih1, ih2⟩ := ih h2
    simp [sendAll, h1, h4, ih1, ih2, h3, toString_eq]

section
variable {m : Message}

/-- With or without its newline, an encoding decodes to the message. -/
theorem answer_encoded (h : Legal m) (msg : Message) :
    answer (encoded m ++ [newline]) msg = (true, m, .success) ∧
      answer (encoded m) msg = (true, m, .success) := by
  constructor
  · rw [answer_line h.nul_not_mem]
    simp [encoded, ofLine_append h.tag_colon, stripend_newline h.data_end]
  · rw [answer, if_neg (by simp [encoded]), cString_eq h.nul_not_mem]
    simp [encoded, ofLine_append h.tag_colon, stripend_of_ne h.data_newline h.data_end]

/-- An encoding of 255 bytes is received, but its newline stays, and is the next line. -/
theorem not_received {ms : List Message} (h : Legal m) (hr : conn.Readable)
    (hs : conn.stream = encoded m ++ newline :: rest) (hcut : ¬ (encoded m).length + 1 ≤ 254)
    (msg : Message) : ¬ Received (m :: ms) conn msg := by
  have hlen : (encoded m).length = 254 := by
    have := h.length
    rw [toString_eq, List.length_append, List.length_singleton] at this
    change _ ≤ 255 at this
    omega
  obtain ⟨conn', h1, h2, h3, -⟩ := receive_cut hr hs h.newline_not_mem hcut msg
  rw [List.take_of_length_le (by omega), (answer_encoded h msg).2] at h3
  rw [List.drop_of_length_le (by omega), List.nil_append] at h2
  simp only [Received, h3]
  rintro ⟨-, -, -, hrest⟩
  cases ms with
  | nil => simp [Received, h2] at hrest
  | cons m' ms =>
    have hempty : conn'.stream = [] ++ newline :: rest := by simpa using h2
    obtain ⟨conn'', -, -, h6, -⟩ := receive_line h1 hempty (by simp) (by simp) m
    have hbad : answer [newline] m = (false, m, .invalidMsg) := rfl
    simp [Received, h6, hbad] at hrest

end

/-- **Round trip**: legal messages arrive as they were sent exactly when no encoding has more than
254 bytes, one less than the protocol allows. -/
theorem roundTrip_iff {msgs : List Message} {sender receiver : Connection}
    (hlegal : ∀ m ∈ msgs, Legal m) (hw : sender.Writable) (hr : receiver.Readable)
    (hwire : (sender.sendAll msgs).2.sent = sender.sent ++ receiver.stream) (msg : Message) :
    (sender.sendAll msgs).1 = true ∧ Received msgs receiver msg ↔
      ∀ m ∈ msgs, m.toString.length ≤ 254 := by
  obtain ⟨hok, hsent⟩ := sendAll_spec msgs hw
  have hstream : receiver.stream = unlines newline (msgs.map encoded) :=
    List.append_cancel_left (hwire.symm.trans hsent)
  simp only [hok, true_and]
  clear hwire hsent hok
  induction msgs generalizing receiver msg with
  | nil => simpa [Received] using hstream
  | cons m ms ih =>
    simp only [List.mem_cons, forall_eq_or_imp] at hlegal ⊢
    simp only [List.map_cons, Lines.unlines_cons] at hstream
    have hlen : m.toString.length = (encoded m).length + 1 := by simp [toString_eq]
    by_cases hfit : (encoded m).length + 1 ≤ 254
    · obtain ⟨conn', h1, h2, h3, h4⟩ := receive_line hr hstream hlegal.1.newline_not_mem hfit msg
      rw [(answer_encoded hlegal.1 msg).1] at h3 h4
      simp only [Received, h3, h4, true_and, hlen, hfit]
      exact ih hlegal.2 h1 m h2
    · simp [hlen, hfit, not_received hlegal.1 hr hstream hfit msg]

/-- Two messages, the second with a colon and a carriage return inside, in two chunks with an
interruption between them. -/
theorem roundTrip_two :
    let msgs : List Message := [⟨tagJoin, str "lobby"⟩, ⟨tagSendall, str "a\r:b"⟩]
    let sender : Connection := ⟨true, ⟨[], []⟩, [.accepted 2, .interrupted], [], .success⟩
    let receiver : Connection := ⟨true, ⟨[], [.chunk (str "join:lob") (by decide) (by decide),
      .interrupted, .chunk (str "by\nsendall:a\r:b\n") (by decide) (by decide)]⟩, [], [], .success⟩
    (sender.sendAll msgs).1 = true ∧ Received msgs receiver ⟨[], []⟩ :=
  (roundTrip_iff
    (by
      simp only [List.mem_cons, List.not_mem_nil, or_false, forall_eq_or_imp, forall_eq]
      constructor <;> constructor <;> decide)
    ⟨rfl, ⟨by simp, by simp⟩⟩ ⟨rfl, by simp [Rio.Reliable]⟩ (by decide) _).2 (by decide)

/-- An open connection with nothing to read and a kernel that takes every write whole. -/
def idle : Connection := ⟨true, ⟨[], []⟩, [], [], .success⟩

/-- A legal message of 255 bytes leaves its newline in the stream. -/
theorem roundTrip_fails_255 :
    Legal longestMessage ∧ idle.Writable ∧ longestChunk.Readable ∧
      (idle.sendAll [longestMessage]).2.sent = idle.sent ++ longestChunk.stream ∧
      ¬ ((idle.sendAll [longestMessage]).1 = true ∧
        Received [longestMessage] longestChunk ⟨[], []⟩) := by
  have hw : idle.Writable := ⟨rfl, ⟨by simp [idle], by simp [idle]⟩⟩
  refine ⟨longestMessage_legal, hw, readable_longestChunk, ?_, ?_⟩
  · simp [(sendAll_spec [longestMessage] hw).2, stream_longestChunk]
  · rintro ⟨-, hrec⟩
    refine not_received longestMessage_legal readable_longestChunk stream_longestChunk ?_ _ hrec
    rw [length_longestMessage]
    decide

end Connection

end CsfAssignments.Chat
