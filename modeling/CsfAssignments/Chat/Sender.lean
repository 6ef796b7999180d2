import CsfAssignments.Chat.Message
/-!
# The sender's command loop (`csf_assign05/sender.cpp:45-159`)

| here | there |
| --- | --- |
| `Reply`              | how a `send`/`receive` pair ends |
| `Sender.exchange`    | the block `send`, `receive`, `msg.tag != TAG_OK`, written out five times (`:71-97`, `:104-115`, `:122-133`, `:141-152`) |
| `Sender.command`     | one round of the loop on the line that `getline` leaves |
| `Turn.quit`          | the `break` of an acknowledged `/quit` |
| `Sender.exchanges`   | the requests sent since the login, with their replies |

`member` is what the server has acknowledged. `agree_iff` compares it with `joined_room`: a `/join`
from inside a room is a LEAVE and a JOIN, and when only the first is granted the flag stays up.
-/

namespace CsfAssignments.Chat

inductive Reply where
  | sendFailed
  | receiveFailed
  | answered (msg : Message)
deriving DecidableEq, Repr

/-- The server acknowledges. -/
def Reply.ok : Reply → Bool
  | .answered msg => msg.tag = tagOk
  | _ => false

/-- What comes back for the `n`-th request after the login. -/
abbrev Server := Nat → Reply

structure Sender where
  joinedRoom : Bool
  exchanges : List (Message × Reply)
  stderr : List Str
deriving DecidableEq, Repr

inductive Turn where
  | prompt (sender : Sender)
  | quit (sender : Sender)
deriving DecidableEq, Repr

namespace Sender

/-- In front of the first prompt. -/
def start : Sender := ⟨false, [], []⟩

/-- One line on `std::cerr`. -/
def complain (s : Sender) (text : Str) : Sender := { s with stderr := s.stderr ++ [text] }

/-- Sends a request and waits for the answer: false stands for the `continue` of each failure. -/
def exchange (server : Server) (s : Sender) (request : Message) (sendError : Str) : Bool × Sender :=
  let reply := server s.exchanges.length
  let s := { s with exchanges := s.exchanges ++ [(request, reply)] }
  match reply with
  | .sendFailed => (false, s.complain sendError)
  | .receiveFailed => (false, s.complain (str "Failed to receive message from server!"))
  | .answered msg => if msg.tag ≠ tagOk then (false, s.complain msg.data) else (true, s)

/-- `sender.cpp:55`. -/
def isJoin (line : Str) : Bool := line.length ≥ 5 ∧ line.take 5 = str "/join"

/-- What follows the first space (`:56-65`), if anything does. -/
def roomName (line : Str) : Option Str :=
  match find line space with
  | none => none
  | some spacePos =>
    if (line.drop (spacePos + 1)).isEmpty then none else some (line.drop (spacePos + 1))

/-- `sender.cpp:83-98`. -/
def join (server : Server) (s : Sender) (room : Str) : Turn :=
  match s.exchange server (.ofData tagJoin room) (str "Join room request failed to send!") with
  | (false, s) => .prompt s
  | (true, s) => .prompt { s with joinedRoom := true }

/-- One round of the loop. -/
def command (server : Server) (s : Sender) (input : Str) : Turn :=
  let line := stripend input
  if isJoin line then
    match roomName line with
    | none => .prompt (s.complain (str "Room name cannot be empty!"))
    | some room =>
      if s.joinedRoom then
        match s.exchange server (.ofData tagLeave []) (str "Leave room request failed to send!") with
        | (false, s) => .prompt s
        | (true, s) => s.join server room
      else s.join server room
  else if line = str "/leave" then
    match s.exchange server (.ofData tagLeave []) (str "Leave room request failed to send!") with
    | (false, s) => .prompt s
    | (true, s) => .prompt { s with joinedRoom := false }
  else if line = str "/quit" then
    match s.exchange server (.ofData tagQuit []) (str "Quit request failed to send!") with
    | (false, s) => .prompt s
    | (true, s) => .quit s
  else if s.joinedRoom then
    match s.exchange server (.ofData tagSendall line) (str "Message to room failed to send!") with
    | (false, s) => .prompt s
    | (true, s) => .prompt s
  else .prompt (s.complain (str "You must use `/join [room_name]` first!"))

/-- The states in which the loop prompts, and those in which it reads each of the lines. -/
def prompts (server : Server) : Sender → List Str → List Sender
  | s, [] => [s]
  | s, line :: lines =>
    s :: match s.command server line with
      | .prompt s' => prompts server s' lines
      | .quit _ => []

def rounds (server : Server) : Sender → List Str → List (Sender × Str)
  | _, [] => []
  | s, line :: lines =>
    (s, line) :: match s.command server line with
      | .prompt s' => rounds server s' lines
      | .quit _ => []

/-! ## Membership -/

/-- One request and its reply. -/
def acknowledge (member : Bool) (exchange : Message × Reply) : Bool :=
  if exchange.2.ok then
    if exchange.1.tag = tagJoin then true
    else if exchange.1.tag = tagLeave then false
    else member
  else member

/-- Whether the server has the sender in a room, as far as it has said. -/
def member (s : Sender) : Bool := s.exchanges.foldl acknowledge false

def Agree (s : Sender) : Prop := s.joinedRoom = s.member

instance (s : Sender) : Decidable s.Agree := inferInstanceAs (Decidable (_ = _))

/-- A `/join` from inside a room whose LEAVE is acknowledged and whose JOIN is not. -/
def Stale (server : Server) (s : Sender) (input : Str) : Prop :=
  s.joinedRoom = true ∧ isJoin (stripend input) = true ∧ (roomName (stripend input)).isSome ∧
    (server s.exchanges.length).ok = true ∧ (server (s.exchanges.length + 1)).ok = false

@[simp] theorem complain_joinedRoom (s : Sender) (text : Str) :
    (s.complain text).joinedRoom = s.joinedRoom := rfl

@[simp] theorem complain_exchanges (s : Sender) (text : Str) :
    (s.complain text).exchanges = s.exchanges := rfl

@[simp] theorem complain_member (s : Sender) (text : Str) : (s.complain text).member = s.member := rfl

/-- **`exchange`**: it logs the reply, reports whether it was ok and leaves the flag alone. -/
theorem exchange_spec (server : Server) (s : Sender) (request : Message) (sendError : Str) :
    ∃ s', s.exchange server request sendError = ((server s.exchanges.length).ok, s') ∧
      s'.joinedRoom = s.joinedRoom ∧
      s'.exchanges = s.exchanges ++ [(request, server s.exchanges.length)] := by
  unfold exchange
  cases hr : server s.exchanges.length with
  | sendFailed => exact ⟨_, rfl, rfl, rfl⟩
  | receiveFailed => exact ⟨_, rfl, rfl, rfl⟩
  | answered msg =>
    by_cases htag : msg.tag = tagOk
    · refine ⟨{ s with exchanges := s.exchanges ++ [(request, Reply.answered msg)] }, ?_, rfl, rfl⟩
      simp [htag, Reply.ok]
    · refine ⟨{ s with exchanges := s.exchanges ++ [(request, Reply.answered msg)] }.complain msg.data,
        ?_, rfl, rfl⟩
      simp [htag, Reply.ok]

theorem member_append {s s' : Sender} {request : Message} {reply : Reply}
    (h : s'.exchanges = s.exchanges ++ [(request, reply)]) :
    s'.member = acknowledge s.member (request, reply) := by
  simp [member, h]

@[simp] theorem acknowledge_join (b : Bool) (room : Str) (reply : Reply) :
    acknowledge b (.ofData tagJoin room, reply) = (reply.ok || b) := by
  cases h : reply.ok <;> simp [acknowledge, h, Message.ofData]

@[simp] theorem acknowledge_leave (b : Bool) (reply : Reply) :
    acknowledge b (.ofData tagLeave [], reply) = (!reply.ok && b) := by
  have hne : tagLeave ≠ tagJoin := by decide
  cases h : reply.ok <;> simp [acknowledge, h, Message.ofData, hne]

/-- Requests of any other kind do not move anybody. -/
theorem acknowledge_other {tag : Str} (hj : tag ≠ tagJoin) (hl : tag ≠ tagLeave) (b : Bool)
    (data : Str) (reply : Reply) : acknowledge b (.ofData tag data, reply) = b := by
  simp [acknowledge, Message.ofData, hj, hl]

theorem join_spec (server : Server) (s : Sender) (room : Str) :
    ∃ s', s.join server room = .prompt s' ∧
      s'.joinedRoom = ((server s.exchanges.length).ok || s.joinedRoom) ∧
      s'.member = ((server s.exchanges.length).ok || s.member) := by
  obtain ⟨s', h1, h2, h3⟩ := exchange_spec server s (.ofData tagJoin room)
    (str "Join room request failed to send!")
  have hm := member_append h3
  rw [acknowledge_join] at hm
  unfold join
  rw [h1]
  cases hr : (server s.exchanges.length).ok with
  | false => exact ⟨s', rfl, by simpa using h2, by simpa [hr] using hm⟩
  | true => exact ⟨{ s' with joinedRoom := true }, rfl, rfl, by simpa [hr, member] using hm⟩

theorem exchanges_length {s s' : Sender} {request : Message} {reply : Reply}
    (h : s'.exchanges = s.exchanges ++ [(request, reply)]) :
    s'.exchanges.length = s.exchanges.length + 1 := by simp [h]

section
variable {server : Server} {s s' : Sender} {input : Str}

theorem not_stale_of_not_joined (h : s.joinedRoom = false) : ¬ Stale server s input := by
  simp [Stale, h]

theorem not_stale_of_not_join (h : isJoin (stripend input) = false) : ¬ Stale server s input := by
  simp [Stale, h]

/-- A `/join` with a room name. -/
theorem join_agree {room : Str} (h : s.Agree) (hj : isJoin (stripend input) = true)
    (hroom : roomName (stripend input) = some room) (hc : s.command server input = .prompt s') :
    s'.Agree ↔ ¬ Stale server s input := by
  simp only [command, hj, hroom, if_true] at hc
  cases hjoined : s.joinedRoom with
  | false =>
    obtain ⟨t, h1, h2, h3⟩ := join_spec server s room
    simp only [hjoined, Bool.false_eq_true, if_false, h1, Turn.prompt.injEq] at hc
    subst hc
    have hm : s.member = false := h.symm.trans hjoined
    simp [Agree, h2, h3, hjoined, hm, not_stale_of_not_joined hjoined]
  | true =>
    obtain ⟨t, h1, h2, h3⟩ := exchange_spec server s (.ofData tagLeave [])
      (str "Leave room request failed to send!")
    have hmem := member_append h3
    rw [acknowledge_leave] at hmem
    have hm : s.member = true := h.symm.trans hjoined
    simp only [hjoined, if_true, h1] at hc
    cases hr : (server s.exchanges.length).ok with
    | false =>
      simp only [hr, Turn.prompt.injEq] at hc
      subst hc
      simp [Agree, Stale, h2, hmem, hjoined, hm, hr]
    | true =>
      obtain ⟨u, h4, h5, h6⟩ := join_spec server t room
      simp only [hr, h4, Turn.prompt.injEq] at hc
      subst hc
      rw [exchanges_length h3] at h5 h6
      simp [Agree, Stale, h2, h5, h6, hmem, hjoined, hr, hj, hroom]

/-- A request of any other kind keeps the agreement, whatever is answered. -/
theorem exchange_agree (server : Server) (h : s.Agree) {tag : Str} (hj : tag ≠ tagJoin) (hl : tag ≠ tagLeave)
    (data sendError : Str) : (s.exchange server (.ofData tag data) sendError).2.Agree := by
  obtain ⟨t, h1, h2, h3⟩ := exchange_spec server s (.ofData tag data) sendError
  have hmem := member_append h3
  rw [acknowledge_other hj hl] at hmem
  rw [h1]
  exact h2.trans (h.trans hmem.symm)

/-- `/leave`: acknowledged, it takes the sender out of the room on both sides. -/
theorem leave_agree (h : s.Agree) (sendError : Str)
    (hc : (match s.exchange server (.ofData tagLeave []) sendError with
      | (false, s) => Turn.prompt s
      | (true, s) => .prompt { s with joinedRoom := false }) = .prompt s') : s'.Agree := by
  obtain ⟨t, h1, h2, h3⟩ := exchange_spec server s (.ofData tagLeave []) sendError
  have hmem := member_append h3
  rw [acknowledge_leave] at hmem
  rw [h1] at hc
  cases hr : (server s.exchanges.length).ok with
  | false =>
    simp only [hr, Turn.prompt.injEq] at hc
    subst hc
    simpa [Agree, h2, hmem, hr] using h
  | true =>
    simp only [hr, Turn.prompt.injEq] at hc
    subst hc
    simpa [Agree, hr, member] using hmem.symm

/-- A line that is not a `/join`. -/
theorem not_join_agree (h : s.Agree) (hj : isJoin (stripend input) = false)
    (hc : s.command server input = .prompt s') : s'.Agree := by
  simp only [command, hj, Bool.false_eq_true, if_false] at hc
  split at hc
  · exact leave_agree h _ hc
  · split at hc
    · -- `/quit`
      have hquit := exchange_agree server h (by decide : tagQuit ≠ tagJoin) (by decide) []
        (str "Quit request failed to send!")
      split at hc
      · rename_i t ht
        rw [ht] at hquit
        simp only [Turn.prompt.injEq] at hc
        exact hc ▸ hquit
      · cases hc
    · split at hc
      · -- text for the room
        have htext := exchange_agree server h (by decide : tagSendall ≠ tagJoin) (by decide)
          (stripend input) (str "Message to room failed to send!")
        split at hc <;>
        · rename_i t ht
          rw [ht] at htext
          simp only [Turn.prompt.injEq] at hc
          exact hc ▸ htext
      · simp only [Turn.prompt.injEq] at hc
        subst hc
        simpa [Agree] using h

/-- **Step**: a round that starts in agreement ends in agreement, unless it is stale. -/
theorem command_agree (h : s.Agree) (hc : s.command server input = .prompt s') :
    s'.Agree ↔ ¬ Stale server s input := by
  cases hj : isJoin (stripend input) with
  | true =>
    cases hroom : roomName (stripend input) with
    | none =>
      simp only [command, hj, hroom, if_true, Turn.prompt.injEq] at hc
      subst hc
      simpa [Agree, Stale, hroom] using h
    | some room => exact join_agree h hj hroom hc
  | false =>
    simp only [not_stale_of_not_join hj, not_false_eq_true, iff_true]
    exact not_join_agree h hj hc

/-- A stale round does not quit. -/
theorem command_ne_quit_of_stale (h : Stale server s input) :
    ∃ s', s.command server input = .prompt s' := by
  obtain ⟨hjoined, hj, hroom, hr, -⟩ := h
  obtain ⟨room, hroom⟩ := Option.isSome_iff_exists.1 hroom
  obtain ⟨t, h1, -, -⟩ := exchange_spec server s (.ofData tagLeave [])
    (str "Leave room request failed to send!")
  obtain ⟨u, h2, -, -⟩ := join_spec server t room
  exact ⟨u, by simp [command, hj, hroom, hjoined, h1, hr, h2]⟩

theorem mem_prompts_head (lines : List Str) : s ∈ prompts server s lines := by
  cases lines <;> simp [prompts]

/-- **Run**: from a state in agreement, the prompts that follow agree exactly when no round is
stale. -/
theorem prompts_agree (h : s.Agree) (lines : List Str) :
    (∀ t ∈ prompts server s lines, t.Agree) ↔
      ∀ t line, (t, line) ∈ rounds server s lines → ¬ Stale server t line := by
  induction lines generalizing s with
  | nil => simp [prompts, rounds, h]
  | cons line lines ih =>
    simp only [prompts, rounds, List.mem_cons, forall_eq_or_imp, h, true_and, Prod.mk.injEq]
    cases hc : s.command server line with
    | quit s' =>
      have hstale : ¬ Stale server s line := by
        intro hs
        obtain ⟨t, ht⟩ := command_ne_quit_of_stale hs
        rw [hc] at ht
        cases ht
      simp only [List.not_mem_nil, false_imp_iff, implies_true, or_false, true_iff]
      rintro t line' ⟨rfl, rfl⟩
      exact hstale
    | prompt s' =>
      have hstep := command_agree h hc
      constructor
      · rintro hall t line' (⟨rfl, rfl⟩ | hmem)
        · exact hstep.1 (hall s' (mem_prompts_head lines))
        · exact (ih (hall s' (mem_prompts_head lines))).1 hall t line' hmem
      · intro hall
        have hs' : s'.Agree := hstep.2 (hall s line (.inl ⟨rfl, rfl⟩))
        exact (ih hs').2 fun t line' hmem => hall t line' (.inr hmem)

end

/-- **Membership**: over any run, the flag agrees with the server at every prompt exactly when no
round is stale. -/
theorem agree_iff (server : Server) (lines : List Str) :
    (∀ s ∈ prompts server start lines, s.Agree) ↔
      ∀ s input, (s, input) ∈ rounds server start lines → ¬ Stale server s input :=
  prompts_agree (show start.Agree from rfl) lines

/-- Join a room, then ask for another that the server refuses. -/
theorem disagree_after_refused_join :
    let server : Server := fun n => .answered ⟨if n < 2 then tagOk else tagErr, []⟩
    let lines := [str "/join a", str "/join b"]
    ∃ s ∈ prompts server start lines, s.joinedRoom = true ∧ s.member = false ∧ ¬ s.Agree := by
  refine ⟨⟨true, [(⟨tagJoin, str "a"⟩, .answered ⟨tagOk, []⟩),
    (⟨tagLeave, []⟩, .answered ⟨tagOk, []⟩), (⟨tagJoin, str "b"⟩, .answered ⟨tagErr, []⟩)], [[]]⟩,
    ?_, rfl, ?_, ?_⟩ <;> decide

end Sender

end CsfAssignments.Chat
