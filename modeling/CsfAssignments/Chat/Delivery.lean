import CsfAssignments.Chat.Message
/-!
# A message on its way to a receiver (`csf_assign05/room.cpp`, `receiver.cpp`)

| here | there |
| --- | --- |
| `Room.broadcastMessage` | `Room::broadcast_message` (`room.cpp:30-37`): the message that it queues for every member |
| `Receiver.print`        | the body of the delivery loop (`receiver.cpp:61-71`): what goes to `std::cout`, or to `std::cerr` |

The queues between the two (`message_queue.cpp`) are not written yet.
-/

namespace CsfAssignments.Chat

/-- `s.substr(pos)`, where a search has put `pos` behind a character: behind `npos` is 0. -/
def substrAfter (s : Str) : Option Nat → Str
  | none => s
  | some pos => s.drop (pos + 1)

/-- `s.substr(0, pos)`. -/
def substrBefore (s : Str) : Option Nat → Str
  | none => s
  | some pos => s.take pos

def Room.broadcastMessage (roomName senderUsername messageText : Str) : Message :=
  .ofData tagDelivery (roomName ++ [colon] ++ senderUsername ++ [colon] ++ messageText)

/-- The sender's name and the message that are printed; the error is the other line. -/
def Receiver.print (msg : Message) : Except Str (Str × Str) :=
  if msg.tag = tagDelivery then
    let senderInfo := substrAfter msg.data (find msg.data colon)
    let senderName := substrBefore senderInfo (find senderInfo colon)
    let message := substrAfter senderInfo (find senderInfo colon)
    .ok (senderName, message)
  else .error (str "Unexpected message: " ++ msg.toString)

variable {room sender text : Str}

theorem before_append (h : colon ∉ room) (rest : Str) :
    substrBefore (room ++ colon :: rest) (find (room ++ colon :: rest) colon) = room := by
  simp [find_append h, substrBefore]

theorem after_append (h : colon ∉ room) (rest : Str) :
    substrAfter (room ++ colon :: rest) (find (room ++ colon :: rest) colon) = rest := by
  simp [find_append h, substrAfter]

/-- What ends a text ends the data, and nothing is stripped off. -/
theorem broadcast_data (room sender : Str) (hline : newline ∉ text)
    (hcr : text.getLast? ≠ some carriageReturn) :
    (Room.broadcastMessage room sender text).data = room ++ colon :: (sender ++ colon :: text) ∧
      (room ++ colon :: (sender ++ colon :: text)).getLast? ≠ some carriageReturn := by
  have hnl : text.getLast? ≠ some newline := fun h => hline (List.mem_of_getLast? h)
  have hlast : (room ++ colon :: (sender ++ colon :: text)).getLast? = some (text.getLast?.getD colon) := by
    cases h : text.getLast? <;> simp_all [List.getLast?_cons]
  have hne (c : UInt8) (hc : colon ≠ c) (htext : text.getLast? ≠ some c) :
      (room ++ colon :: (sender ++ colon :: text)).getLast? ≠ some c := by
    rw [hlast]
    cases h : text.getLast? with
    | none => simpa using hc
    | some d => simpa [h] using htext
  have hcr' := hne carriageReturn (by decide) hcr
  have happend : room ++ [colon] ++ sender ++ [colon] ++ text =
      room ++ colon :: (sender ++ colon :: text) := by
    simp
  refine ⟨?_, hcr'⟩
  rw [Room.broadcastMessage, Message.ofData, happend, stripend,
    dropEnd_of_ne (hne newline (by decide) hnl), dropEnd_of_ne hcr']

/-- **Delivery** keeps the sender's name and the text. -/
theorem delivery_preserves (hroom : colon ∉ room) (hsender : colon ∉ sender) (hline : newline ∉ text)
    (hcr : text.getLast? ≠ some carriageReturn) :
    ∃ msg, Message.ofLine (Room.broadcastMessage room sender text).toString = some msg ∧
      msg.tag = tagDelivery ∧ Receiver.print msg = .ok (sender, text) := by
  obtain ⟨hdata, hlast⟩ := broadcast_data room sender hline hcr
  have hdecode : Message.ofLine (Room.broadcastMessage room sender text).toString =
      some ⟨tagDelivery, room ++ colon :: (sender ++ colon :: text)⟩ := by
    have htag : colon ∉ (Room.broadcastMessage room sender text).tag := by
      show colon ∉ tagDelivery
      decide
    rw [ofLine_toString htag, hdata, dropEnd_of_ne hlast]
    rfl
  refine ⟨_, hdecode, rfl, ?_⟩
  simp only [Receiver.print, if_true, after_append hroom, before_append hsender, after_append hsender]

/-- A text with colons and a carriage return in it. -/
theorem delivery_preserves_colons :
    ∃ msg, Message.ofLine (Room.broadcastMessage (str "cs") (str "bob") (str ":a:\rb")).toString = some msg ∧
      msg.tag = tagDelivery ∧ Receiver.print msg = .ok (str "bob", str ":a:\rb") :=
  delivery_preserves (by decide) (by decide) (by decide) (by decide)

end CsfAssignments.Chat
