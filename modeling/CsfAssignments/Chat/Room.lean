import CsfAssignments.Chat.Delivery
import CsfAssignments.Lib.Monitor
import Mathlib.Data.Finset.Max
import Mathlib.Tactic.Ring
/-!
# A room and its lock (`csf_assign05/room.cpp`, `room.h`, `guard.h`)

| here | there |
| --- | --- |
| `Room`              | the room name and the members (`room.h:27-31`). `User` is `User *`: a set of pointers is in their order |
| `Room.enqueued`     | the calls of `enqueue` so far, in order; what `enqueue` does is not written yet |
| `Room.Call`         | `add_member`, `remove_member` and `broadcast_message` (`room.cpp:20-37`) |
| `Room.Place`, `Room.step` | a call from the constructor of its `Guard` to the destructor |

Any number of threads call the three at any time. `enqueued_due` says what the members' queues are handed, and
`calls_return` that every call comes to its end.
-/

namespace CsfAssignments.Chat

open Monitor

structure Room (User : Type*) where
  roomName : Str
  members : Finset User
  enqueued : List (User × Message)

namespace Room

inductive Call (User : Type*) where
  | addMember (user : User)
  | removeMember (user : User)
  | broadcastMessage (senderUsername messageText : Str)
deriving DecidableEq

inductive Place (User : Type*) where
  | entered (call : Call User)
  /-- The loop stands at `user`, in front of `enqueue` or behind it. -/
  | visiting (msg : Message) (user : User)
  | visited (msg : Message) (user : User)
  | leaving

/-- `Room(room_name)`. -/
def new (User : Type*) (roomName : Str) : Room User := ⟨roomName, ∅, []⟩

variable {User : Type*} [LinearOrder User]

/-- What the queue of `user` has been handed. -/
def queueOf (room : Room User) (user : User) : List Message :=
  (room.enqueued.filter fun entry => entry.1 = user).map Prod.snd

/-- The first of a set, where an iterator begins; `none` is the end. -/
def first (users : Finset User) : Option User :=
  if h : users.Nonempty then some (users.min' h) else none

def loop (msg : Message) : Option User → Place User
  | some user => .visiting msg user
  | none => .leaving

def step : Place User → Room User → Option (Place User × Room User)
  | .entered (.addMember user), room => some (.leaving, { room with members := insert user room.members })
  | .entered (.removeMember user), room => some (.leaving, { room with members := room.members.erase user })
  | .entered (.broadcastMessage senderUsername messageText), room =>
    let msg := Room.broadcastMessage room.roomName senderUsername messageText
    some (loop msg (first room.members), room)
  | .visiting msg user, room =>
    some (.visited msg user, { room with enqueued := room.enqueued ++ [(user, msg)] })
  | .visited msg user, room => some (loop msg (first (room.members.filter (user < ·))), room)
  | .leaving, _ => none

def code : Code (Call User) (Place User) (Room User) := ⟨.entered, step⟩

/-! ## What a room is for -/

/-- Whether `user` is a member behind the call, if before it is as `member` says. -/
def Call.moves (user : User) (member : Bool) : Call User → Bool
  | .addMember u => member || u = user
  | .removeMember u => member && u ≠ user
  | .broadcastMessage _ _ => member

def Call.message (roomName : Str) : Call User → List Message
  | .broadcastMessage senderUsername messageText =>
    [Room.broadcastMessage roomName senderUsername messageText]
  | _ => []

def isMember (user : User) (calls : List (Call User)) : Bool := calls.foldl (Call.moves user) false

/-- What is broadcast while `user` is a member. -/
def due (roomName : Str) (user : User) : Bool → List (Call User) → List Message
  | _, [] => []
  | member, call :: calls =>
    (if member then call.message roomName else []) ++ due roomName user (call.moves user member) calls

theorem due_append (roomName : Str) (user : User) (member : Bool) (calls : List (Call User)) (call : Call User) :
    due roomName user member (calls ++ [call]) =
      due roomName user member calls ++
        if calls.foldl (Call.moves user) member then call.message roomName else [] := by
  induction calls generalizing member with
  | nil => exact List.append_nil _
  | cons call' calls ih =>
    rw [List.cons_append, due, ih, due, List.append_assoc]
    rfl

theorem due_snoc {roomName : Str} {user : User} {calls : List (Call User)} {members : Finset User}
    (h : decide (user ∈ members) = isMember user calls) (call : Call User) :
    due roomName user false (calls ++ [call]) =
      due roomName user false calls ++ if user ∈ members then call.message roomName else [] := by
  rw [due_append]
  change decide (user ∈ members) = calls.foldl (Call.moves user) false at h
  rw [← h]
  simp only [decide_eq_true_iff]

theorem isMember_append (user : User) (calls : List (Call User)) (call : Call User) :
    isMember user (calls ++ [call]) = call.moves user (isMember user calls) := by
  simp [isMember]

/-! ## One call alone -/

theorem first_eq_none {users : Finset User} (h : first users = none) : users = ∅ := by
  unfold first at h
  split at h
  · cases h
  · exact Finset.not_nonempty_iff_eq_empty.1 ‹_›

theorem first_eq_some {users : Finset User} {user : User} (h : first users = some user) :
    user ∈ users ∧ ∀ u ∈ users, user ≤ u := by
  unfold first at h
  split at h
  · cases h
    exact ⟨Finset.min'_mem _ _, fun u hu => Finset.min'_le _ u hu⟩
  · cases h

/-- `msg` has gone to `done` and to nobody else. -/
structure Sent (msg : Message) (done : Finset User) (room room' : Room User) : Prop where
  name : room'.roomName = room.roomName
  members : room'.members = room.members
  queue : ∀ u, room'.queueOf u = room.queueOf u ++ if u ∈ done then [msg] else []

/-- What a call has done to `room` in its first `n` steps. -/
inductive Partway (room : Room User) : Call User → Nat → Place User → Room User → Prop
  | entered (call : Call User) : Partway room call 0 (.entered call) room
  | added (user : User) :
      Partway room (.addMember user) 1 .leaving { room with members := insert user room.members }
  | removed (user : User) :
      Partway room (.removeMember user) 1 .leaving { room with members := room.members.erase user }
  | visiting {senderUsername messageText : Str} {user : User} {room' : Room User} (hmem : user ∈ room.members)
      (h : Sent (broadcastMessage room.roomName senderUsername messageText) (room.members.filter (· < user))
        room room') :
      Partway room (.broadcastMessage senderUsername messageText)
        (2 * (room.members.filter (· < user)).card + 1)
        (.visiting (broadcastMessage room.roomName senderUsername messageText) user) room'
  | visited {senderUsername messageText : Str} {user : User} {room' : Room User}
      (h : Sent (broadcastMessage room.roomName senderUsername messageText) (room.members.filter (· ≤ user))
        room room') :
      Partway room (.broadcastMessage senderUsername messageText)
        (2 * (room.members.filter (· ≤ user)).card)
        (.visited (broadcastMessage room.roomName senderUsername messageText) user) room'
  | sent {senderUsername messageText : Str} {room' : Room User}
      (h : Sent (broadcastMessage room.roomName senderUsername messageText) room.members room room') :
      Partway room (.broadcastMessage senderUsername messageText) (2 * room.members.card + 1) .leaving room'

/-- Where the loop goes when it is through with `done` and `rest` is what is behind. -/
theorem partway_loop {room room' : Room User} {senderUsername messageText : Str} {done rest : Finset User}
    (hrest : ∀ u, u ∈ rest ↔ u ∈ room.members ∧ u ∉ done) (hsub : done ⊆ room.members)
    (hbefore : ∀ u ∈ done, ∀ v ∈ rest, u < v)
    (h : Sent (broadcastMessage room.roomName senderUsername messageText) done room room') :
    Partway room (.broadcastMessage senderUsername messageText) (2 * done.card + 1)
      (loop (broadcastMessage room.roomName senderUsername messageText) (first rest)) room' := by
  cases hfirst : first rest with
  | none =>
    have hempty := first_eq_none hfirst
    have hall : done = room.members := by
      refine hsub.antisymm fun u hu => ?_
      by_contra hnot
      have := (hrest u).2 ⟨hu, hnot⟩
      simp [hempty] at this
    subst hall
    exact .sent h
  | some user =>
    obtain ⟨hmem, hleast⟩ := first_eq_some hfirst
    have hdone : done = room.members.filter (· < user) := by
      ext u
      rw [Finset.mem_filter]
      constructor
      · intro hu
        exact ⟨hsub hu, hbefore u hu user hmem⟩
      · rintro ⟨hu, hlt⟩
        by_contra hnot
        exact absurd hlt (not_lt.2 (hleast u ((hrest u).2 ⟨hu, hnot⟩)))
    subst hdone
    exact .visiting ((hrest user).1 hmem).1 h

theorem filter_le_eq_insert {users : Finset User} {user : User} (h : user ∈ users) :
    users.filter (· ≤ user) = insert user (users.filter (· < user)) := by
  ext u
  simp only [Finset.mem_filter, Finset.mem_insert, le_iff_lt_or_eq]
  constructor
  · rintro ⟨hu, hlt | heq⟩
    · exact .inr ⟨hu, hlt⟩
    · exact .inl heq
  · rintro (rfl | ⟨hu, hlt⟩)
    · exact ⟨h, .inr rfl⟩
    · exact ⟨hu, .inl hlt⟩

theorem queueOf_enqueue (room : Room User) (user u : User) (msg : Message) :
    queueOf { room with enqueued := room.enqueued ++ [(user, msg)] } u =
      room.queueOf u ++ if u = user then [msg] else [] := by
  by_cases h : u = user
  · simp [queueOf, h]
  · simp [queueOf, h, Ne.symm h]

/-- **Step.** -/
theorem Partway.step {room room' room'' : Room User} {call : Call User} {n : Nat} {p p' : Place User}
    (h : Partway room call n p room') (hstep : Room.step p room' = some (p', room'')) :
    Partway room call (n + 1) p' room'' := by
  cases h with
  | entered =>
    cases call with
    | addMember user =>
      cases hstep
      exact .added user
    | removeMember user =>
      cases hstep
      exact .removed user
    | broadcastMessage senderUsername messageText =>
      cases hstep
      have hnone : Sent (broadcastMessage room.roomName senderUsername messageText) ∅ room room :=
        ⟨rfl, rfl, by simp⟩
      exact partway_loop (by simp) (Finset.empty_subset _) (by simp) hnone
  | added => cases hstep
  | removed => cases hstep
  | @visiting senderUsername messageText user _ hmem h =>
    cases hstep
    have hinsert := filter_le_eq_insert hmem
    have hnot : user ∉ room.members.filter (· < user) := by simp
    have hcard : 2 * (room.members.filter (· < user)).card + 1 + 1 = 2 * (room.members.filter (· ≤ user)).card := by
      rw [hinsert, Finset.card_insert_of_notMem hnot]
      omega
    rw [hcard]
    refine .visited ⟨h.name, h.members, fun u => ?_⟩
    rw [queueOf_enqueue, h.queue, hinsert]
    by_cases hu : u = user
    · subst hu
      simp
    · simp [hu]
  | @visited senderUsername messageText user _ h =>
    cases hstep
    rw [h.members]
    refine partway_loop ?_ (Finset.filter_subset _ _) ?_ h
    · intro u
      simp only [Finset.mem_filter, not_and, not_le]
      exact ⟨fun ⟨hu, hlt⟩ => ⟨hu, fun _ => hlt⟩, fun ⟨hu, hlt⟩ => ⟨hu, hlt hu⟩⟩
    · intro u hu v hv
      exact lt_of_le_of_lt (Finset.mem_filter.1 hu).2 (Finset.mem_filter.1 hv).2
  | sent => cases hstep

theorem partway {room room' : Room User} {call : Call User} {n : Nat} {p : Place User}
    (h : Steps code (.entered call) room n p room') : Partway room call n p room' := by
  induction h with
  | refl => exact .entered call
  | step _ hstep ih => exact ih.step hstep

theorem Partway.steps_le {room room' : Room User} {call : Call User} {n : Nat} {p : Place User}
    (h : Partway room call n p room') : n ≤ 2 * room.members.card + 1 := by
  cases h with
  | entered => exact Nat.zero_le _
  | added => omega
  | removed => omega
  | @visiting _ _ user =>
    have hle := Finset.card_le_card (Finset.filter_subset (· < user) room.members)
    omega
  | @visited _ _ user =>
    have hle := Finset.card_le_card (Finset.filter_subset (· ≤ user) room.members)
    omega
  | sent => exact Nat.le_refl _

/-- A queue has been handed what it is due, or not yet the message of a broadcast. -/
theorem Partway.queue {room room' : Room User} {call : Call User} {n : Nat} {p : Place User}
    (h : Partway room call n p room') (u : User) :
    room'.queueOf u = room.queueOf u ++ (if u ∈ room.members then call.message room.roomName else []) ∨
      u ∈ room.members ∧ room'.queueOf u = room.queueOf u ∧
        ∃ senderUsername messageText, call = .broadcastMessage senderUsername messageText := by
  have hsent {senderUsername messageText : Str} {done : Finset User} {room' : Room User}
      (h : Sent (broadcastMessage room.roomName senderUsername messageText) done room room')
      (hsub : done ⊆ room.members) :
      room'.queueOf u = room.queueOf u ++ (if u ∈ room.members then
          Call.message room.roomName (.broadcastMessage senderUsername messageText : Call User) else []) ∨
        u ∈ room.members ∧ room'.queueOf u = room.queueOf u := by
    have hqueue := h.queue u
    by_cases hdone : u ∈ done
    · rw [if_pos hdone] at hqueue
      rw [if_pos (hsub hdone)]
      exact .inl hqueue
    · rw [if_neg hdone, List.append_nil] at hqueue
      by_cases hmem : u ∈ room.members
      · exact .inr ⟨hmem, hqueue⟩
      · rw [if_neg hmem, List.append_nil]
        exact .inl hqueue
  cases h with
  | entered =>
    cases call with
    | addMember => exact .inl (by simp [Call.message])
    | removeMember => exact .inl (by simp [Call.message])
    | broadcastMessage senderUsername messageText =>
      by_cases hmem : u ∈ room.members
      · exact .inr ⟨hmem, rfl, _, _, rfl⟩
      · exact .inl (by simp [hmem])
  | added => exact .inl (by simp [Call.message, queueOf])
  | removed => exact .inl (by simp [Call.message, queueOf])
  | visiting _ h =>
    exact (hsent h (Finset.filter_subset _ _)).imp_right fun ⟨hmem, hqueue⟩ => ⟨hmem, hqueue, _, _, rfl⟩
  | visited h =>
    exact (hsent h (Finset.filter_subset _ _)).imp_right fun ⟨hmem, hqueue⟩ => ⟨hmem, hqueue, _, _, rfl⟩
  | sent h =>
    exact (hsent h (Finset.Subset.refl _)).imp_right fun ⟨hmem, hqueue⟩ => ⟨hmem, hqueue, _, _, rfl⟩

/-- **A call alone** moves its user, or hands its message to each member once. -/
theorem does_spec {room room' : Room User} {call : Call User} {n : Nat} (h : Does code call room n room') :
    room'.roomName = room.roomName ∧ room'.members.card ≤ room.members.card + 1 ∧
      ∀ u, decide (u ∈ room'.members) = call.moves u (decide (u ∈ room.members)) ∧
        room'.queueOf u = room.queueOf u ++ if u ∈ room.members then call.message room.roomName else [] := by
  obtain ⟨p, hsteps, hend⟩ := h
  cases partway hsteps with
  | entered => cases call <;> cases hend
  | added user =>
    refine ⟨rfl, Finset.card_insert_le _ _, fun u => ⟨?_, ?_⟩⟩
    · simp [Call.moves, Bool.or_comm, eq_comm]
    · simp [Call.message, queueOf]
  | removed user =>
    refine ⟨rfl, Nat.le_succ_of_le Finset.card_erase_le, fun u => ⟨?_, ?_⟩⟩
    · simp [Call.moves, Bool.and_comm, eq_comm]
    · simp [Call.message, queueOf]
  | visiting => cases hend
  | visited => cases hend
  | sent h =>
    refine ⟨h.name, by rw [h.members]; omega, fun u => ⟨?_, h.queue u⟩⟩
    simp [h.members, Call.moves]

theorem steps_succ_le {k c m n : Nat} (hm : m ≤ k * (2 * k + 1)) (hc : c ≤ k) (hn : n ≤ 2 * c + 1) :
    m + n ≤ (k + 1) * (2 * (k + 1) + 1) := by
  have hsplit : (k + 1) * (2 * (k + 1) + 1) = k * (2 * k + 1) + (4 * k + 3) := by ring
  omega

/-- Calls one after the other. -/
theorem doAll_spec {roomName : Str} {calls : List (Call User)} {n : Nat} {room : Room User}
    (h : DoAll code (new User roomName) calls n room) :
    room.roomName = roomName ∧ room.members.card ≤ calls.length ∧
      n ≤ calls.length * (2 * calls.length + 1) ∧
      ∀ u, decide (u ∈ room.members) = isMember u calls ∧
        room.queueOf u = due roomName u false calls := by
  induction h with
  | nil => exact ⟨rfl, by simp [new], by simp, fun u => ⟨by simp [new, isMember], rfl⟩⟩
  | @snoc calls call m n mid room _ hop ih =>
    obtain ⟨hname, hcard, hn, hqueue⟩ := ih
    obtain ⟨hname', hcard', hqueue'⟩ := does_spec hop
    obtain ⟨p, hsteps, -⟩ := hop
    have hn' := (partway hsteps).steps_le
    rw [List.length_append, List.length_singleton]
    refine ⟨hname'.trans hname, by omega, steps_succ_le hn hcard hn', fun u => ⟨?_, ?_⟩⟩
    · rw [(hqueue' u).1, (hqueue u).1, isMember_append]
    · rw [(hqueue' u).2, (hqueue u).2, due_snoc (hqueue u).1, hname]

/-! ## All calls at once -/

section
variable {T : Type*} [DecidableEq T] {roomName : Str} {labels : List (Label T (Call User))}
  {sys : System T (Call User) (Place User) (Room User)}

/-- **Delivery in every interleaving**: the queue of a user has been handed what was broadcast while the user was
a member, each message once and in the order of the lock; a broadcast under way may not have reached it yet. -/
theorem enqueued_due (h : (System.start (new User roomName)).run code labels = some sys) :
    (∀ t t' call call' p p', sys.threads t = some (.inside call p) →
        sys.threads t' = some (.inside call' p') → t = t') ∧
      (sys.lock = none → ∀ user, user ∈ sys.state.members ↔ isMember user (ops labels) = true) ∧
      ∀ user, sys.state.queueOf user = due roomName user false (ops labels) ∨
        ∃ t senderUsername messageText p,
          sys.threads t = some (.inside (.broadcastMessage senderUsername messageText) p) ∧
          sys.lock = some t ∧
          sys.state.queueOf user ++ [Room.broadcastMessage roomName senderUsername messageText] =
            due roomName user false (ops labels) := by
  have hlin := Linear.run h
  refine ⟨?_, ?_, ?_⟩
  · intro t t' call call' p p' hin hin'
    exact Option.some.inj ((hlin.of_inside hin).symm.trans (hlin.of_inside hin'))
  · intro hlock user
    cases hlin with
    | free _ hall _ =>
      rw [← ((doAll_spec hall).2.2.2 user).1, decide_eq_true_iff]
    | held hheld =>
      rw [hlock] at hheld
      cases hheld
  · intro user
    cases hlin with
    | free _ hall _ => exact .inl ((doAll_spec hall).2.2.2 user).2
    | @held t call p before m n mid hlock hops _ hall hin hsteps _ =>
      obtain ⟨hname, -, -, hqueue⟩ := doAll_spec hall
      rw [hops, due_snoc (hqueue user).1 call, ← (hqueue user).2, ← hname]
      rcases (partway hsteps).queue user with hall | ⟨hmem, hnone, senderUsername, messageText, rfl⟩
      · exact .inl hall
      · refine .inr ⟨t, senderUsername, messageText, p, hin, hlock, ?_⟩
        rw [hnone, if_pos hmem]
        rfl

/-- A broadcast that has to wait for a user to be added, and is then behind its `enqueue`. -/
def twoCalls : List (Label Bool (Call Nat)) :=
  [.call true (.broadcastMessage (str "bob") (str "hi")), .call false (.addMember 7),
    .acquire false (.addMember 7), .work false, .release false,
    .acquire true (.broadcastMessage (str "bob") (str "hi")), .work true, .work true]

theorem run_twoCalls :
    ∃ sys, (System.start (new Nat (str "cs"))).run code twoCalls = some sys ∧
      sys.state.queueOf 7 = [⟨tagDelivery, str "cs:bob:hi"⟩] ∧ sys.threads true ≠ none :=
  ⟨_, rfl, rfl, nofun⟩

theorem enqueued_due_two :
    ∃ sys, (System.start (new Nat (str "cs"))).run code twoCalls = some sys ∧
      sys.state.queueOf 7 = [⟨tagDelivery, str "cs:bob:hi"⟩] ∧
      ∀ user, sys.state.queueOf user = due (str "cs") user false (ops twoCalls) ∨
        ∃ t senderUsername messageText p,
          sys.threads t = some (.inside (.broadcastMessage senderUsername messageText) p) ∧
          sys.lock = some t ∧
          sys.state.queueOf user ++ [Room.broadcastMessage (str "cs") senderUsername messageText] =
            due (str "cs") user false (ops twoCalls) := by
  obtain ⟨sys, hrun, hqueue, -⟩ := run_twoCalls
  exact ⟨sys, hrun, hqueue, (enqueued_due hrun).2.2⟩

/-- **Every call returns**: a run with `n` calls has at most `n * (2 * n + 4)` steps, and as long as a call has
not returned there is a step to take. -/
theorem calls_return (h : (System.start (new User roomName)).run code labels = some sys) :
    labels.length ≤ count .call labels * (2 * count .call labels + 4) ∧
      ∀ t, sys.threads t ≠ none → ∃ label, label.kind ≠ .call ∧ (sys.next code label).isSome = true := by
  refine ⟨?_, fun t ht => progress h ht⟩
  have hwork : count .work labels ≤ count .acquire labels * (2 * count .acquire labels + 1) := by
    rw [← length_ops]
    cases Linear.run h with
    | free _ hall _ => exact (doAll_spec hall).2.2.1
    | @held t call p before m n mid _ hops hworks hall _ hsteps _ =>
      obtain ⟨-, hcard, hm, -⟩ := doAll_spec hall
      rw [hworks, hops, List.length_append, List.length_singleton]
      exact steps_succ_le hm hcard (partway hsteps).steps_le
  have hle : count .acquire labels ≤ count .call labels := by
    obtain ⟨⟨n, -, hcalls⟩, -⟩ := Counted.run h
    omega
  calc labels.length
      ≤ 3 * count .call labels + count .work labels := length_le h
    _ ≤ 3 * count .call labels + count .call labels * (2 * count .call labels + 1) := by
        have := Nat.mul_le_mul hle (show 2 * count .acquire labels + 1 ≤ 2 * count .call labels + 1 by omega)
        omega
    _ = count .call labels * (2 * count .call labels + 4) := by ring

theorem calls_return_two :
    ∃ sys, (System.start (new Nat (str "cs"))).run code twoCalls = some sys ∧ sys.threads true ≠ none ∧
      twoCalls.length ≤ 2 * (2 * 2 + 4) ∧
      ∀ t, sys.threads t ≠ none → ∃ label, label.kind ≠ .call ∧ (sys.next code label).isSome = true :=
  let ⟨sys, hrun, _, hthread⟩ := run_twoCalls
  ⟨sys, hrun, hthread, calls_return hrun⟩

end

end Room

end CsfAssignments.Chat
