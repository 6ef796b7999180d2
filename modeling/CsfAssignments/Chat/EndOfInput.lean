import CsfAssignments.Chat.Sender
import CsfAssignments.Lib.Lines
/-!
# The sender at the end of its input (`csf_assign05/sender.cpp:45-159`)

| here | there |
| --- | --- |
| `Stdin`, `getline`  | `std::cin` and `getline(std::cin, line)` (`:52`): once `eofbit` is set, `line` keeps what it holds |
| `Loop`              | the variables of the loop: `line` lives outside it (`:46`) and is stripped in place (`:53`) |
| `Loop.iteration`    | one round, prompt to prompt; `exited` is the `break` (`:135`) |
| `linesOf newline`   | the lines of a text, with what follows the last newline |

Nothing looks at the result of `getline`. When the input is over, the loop goes on with an empty line, or
with a last line that no newline ended, and each round strips that one further.
-/

namespace CsfAssignments.Chat

open Lines

structure Stdin where
  rest : Str
  eof : Bool
deriving DecidableEq, Repr

def getline (line : Str) (stdin : Stdin) : Str × Stdin :=
  if stdin.eof then (line, stdin)
  else
    match find stdin.rest newline with
    | some pos => (stdin.rest.take pos, ⟨stdin.rest.drop (pos + 1), false⟩)
    | none => (stdin.rest, ⟨[], true⟩)

structure Loop where
  sender : Sender
  line : Str
  stdin : Stdin
deriving DecidableEq, Repr

inductive Progress where
  | looping (l : Loop)
  | exited (s : Sender)
deriving DecidableEq, Repr

/-- The requests sent since the login. -/
def Progress.requests : Progress → Nat
  | .looping l => l.sender.exchanges.length
  | .exited s => s.exchanges.length

namespace Loop

def iteration (server : Server) (l : Loop) : Progress :=
  let (line, stdin) := getline l.line l.stdin
  match l.sender.command server line with
  | .prompt s => .looping ⟨s, stripend line, stdin⟩
  | .quit s => .exited s

/-- At most `n` rounds. -/
def run (server : Server) : Nat → Loop → Progress
  | 0, l => .looping l
  | n + 1, l =>
    match l.iteration server with
    | .looping l' => run server n l'
    | .exited s => .exited s

/-- In front of the first prompt. -/
def start (text : Str) : Loop := ⟨Sender.start, [], ⟨text, false⟩⟩

end Loop

/-- The last line, if no newline ends it. -/
def unfinished (text : Str) : Option Str :=
  if text.getLast? = some newline then none else (linesOf newline text).getLast?

def quitLine : Str := str "/quit"

attribute [grind =] Loop.iteration Loop.run linesOf unfinished stripend

namespace Sender

/-- The whole input, line by line. -/
def readAll (server : Server) : Sender → List Str → Turn
  | s, [] => .prompt s
  | s, line :: lines =>
    match s.command server line with
    | .prompt s' => readAll server s' lines
    | .quit s' => .quit s'

/-- The line is `/quit`, and the server will acknowledge it. -/
def QuitsOn (server : Server) (s : Sender) (line : Str) : Prop :=
  stripend line = quitLine ∧ (server s.exchanges.length).ok = true

/-! ## One round -/

section
variable {server : Server} {s s' : Sender} {input line : Str}

theorem exchange_requests (server : Server) (s : Sender) (request : Message) (sendError : Str) :
    ∃ s', s.exchange server request sendError = ((server s.exchanges.length).ok, s') ∧
      s'.joinedRoom = s.joinedRoom ∧ s'.exchanges.length = s.exchanges.length + 1 := by
  obtain ⟨s', h1, h2, h3⟩ := exchange_spec server s request sendError
  exact ⟨s', h1, h2, exchanges_length h3⟩

/-- `/quit`: one request, and the loop ends if it is acknowledged. -/
theorem command_quit (server : Server) (s : Sender) (h : stripend input = quitLine) :
    ∃ s', s'.joinedRoom = s.joinedRoom ∧ s'.exchanges.length = s.exchanges.length + 1 ∧
      s.command server input =
        if (server s.exchanges.length).ok then .quit s' else .prompt s' := by
  obtain ⟨s', h1, h2, h3⟩ := exchange_requests server s (.ofData tagQuit [])
    (str "Quit request failed to send!")
  refine ⟨s', h2, h3, ?_⟩
  have hj : isJoin quitLine = false := by decide
  have hl : quitLine ≠ str "/leave" := by decide
  have hq : quitLine = str "/quit" := rfl
  simp only [command, h, hj, Bool.false_eq_true, if_false, if_neg hl, if_pos hq, h1]
  cases (server s.exchanges.length).ok <;> rfl

/-- Any other text: one request from inside a room, none from outside. -/
theorem command_text (server : Server) (s : Sender) (hj : isJoin (stripend input) = false)
    (hl : stripend input ≠ str "/leave") (hq : stripend input ≠ quitLine) :
    ∃ s', s.command server input = .prompt s' ∧ s'.joinedRoom = s.joinedRoom ∧
      s'.exchanges.length = s.exchanges.length + if s.joinedRoom then 1 else 0 := by
  have hq' : stripend input ≠ str "/quit" := hq
  simp only [command, hj, Bool.false_eq_true, if_false, if_neg hl, if_neg hq']
  cases hroom : s.joinedRoom with
  | false => exact ⟨_, rfl, hroom, rfl⟩
  | true =>
    obtain ⟨s', h1, h2, h3⟩ := exchange_requests server s (.ofData tagSendall (stripend input))
      (str "Message to room failed to send!")
    refine ⟨s', ?_, h2.trans hroom, h3⟩
    rw [if_pos rfl, h1]
    cases (server s.exchanges.length).ok <;> rfl

theorem join_requests (server : Server) (s : Sender) (room : Str) :
    ∃ s', s.join server room = .prompt s' ∧ s'.exchanges.length = s.exchanges.length + 1 := by
  obtain ⟨s', h1, -, h3⟩ := exchange_requests server s (.ofData tagJoin room)
    (str "Join room request failed to send!")
  unfold join
  rw [h1]
  cases (server s.exchanges.length).ok
  · exact ⟨s', rfl, h3⟩
  · exact ⟨{ s' with joinedRoom := true }, rfl, h3⟩

/-- Only a `/join` sends two requests. -/
theorem command_join (server : Server) (s : Sender) (hj : isJoin (stripend input) = true) :
    ∃ s', s.command server input = .prompt s' ∧ s.exchanges.length ≤ s'.exchanges.length ∧
      s'.exchanges.length ≤ s.exchanges.length + 2 := by
  simp only [command, hj, if_true]
  cases roomName (stripend input) with
  | none => exact ⟨_, rfl, by simp, by simp⟩
  | some room =>
    cases s.joinedRoom with
    | false =>
      obtain ⟨s', h1, h2⟩ := join_requests server s room
      exact ⟨s', h1, by omega, by omega⟩
    | true =>
      obtain ⟨t, h1, -, h3⟩ := exchange_requests server s (.ofData tagLeave [])
        (str "Leave room request failed to send!")
      simp only [if_true, h1]
      cases (server s.exchanges.length).ok with
      | false => exact ⟨t, rfl, by omega, by omega⟩
      | true =>
        obtain ⟨s', h4, h5⟩ := join_requests server t room
        exact ⟨s', h4, by omega, by omega⟩

theorem command_leave (server : Server) (s : Sender) (hj : isJoin (stripend input) = false)
    (hl : stripend input = str "/leave") :
    ∃ s', s.command server input = .prompt s' ∧ s'.exchanges.length = s.exchanges.length + 1 := by
  obtain ⟨t, h1, -, h3⟩ := exchange_requests server s (.ofData tagLeave [])
    (str "Leave room request failed to send!")
  simp only [command, hj, Bool.false_eq_true, if_false, if_pos hl, h1]
  cases (server s.exchanges.length).ok
  · exact ⟨t, rfl, h3⟩
  · exact ⟨{ t with joinedRoom := false }, rfl, h3⟩

/-- **Step**: at most two requests; the loop ends exactly on an acknowledged `/quit`, which is one. -/
theorem command_requests (server : Server) (s : Sender) (input : Str) :
    ∃ s', s.exchanges.length ≤ s'.exchanges.length ∧ s'.exchanges.length ≤ s.exchanges.length + 2 ∧
      ((s.command server input = .prompt s' ∧ ¬QuitsOn server s input) ∨
        (s.command server input = .quit s' ∧ QuitsOn server s input ∧
          s'.exchanges.length = s.exchanges.length + 1)) := by
  by_cases hq : stripend input = quitLine
  · obtain ⟨s', -, h1, h2⟩ := command_quit server s hq
    refine ⟨s', by omega, by omega, ?_⟩
    cases hok : (server s.exchanges.length).ok with
    | false => exact .inl ⟨by simpa [hok] using h2, by simp [QuitsOn, hok]⟩
    | true => exact .inr ⟨by simpa [hok] using h2, ⟨hq, hok⟩, h1⟩
  · have hnot : ¬QuitsOn server s input := fun h => hq h.1
    cases hj : isJoin (stripend input) with
    | true =>
      obtain ⟨s', h1, h2, h3⟩ := command_join server s hj
      exact ⟨s', h2, h3, .inl ⟨h1, hnot⟩⟩
    | false =>
      by_cases hl : stripend input = str "/leave"
      · obtain ⟨s', h1, h2⟩ := command_leave server s hj hl
        exact ⟨s', by omega, by omega, .inl ⟨h1, hnot⟩⟩
      · obtain ⟨s', h1, -, h2⟩ := command_text server s hj hl hq
        refine ⟨s', by omega, ?_, .inl ⟨h1, hnot⟩⟩
        split at h2 <;> omega

end

end Sender

/-! ## Runs -/

namespace Loop

open Sender

section
variable {server : Server} {l l' : Loop} {s s' : Sender} {n m : Nat}

theorem run_succ (h : l.iteration server = .looping l') : l.run server (n + 1) = l'.run server n := by
  rw [run, h]

theorem run_exited (h : l.run server n = .exited s) : l.run server (n + m) = .exited s := by
  induction n generalizing l with
  | zero => cases h
  | succ n ih =>
    rw [Nat.succ_add]
    cases hi : l.iteration server with
    | looping l' =>
      rw [run_succ hi] at h ⊢
      exact ih h
    | exited t =>
      simp only [run, hi] at h ⊢
      exact h

theorem run_looping (h : l.run server n = .looping l') : l.run server (n + m) = l'.run server m := by
  induction n generalizing l with
  | zero =>
    cases h
    rw [Nat.zero_add]
  | succ n ih =>
    rw [Nat.succ_add]
    cases hi : l.iteration server with
    | looping l₁ =>
      rw [run_succ hi] at h ⊢
      exact ih h
    | exited t =>
      simp only [run, hi] at h
      cases h

/-- A round sends at most two requests. -/
theorem iteration_requests (server : Server) (l : Loop) :
    l.sender.exchanges.length ≤ (l.iteration server).requests ∧
      (l.iteration server).requests ≤ l.sender.exchanges.length + 2 := by
  obtain ⟨s', h1, h2, h3⟩ := command_requests server l.sender (getline l.line l.stdin).1
  unfold iteration
  rcases h3 with ⟨h3, -⟩ | ⟨h3, -⟩
  · simp only [h3]
    exact ⟨h1, h2⟩
  · simp only [h3]
    exact ⟨h1, h2⟩

theorem run_requests (server : Server) (n : Nat) (l : Loop) :
    l.sender.exchanges.length ≤ (l.run server n).requests ∧
      (l.run server n).requests ≤ l.sender.exchanges.length + 2 * n := by
  induction n generalizing l with
  | zero => exact ⟨Nat.le_refl _, Nat.le_refl _⟩
  | succ n ih =>
    obtain ⟨h1, h2⟩ := iteration_requests server l
    cases hi : l.iteration server with
    | looping l' =>
      obtain ⟨h3, h4⟩ := ih l'
      rw [run_succ hi]
      rw [hi] at h1 h2
      simp only [Progress.requests] at h1 h2
      omega
    | exited s =>
      rw [hi] at h1 h2
      rw [run, hi]
      simp only
      omega

/-- Requests are never taken back. -/
theorem requests_mono (server : Server) (n m : Nat) (l : Loop) :
    (l.run server n).requests ≤ (l.run server (n + m)).requests := by
  cases h : l.run server n with
  | exited s =>
    exact Nat.le_of_eq (congrArg Progress.requests (run_exited h)).symm
  | looping l' =>
    rw [run_looping h]
    exact (run_requests server m l').1

end

/-! ## After the last line -/

/-- What is left of a `/quit` behind which there are carriage returns. -/
def quitAnd (i : Nat) : Str := quitLine ++ List.replicate i carriageReturn

attribute [grind =] quitAnd

theorem stripend_quit : stripend (quitAnd 0) = quitAnd 0 := by decide

theorem stripend_quitAnd (i : Nat) : stripend (quitAnd (i + 1)) = quitAnd i := by
  have hsnoc : quitAnd (i + 1) = quitAnd i ++ [carriageReturn] := by
    rw [quitAnd, List.replicate_succ', ← List.append_assoc, quitAnd]
  have hlast : (quitAnd i ++ [carriageReturn]).getLast? ≠ some newline := by
    simp [newline, carriageReturn]
  rw [hsnoc, stripend, dropEnd_of_ne hlast, dropEnd_append]

/-- The other way round. -/
theorem of_stripend_quitAnd {line : Str} {i : Nat} (hline : newline ∉ line) (h : stripend line = quitAnd i) :
    line = quitAnd (i + 1) ∨ i = 0 ∧ line = quitAnd 0 := by
  have hlast : line.getLast? ≠ some newline := fun hl => hline (List.mem_of_getLast? hl)
  rw [stripend, dropEnd_of_ne hlast] at h
  by_cases hcr : line.getLast? = some carriageReturn
  · left
    obtain ⟨front, rfl⟩ := List.getLast?_eq_some_iff.mp hcr
    rw [dropEnd_append] at h
    rw [h, quitAnd, quitAnd, List.replicate_succ', List.append_assoc]
  · right
    rw [dropEnd_of_ne hcr] at h
    cases i with
    | zero => exact ⟨rfl, h⟩
    | succ i =>
      refine absurd ?_ hcr
      rw [h, quitAnd, List.replicate_succ', ← List.append_assoc]
      simp

theorem take_quitAnd (i : Nat) : (quitAnd i).take 5 = quitLine := by
  rw [quitAnd, List.take_left' (by decide)]

theorem quitAnd_not_join (i : Nat) : isJoin (quitAnd i) = false := by
  have hne : quitLine ≠ str "/join" := by decide
  simp [isJoin, take_quitAnd, hne]

theorem quitAnd_not_leave (i : Nat) : quitAnd i ≠ str "/leave" := by
  intro h
  have htake := take_quitAnd i
  rw [h] at htake
  exact absurd htake (by decide)

theorem quitAnd_succ_ne (i : Nat) : quitAnd (i + 1) ≠ quitLine := by
  intro h
  have hlen := congrArg List.length h
  simp [quitAnd] at hlen

section
variable {server : Server} {s s' : Sender} {line : Str} {i n q : Nat}

/-- At the end of the input `getline` leaves the line alone. -/
theorem iteration_eof (server : Server) (s : Sender) (line : Str) :
    (Loop.mk s line ⟨[], true⟩).iteration server =
      match s.command server line with
      | .prompt s' => .looping ⟨s', stripend line, ⟨[], true⟩⟩
      | .quit s' => .exited s' := rfl

/-- The requests before the line that is left over has become a `/quit`. -/
def waitFor (s : Sender) (i : Nat) : Nat := s.exchanges.length + if s.joinedRoom then i - 1 else 0

theorem quitAnd_zero : quitAnd 0 = quitLine := List.append_nil _

/-- The leftover is a `/quit` after the next `stripend`. -/
theorem stripend_quitLine (hi : i ≤ 1) : stripend (quitAnd i) = quitLine := by
  rw [← quitAnd_zero]
  rcases Nat.le_one_iff_eq_zero_or_eq_one.mp hi with rfl | rfl
  · exact stripend_quit
  · exact stripend_quitAnd 0

/-- Before that, it is a text like any other. -/
theorem command_leftover (server : Server) (s : Sender) (i : Nat) :
    ∃ t, s.command server (quitAnd (i + 2)) = .prompt t ∧ waitFor t (i + 1) = waitFor s (i + 2) ∧
      s.exchanges.length ≤ t.exchanges.length := by
  have hstrip := stripend_quitAnd (i + 1)
  obtain ⟨t, hcmd, hroom, hlen⟩ := command_text server s
    (by rw [hstrip]; exact quitAnd_not_join _) (by rw [hstrip]; exact quitAnd_not_leave _)
    (by rw [hstrip]; exact quitAnd_succ_ne i)
  refine ⟨t, hcmd, ?_, by omega⟩
  rw [waitFor, waitFor, hroom, hlen]
  split <;> omega

/-- A `/quit` left over is repeated until the server acknowledges it. -/
theorem leftover_exits (hq : waitFor s i ≤ q) (hok : (server q).ok = true) :
    ∃ n s', (Loop.mk s (quitAnd i) ⟨[], true⟩).run server n = .exited s' ∧
      s'.exchanges.length ≤ q + 1 := by
  obtain ⟨k, hk⟩ : ∃ k, i + (q + 1 - s.exchanges.length) ≤ k := ⟨_, Nat.le_refl _⟩
  have hle : s.exchanges.length ≤ waitFor s i := Nat.le_add_right _ _
  induction k generalizing s i with
  | zero => omega
  | succ k ih =>
    rcases Nat.lt_or_ge 1 i with hi | hi
    · obtain ⟨j, rfl⟩ : ∃ j, i = j + 2 := ⟨i - 2, by omega⟩
      obtain ⟨t, hcmd, hwait, hmore⟩ := command_leftover server s j
      obtain ⟨n, s', hrun, hend⟩ := ih (s := t) (i := j + 1) (by omega) (by omega) (Nat.le_add_right _ _)
      refine ⟨n + 1, s', ?_, hend⟩
      rw [run, iteration_eof, hcmd, stripend_quitAnd]
      exact hrun
    · obtain ⟨t, -, hlen, hcmd⟩ := command_quit server s (stripend_quitLine hi)
      cases hack : (server s.exchanges.length).ok with
      | true =>
        refine ⟨1, t, ?_, by omega⟩
        rw [run, iteration_eof, hcmd, if_pos hack]
      | false =>
        have hne : s.exchanges.length ≠ q := by
          rintro rfl
          rw [hok] at hack
          cases hack
        have hwait : waitFor t 0 = t.exchanges.length := by simp [waitFor]
        obtain ⟨n, s', hrun, hend⟩ := ih (s := t) (i := 0) (by omega) (by omega) (Nat.le_add_right _ _)
        refine ⟨n + 1, s', ?_, hend⟩
        rw [run, iteration_eof, hcmd, if_neg (by simp [hack]), stripend_quitLine hi, ← quitAnd_zero]
        exact hrun

theorem newline_not_mem_stripend (hline : newline ∉ line) : newline ∉ stripend line := by
  have hdrop (c : UInt8) (s : Str) : dropEnd c s ⊆ s := by
    unfold dropEnd
    split
    · exact List.dropLast_subset s
    · exact List.Subset.refl s
  exact fun h => hline (hdrop _ _ (hdrop _ _ h))

/-- Only a `/quit` left over ends the loop. -/
theorem exits_leftover (hline : newline ∉ line)
    (h : (Loop.mk s line ⟨[], true⟩).run server n = .exited s') :
    ∃ i q, line = quitAnd i ∧ waitFor s i ≤ q ∧ (server q).ok = true ∧ s'.exchanges.length = q + 1 := by
  induction n generalizing s line with
  | zero => cases h
  | succ n ih =>
    obtain ⟨t, hmore, -, ⟨hcmd, -⟩ | ⟨hcmd, ⟨hstrip, hok⟩, hlen⟩⟩ :=
      command_requests server s line
    · rw [run, iteration_eof, hcmd] at h
      obtain ⟨i, q, hstrip, hwait, hok, hend⟩ := ih (newline_not_mem_stripend hline) h
      rcases of_stripend_quitAnd hline hstrip with rfl | ⟨rfl, rfl⟩
      · refine ⟨i + 1, q, rfl, ?_, hok, hend⟩
        cases i with
        | zero =>
          have : waitFor s (0 + 1) = s.exchanges.length := by simp [waitFor]
          have : waitFor t 0 = t.exchanges.length := by simp [waitFor]
          omega
        | succ i =>
          obtain ⟨t', hcmd', hwait', -⟩ := command_leftover server s i
          rw [hcmd'] at hcmd
          cases hcmd
          exact Nat.le_trans (Nat.le_of_eq hwait'.symm) hwait
      · have : waitFor s 0 = s.exchanges.length := by simp [waitFor]
        have : waitFor t 0 = t.exchanges.length := by simp [waitFor]
        exact ⟨0, q, rfl, by omega, hok, hend⟩
    · rw [run, iteration_eof, hcmd] at h
      cases h
      rw [← quitAnd_zero] at hstrip
      rcases of_stripend_quitAnd hline hstrip with rfl | ⟨-, rfl⟩
      · exact ⟨1, _, rfl, by simp [waitFor], hok, hlen⟩
      · exact ⟨0, _, rfl, by simp [waitFor], hok, hlen⟩

end

/-! ## Line by line -/

theorem unfinished_append {front : Str} (h : newline ∉ front) (rest : Str) :
    unfinished (front ++ newline :: rest) = unfinished rest := by
  unfold unfinished
  rw [linesOf_line h]
  cases rest with
  | nil => simp [linesOf]
  | cons c rest =>
    have hlines : linesOf newline (c :: rest) ≠ [] := by
      rw [linesOf]
      split
      · simp
      · split <;> simp
    obtain ⟨line, lines, hcons⟩ := List.exists_cons_of_ne_nil hlines
    simp [hcons]

/-- What `getline` makes of a text that is not at its end. -/
theorem getline_cases {text : Str} (hne : text ≠ []) (line : Str) :
    ∃ front, newline ∉ front ∧
      ((∃ rest, text = front ++ newline :: rest ∧ getline line ⟨text, false⟩ = (front, ⟨rest, false⟩)) ∨
        (text = front ∧ getline line ⟨text, false⟩ = (front, ⟨[], true⟩))) := by
  by_cases h : newline ∈ text
  · obtain ⟨front, rest, rfl, hfront⟩ := List.eq_append_cons_of_mem h
    refine ⟨front, hfront, .inl ⟨rest, rfl, ?_⟩⟩
    simp [getline, find_append hfront]
  · refine ⟨text, h, .inr ⟨rfl, ?_⟩⟩
    have hfind : find text newline = none := List.idxOf?_eq_none_iff.mpr h
    simp [getline, hfind]

theorem iteration_line (server : Server) (s : Sender) {line input : Str} {stdin stdin' : Stdin}
    (h : getline line stdin = (input, stdin')) :
    (Loop.mk s line stdin).iteration server =
      match s.command server input with
      | .prompt s' => .looping ⟨s', stripend input, stdin'⟩
      | .quit s' => .exited s' := by
  rw [iteration, h]

/-- **Run**: the rounds that read a line do what `readAll` does, in as many rounds as there are lines. -/
theorem run_lines (server : Server) (s : Sender) (line text : Str) :
    (∃ s' n, n ≤ (linesOf newline text).length ∧ readAll server s (linesOf newline text) = .quit s' ∧
        (Loop.mk s line ⟨text, false⟩).run server n = .exited s') ∨
      ∃ s', readAll server s (linesOf newline text) = .prompt s' ∧
        ((unfinished text = none ∧ ∃ line', (Loop.mk s line ⟨text, false⟩).run server (linesOf newline text).length =
            .looping ⟨s', line', ⟨[], false⟩⟩) ∨
          ∃ last, unfinished text = some last ∧ newline ∉ last ∧
            (Loop.mk s line ⟨text, false⟩).run server (linesOf newline text).length =
              .looping ⟨s', stripend last, ⟨[], true⟩⟩) := by
  by_cases hne : text = []
  · subst hne
    exact .inr ⟨s, rfl, .inl ⟨rfl, line, rfl⟩⟩
  obtain ⟨front, hfront, ⟨rest, htext, hget⟩ | ⟨rfl, hget⟩⟩ := getline_cases hne line
  · have hiter := iteration_line server s hget
    rw [htext, linesOf_line hfront, unfinished_append hfront, readAll, ← htext]
    cases hcmd : s.command server front with
    | quit t =>
      rw [hcmd] at hiter
      refine .inl ⟨t, 1, by simp, rfl, ?_⟩
      rw [run, hiter]
    | prompt t =>
      rw [hcmd] at hiter
      rw [List.length_cons, run_succ hiter]
      rcases run_lines server t (stripend front) rest with ⟨s', n, hn, hall, hrun⟩ | h
      · exact .inl ⟨s', n + 1, by omega, hall, by rw [run_succ hiter, hrun]⟩
      · exact .inr h
  · have hiter := iteration_line server s hget
    have hlast : unfinished text = some text := by
      have hnl : text.getLast? ≠ some newline := fun h => hfront (List.mem_of_getLast? h)
      rw [unfinished, if_neg hnl, linesOf_last hne hfront]
      rfl
    rw [linesOf_last hne hfront, readAll]
    cases hcmd : s.command server text with
    | quit t =>
      rw [hcmd] at hiter
      refine .inl ⟨t, 1, by simp, rfl, ?_⟩
      rw [run, hiter]
    | prompt t =>
      rw [hcmd] at hiter
      exact .inr ⟨t, rfl, .inr ⟨text, hlast, hfront, by rw [List.length_singleton, run_succ hiter]; rfl⟩⟩
termination_by text.length
decreasing_by
  rw [htext, List.length_append, List.length_cons]
  omega

theorem readAll_quit {server : Server} {s : Sender} {lines : List Str} :
    (∃ s', readAll server s lines = .quit s') ↔
      ∃ t line, (t, line) ∈ rounds server s lines ∧ QuitsOn server t line := by
  induction lines generalizing s with
  | nil => simp [readAll, rounds]
  | cons line lines ih =>
    obtain ⟨t, -, -, ⟨hcmd, hnot⟩ | ⟨hcmd, hquits, -⟩⟩ := command_requests server s line
    · simp only [readAll, rounds, hcmd, ih, List.mem_cons, Prod.mk.injEq]
      constructor
      · rintro ⟨u, input, hmem, hu⟩
        exact ⟨u, input, .inr hmem, hu⟩
      · rintro ⟨u, input, ⟨rfl, rfl⟩ | hmem, hu⟩
        · exact absurd hu hnot
        · exact ⟨u, input, hmem, hu⟩
    · simp only [readAll, rounds, hcmd, List.mem_cons, List.not_mem_nil, or_false, Prod.mk.injEq]
      exact ⟨fun _ => ⟨s, line, ⟨rfl, rfl⟩, hquits⟩, fun _ => ⟨t, rfl⟩⟩

/-! ## The whole run -/

/-- The loop exits, and up to any round has sent at most two requests for each line read. -/
def Bounded (server : Server) (text : Str) : Prop :=
  (∃ n s, (start text).run server n = .exited s) ∧
    ∀ n, ((start text).run server n).requests ≤ 2 * min n (linesOf newline text).length

/-- The server acknowledges a `/quit` that is a line of the input; or, at the end of the input, one that
no newline ended, before the requests are twice the lines. -/
def Acknowledged (server : Server) (text : Str) : Prop :=
  (∃ s line, (s, line) ∈ rounds server Sender.start (linesOf newline text) ∧ QuitsOn server s line) ∨
    ∃ s last i q, readAll server Sender.start (linesOf newline text) = .prompt s ∧
      unfinished text = some last ∧ stripend last = quitAnd i ∧
      waitFor s i ≤ q ∧ q < 2 * (linesOf newline text).length ∧ (server q).ok = true

/-- An exit with few enough requests is all it takes. -/
theorem bounded_of_exit {server : Server} {text : Str} {n : Nat} {s : Sender}
    (h : (start text).run server n = .exited s) (hle : s.exchanges.length ≤ 2 * (linesOf newline text).length) :
    Bounded server text := by
  refine ⟨⟨n, s, h⟩, fun m => ?_⟩
  have hstart : (start text).sender.exchanges.length = 0 := rfl
  have hround := (run_requests server m (start text)).2
  have hend : ((start text).run server m).requests ≤ s.exchanges.length := by
    have hmono := requests_mono server m n (start text)
    rwa [Nat.add_comm, run_exited h] at hmono
  omega

/-- Behind a last newline the loop goes on with an empty line, for ever. -/
theorem never_exits (server : Server) (s s' : Sender) (line : Str) (n : Nat) :
    (Loop.mk s line ⟨[], false⟩).run server n ≠ .exited s' := by
  intro h
  cases n with
  | zero => cases h
  | succ n =>
    have hiter := iteration_line server s (show getline line ⟨[], false⟩ = ([], ⟨[], true⟩) from rfl)
    obtain ⟨t, -, -, ⟨hcmd, -⟩ | ⟨-, ⟨hstrip, -⟩, -⟩⟩ := command_requests server s []
    · rw [hcmd] at hiter
      rw [run_succ hiter] at h
      obtain ⟨i, -, hempty, -⟩ := exits_leftover (by decide) h
      have hlen := congrArg List.length hempty
      have hquit : quitLine.length = 5 := by decide
      have hnone : (stripend []).length = 0 := by decide
      rw [quitAnd, List.length_append, hquit, hnone] at hlen
      omega
    · exact absurd hstrip (by decide)

/-- A run that exits does so after the rounds known to go on. -/
theorem exit_after {server : Server} {l l' : Loop} {s : Sender} {k n : Nat}
    (hk : l.run server k = .looping l') (h : l.run server n = .exited s) :
    ∃ m, l'.run server m = .exited s := by
  rcases Nat.le_total n k with hle | hle
  · have hexit := run_exited (m := k - n) h
    rw [Nat.add_sub_cancel' hle, hk] at hexit
    cases hexit
  · refine ⟨n - k, ?_⟩
    rw [← run_looping hk, Nat.add_sub_cancel' hle, h]

/-- **The sender's loop is bounded** exactly when the server acknowledges its `/quit` in time. -/
theorem bounded_iff (server : Server) (text : Str) : Bounded server text ↔ Acknowledged server text := by
  obtain ⟨s', n, hn, hall, hrun⟩ | ⟨s, hall, hend⟩ := run_lines server Sender.start [] text
  · have hle : s'.exchanges.length ≤ 0 + 2 * n := by
      have h := (run_requests server n (start text)).2
      rwa [start, hrun] at h
    exact iff_of_true (bounded_of_exit hrun (by omega)) (.inl (readAll_quit.mp ⟨s', hall⟩))
  constructor
  · rintro ⟨⟨n, s', hexit⟩, hrequests⟩
    have hle : s'.exchanges.length ≤ 2 * (linesOf newline text).length := by
      have h := hrequests n
      rw [hexit] at h
      exact Nat.le_trans h (Nat.mul_le_mul_left 2 (Nat.min_le_right _ _))
    rcases hend with ⟨-, line, hk⟩ | ⟨last, hunfinished, hline, hk⟩
    · obtain ⟨m, hm⟩ := exit_after hk hexit
      exact absurd hm (never_exits server s s' line m)
    · obtain ⟨m, hm⟩ := exit_after hk hexit
      obtain ⟨i, q, hstrip, hwait, hok, hq⟩ := exits_leftover (newline_not_mem_stripend hline) hm
      exact .inr ⟨s, last, i, q, hall, hunfinished, hstrip, hwait, by omega, hok⟩
  · rintro (hquits | ⟨t, last, i, q, hall', hunfinished, hstrip, hwait, hq, hok⟩)
    · obtain ⟨s', hquit⟩ := readAll_quit.mpr hquits
      rw [hall] at hquit
      cases hquit
    · rw [hall] at hall'
      cases hall'
      rcases hend with ⟨hnone, -⟩ | ⟨last', hunfinished', -, hk⟩
      · rw [hnone] at hunfinished
        cases hunfinished
      · rw [hunfinished] at hunfinished'
        cases hunfinished'
        rw [hstrip] at hk
        obtain ⟨n, s', hrun, hle⟩ := leftover_exits hwait hok
        have hexit : (start text).run server ((linesOf newline text).length + n) = .exited s' := by
          rw [start, run_looping hk, hrun]
        exact bounded_of_exit hexit (by omega)

/-- Join a room, say something: then the sender says nothing, over and over. -/
theorem unbounded_after_two_lines :
    let server : Server := fun _ => .answered ⟨tagOk, []⟩
    let text := str "/join a\nhi\n"
    (linesOf newline text).length = 2 ∧ ((start text).run server 5).requests = 5 ∧ ¬Bounded server text := by
  refine ⟨by decide, by decide, fun h => ?_⟩
  exact absurd (h.2 5) (by decide)

end Loop

end CsfAssignments.Chat
