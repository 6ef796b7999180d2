import CsfAssignments.Chat.Message
import CsfAssignments.Lib.Lines
/-!
# Robust I/O (`csf_assign05/csapp.c:789-900`)

A descriptor is what its system calls will do: `Read` and `Write` list the results of the `read` and
`write` calls to come, in every way the kernel may chop the streams. `Rio` is `rio_t`: the
`rio_cnt` bytes at `rio_bufptr`, and the descriptor it reads from.

`readlineb_spec` is the point of the package: however the bytes arrive, `rio_readlineb` takes the
first line of the stream, cut off at `maxlen - 1` bytes.
-/

namespace CsfAssignments.Chat

open Lines (takeLine)

/-- `RIO_BUFSIZE` (`csapp.h:59`). -/
def rioBufsize : Nat := 8192

/-- One `read` into `rio_buf`. After the last one the stream is at its end. -/
inductive Read where
  | chunk (bytes : Str) (nonempty : bytes ≠ []) (fits : bytes.length ≤ rioBufsize)
  /-- `EINTR` -/
  | interrupted
  | failed

/-- One `write`; after the last one the kernel takes all it is given. -/
inductive Write where
  /-- At most `more + 1` bytes are taken. -/
  | accepted (more : Nat)
  | interrupted
  | failed
  /-- `EPIPE`: the other side has closed. `SIGPIPE` comes with it. -/
  | broken

structure Rio where
  unread : Str
  reads : List Read

/-- `rio_read` (`:822`), on the fields of `rp`: `none` is -1, `some []` the end of the stream. -/
def rioRead (n : Nat) : Str → List Read → Option Str × Rio
  | c :: cs, reads => (some ((c :: cs).take n), ⟨(c :: cs).drop n, reads⟩)
  | [], [] => (some [], ⟨[], []⟩)
  | [], .interrupted :: reads => rioRead n [] reads
  | [], .failed :: reads => (none, ⟨[], reads⟩)
  | [], .chunk bytes _ _ :: reads => (some (bytes.take n), ⟨bytes.drop n, reads⟩)

/-- The `for` of `rio_readlineb` (`:882`) with `room` more rounds, `line` being what `usrbuf` holds. -/
def readlineLoop : Nat → Str → Rio → Option Str × Rio
  | 0, line, rp => (some line, rp)
  | room + 1, line, rp =>
    match rioRead 1 rp.unread rp.reads with
    | (some (c :: _), rp) =>
      if c = newline then (some (line ++ [c]), rp) else readlineLoop room (line ++ [c]) rp
    | (some [], rp) => (some line, rp)
    | (none, rp) => (none, rp)

/-- `rio_readlineb` (`:877`): the bytes stored in `usrbuf` before the NUL; `none` is -1. -/
def rioReadlineb (rp : Rio) (maxlen : Nat) : Option Str × Rio := readlineLoop (maxlen - 1) [] rp

/-- `rio_writen` (`:789`): whether all is written, what is, and the descriptor after it. To a process that ignores
`SIGPIPE`, a broken pipe is an error like any other. -/
def rioWriten : Str → List Write → Bool × Str × List Write
  | [], writes => (true, [], writes)
  | bytes, [] => (true, bytes, [])
  | bytes, .accepted more :: writes =>
    let (ok, out, writes) := rioWriten (bytes.drop (more + 1)) writes
    (ok, bytes.take (more + 1) ++ out, writes)
  | bytes, .interrupted :: writes => rioWriten bytes writes
  | _, .failed :: writes => (false, [], writes)
  | _, .broken :: writes => (false, [], writes)

/-- `SIGPIPE` comes while `rio_writen` writes these bytes. -/
def sigpipe : Str → List Write → Bool
  | [], _ => false
  | _, [] => false
  | bytes, .accepted more :: writes => sigpipe (bytes.drop (more + 1)) writes
  | bytes, .interrupted :: writes => sigpipe bytes writes
  | _, .failed :: _ => false
  | _, .broken :: _ => true

/-! ## The stream behind the reads -/

def Read.bytes : Read → Str
  | .chunk bytes _ _ => bytes
  | _ => []

/-- All bytes still to come. -/
def Rio.stream (rp : Rio) : Str := rp.unread ++ rp.reads.flatMap Read.bytes

/-- No `read` fails. -/
def Rio.Reliable (rp : Rio) : Prop := Read.failed ∉ rp.reads

/-- One byte at a time, the chunks do not show. -/
theorem rioRead_one : ∀ (unread : Str) (reads : List Read), Read.failed ∉ reads →
    ∃ rp, rioRead 1 unread reads = (some ((Rio.mk unread reads).stream.take 1), rp) ∧
      rp.stream = (Rio.mk unread reads).stream.drop 1 ∧ rp.Reliable
  | c :: cs, reads, h => ⟨⟨cs, reads⟩, by simp [rioRead, Rio.stream], by simp [Rio.stream], h⟩
  | [], [], h => ⟨⟨[], []⟩, by simp [rioRead, Rio.stream], by simp [Rio.stream], h⟩
  | [], .interrupted :: reads, h => by
    obtain ⟨rp, h1, h2, h3⟩ := rioRead_one [] reads (by simpa using h)
    refine ⟨rp, ?_, ?_, h3⟩
    · simpa [rioRead, Rio.stream, Read.bytes] using h1
    · simpa [Rio.stream, Read.bytes] using h2
  | [], .failed :: reads, h => by simp at h
  | [], .chunk [] hne _ :: reads, h => absurd rfl hne
  | [], .chunk (c :: cs) _ _ :: reads, h => by
    refine ⟨⟨cs, reads⟩, ?_, ?_, ?_⟩
    · simp [rioRead, Rio.stream, Read.bytes]
    · simp [Rio.stream, Read.bytes]
    · simpa [Rio.Reliable] using h

theorem readlineLoop_spec (room : Nat) (line : Str) (rp : Rio) (h : rp.Reliable) :
    ∃ rp', readlineLoop room line rp = (some (line ++ (takeLine newline room rp.stream).1), rp') ∧
      rp'.stream = (takeLine newline room rp.stream).2 ∧ rp'.Reliable := by
  induction room generalizing line rp with
  | zero => exact ⟨rp, by simp [readlineLoop, takeLine], rfl, h⟩
  | succ room ih =>
    obtain ⟨rp', h1, h2, h3⟩ := rioRead_one rp.unread rp.reads h
    change rioRead 1 rp.unread rp.reads = (some (rp.stream.take 1), rp') at h1
    change rp'.stream = rp.stream.drop 1 at h2
    cases hs : rp.stream with
    | nil =>
      rw [hs] at h1 h2
      exact ⟨rp', by simp [readlineLoop, h1], by simpa using h2, h3⟩
    | cons c s =>
      rw [hs] at h1 h2
      by_cases hc : c = newline
      · exact ⟨rp', by simp [readlineLoop, h1, takeLine, hc], by simpa [takeLine, hc] using h2, h3⟩
      · obtain ⟨rp'', h4, h5, h6⟩ := ih (line ++ [c]) rp' h3
        have hs' : rp'.stream = s := by simpa using h2
        rw [hs'] at h4 h5
        exact ⟨rp'', by simp [readlineLoop, h1, takeLine, hc, h4], by simp [takeLine, hc, h5], h6⟩

/-- **`rio_readlineb`** takes the first line of the stream, cut off at `maxlen - 1` bytes. -/
theorem readlineb_spec {rp : Rio} (h : rp.Reliable) (maxlen : Nat) :
    ∃ rp', rioReadlineb rp maxlen = (some (takeLine newline (maxlen - 1) rp.stream).1, rp') ∧
      rp'.stream = (takeLine newline (maxlen - 1) rp.stream).2 ∧ rp'.Reliable := by
  simpa [rioReadlineb] using readlineLoop_spec (maxlen - 1) [] rp h

/-- No `write` fails. -/
structure Intact (writes : List Write) : Prop where
  failed : Write.failed ∉ writes
  broken : Write.broken ∉ writes

theorem Intact.tail {write : Write} {writes : List Write} (h : Intact (write :: writes)) : Intact writes :=
  ⟨fun hmem => h.failed (.tail _ hmem), fun hmem => h.broken (.tail _ hmem)⟩

/-- **`rio_writen`** writes everything, in order, unless a `write` fails. -/
theorem writen_spec : ∀ (bytes : Str) (writes : List Write), Intact writes →
    ∃ writes', rioWriten bytes writes = (true, bytes, writes') ∧ sigpipe bytes writes = false ∧ Intact writes'
  | [], writes, h => ⟨writes, by simp [rioWriten], by simp [sigpipe], h⟩
  | c :: cs, [], h => ⟨[], by simp [rioWriten], rfl, h⟩
  | c :: cs, .accepted more :: writes, h => by
    obtain ⟨writes', h1, h2, h3⟩ := writen_spec (cs.drop more) writes h.tail
    exact ⟨writes', by simp [rioWriten, h1], by simpa [sigpipe] using h2, h3⟩
  | c :: cs, .interrupted :: writes, h => by
    obtain ⟨writes', h1, h2, h3⟩ := writen_spec (c :: cs) writes h.tail
    exact ⟨writes', by simp [rioWriten, h1], by simpa [sigpipe] using h2, h3⟩
  | c :: cs, .failed :: writes, h => absurd (.head _) h.failed
  | c :: cs, .broken :: writes, h => absurd (.head _) h.broken

end CsfAssignments.Chat
