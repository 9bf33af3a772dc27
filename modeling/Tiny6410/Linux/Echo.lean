import Mathlib
import Tiny6410.Lib.Memory
import Tiny6410.Lib.Text

/-! The echo example of linux-example/socket_echo_server: str_echo of the server, and the
loop of the client, which sends a line and prints what one read returns. -/
namespace Tiny6410.Echo

open Memory (Byte)
open Text

/-! The server. -/

/-- What a read of up to size bytes has stored. -/
structure Chunk (size : Nat) where
  bytes : List Byte
  positive : 0 < bytes.length
  fits : bytes.length ≤ size

inductive ReadResult where
  | data (chunk : Chunk 1024)
  | eof
  | eintr
  -- Any other errno.
  | error

inductive WriteResult where
  -- At most so many bytes.
  | accepts (n : Nat)
  | eintr

def accepted : WriteResult → List Byte → List Byte
  | .accepts n, bytes => bytes.take n
  | .eintr, _ => []

structure Connection where
  writes : Nat
  -- What the writes have accepted.
  sent : List Byte

inductive Exit where
  | eof
  | perror
  deriving DecidableEq

/-- str_echo with the given results of its reads and writes. The results of the writes are
not looked at; without a further result of read it is blocked. -/
def str_echo (results : Nat → WriteResult) : List ReadResult → Connection → Option (Connection × Exit)
  | [], _ => none
  | .data chunk :: reads, c =>
    str_echo results reads ⟨c.writes + 1, c.sent ++ accepted (results c.writes) chunk.bytes⟩
  | .eintr :: reads, c => str_echo results reads c
  | .eof :: _, c => some (c, .eof)
  | .error :: _, c => some (c, .perror)

def connected : Connection := ⟨0, []⟩

/-- The reads before the end of file. -/
def ReadResult.Continues : ReadResult → Prop
  | .data _ | .eintr => True
  | .eof | .error => False

def chunks : List ReadResult → List (List Byte)
  | .data chunk :: reads => chunk.bytes :: chunks reads
  | .eintr :: reads => chunks reads
  | _ => []

/-- The write takes all of the bytes. -/
def WriteResult.Whole : WriteResult → List Byte → Prop
  | .accepts n, bytes => bytes.length ≤ n
  | .eintr, _ => False

def sentOf (results : Nat → WriteResult) : Nat → List (List Byte) → List Byte
  | _, [] => []
  | k, bytes :: rest => accepted (results k) bytes ++ sentOf results (k + 1) rest

theorem str_echo_eof (results : Nat → WriteResult) {reads : List ReadResult} (c : Connection)
    (continues : ∀ r ∈ reads, r.Continues) :
    str_echo results (reads ++ [.eof]) c = some (⟨c.writes + (chunks reads).length,
      c.sent ++ sentOf results c.writes (chunks reads)⟩, .eof) := by
  induction reads generalizing c with
  | nil => simp [str_echo, chunks, sentOf]
  | cons r reads ih =>
    have later : ∀ r ∈ reads, r.Continues := fun r mem => continues r (List.mem_cons_of_mem _ mem)
    cases r with
    | data chunk =>
      rw [List.cons_append, str_echo, ih _ later]
      simp only [chunks, sentOf, List.length_cons, List.append_assoc, Nat.add_assoc, Nat.add_comm 1]
    | eintr => exact ih c later
    | eof | error => exact (continues _ List.mem_cons_self).elim

theorem accepted_sublist (w : WriteResult) (bytes : List Byte) : (accepted w bytes).Sublist bytes := by
  cases w with
  | accepts n => exact List.take_sublist n bytes
  | eintr => exact List.nil_sublist bytes

theorem accepted_eq_iff (w : WriteResult) {bytes : List Byte} (positive : 0 < bytes.length) :
    accepted w bytes = bytes ↔ w.Whole bytes := by
  cases w with
  | accepts n => exact List.take_eq_self_iff bytes
  | eintr =>
    simp only [accepted, WriteResult.Whole, iff_false]
    rintro rfl
    exact absurd positive (Nat.lt_irrefl 0)

/-- Whatever the results, nothing is sent twice or out of order. -/
theorem sentOf_sublist (results : Nat → WriteResult) (k : Nat) (l : List (List Byte)) :
    (sentOf results k l).Sublist l.flatten := by
  induction l generalizing k with
  | nil => exact List.nil_sublist []
  | cons bytes rest ih => exact (accepted_sublist (results k) bytes).append (ih (k + 1))

theorem sentOf_eq_iff (results : Nat → WriteResult) (k : Nat) {l : List (List Byte)}
    (positive : ∀ bytes ∈ l, 0 < bytes.length) :
    sentOf results k l = l.flatten ↔
      ∀ i bytes, l[i]? = some bytes → (results (k + i)).Whole bytes := by
  induction l generalizing k with
  | nil => simp [sentOf]
  | cons bytes rest ih =>
    have here := accepted_eq_iff (results k) (positive bytes List.mem_cons_self)
    have behind := ih (k + 1) fun b mem => positive b (List.mem_cons_of_mem bytes mem)
    constructor
    · intro same i b at_i
      -- A byte missing here is not made up for later.
      have lengths : (accepted (results k) bytes).length = bytes.length := by
        have first := (accepted_sublist (results k) bytes).length_le
        have others := (sentOf_sublist results (k + 1) rest).length_le
        have total := congrArg List.length same
        simp only [sentOf, List.flatten_cons, List.length_append] at total
        omega
      obtain ⟨first, others⟩ := List.append_inj same lengths
      cases i with
      | zero =>
        cases at_i
        exact here.mp first
      | succ i =>
        rw [Nat.add_comm i 1, ← Nat.add_assoc]
        exact behind.mp others i b at_i
    · intro whole
      have first := here.mpr (whole 0 bytes rfl)
      have others := behind.mpr fun i b at_i => by
        rw [Nat.add_assoc, Nat.add_comm 1 i]
        exact whole (i + 1) b at_i
      rw [sentOf, first, others, List.flatten_cons]

theorem chunks_positive (reads : List ReadResult) : ∀ bytes ∈ chunks reads, 0 < bytes.length := by
  induction reads with
  | nil => simp [chunks]
  | cons r reads ih =>
    cases r with
    | data chunk =>
      rw [chunks, List.forall_mem_cons]
      exact ⟨chunk.positive, ih⟩
    | eintr => exact ih
    | eof | error => simp [chunks]

/-- After end of file everything read has been sent back exactly if every write took
the whole of its chunk. -/
theorem str_echo_echoes_iff (results : Nat → WriteResult) (reads : List ReadResult)
    (continues : ∀ r ∈ reads, r.Continues) :
    ∃ c, str_echo results (reads ++ [.eof]) connected = some (c, .eof) ∧
      (c.sent = (chunks reads).flatten ↔
        ∀ k bytes, (chunks reads)[k]? = some bytes → (results k).Whole bytes) := by
  refine ⟨_, str_echo_eof results connected continues, ?_⟩
  have exact_iff := sentOf_eq_iff results 0 (chunks_positive reads)
  simpa [connected] using exact_iff

def helloChunk : Chunk 1024 := ⟨[0x68, 0x65, 0x6c, 0x6c, 0x6f], by decide, by decide⟩

theorem str_echo_echoes_iff_hello :
    ∃ c, str_echo (fun _ => .accepts 4096) [.eintr, .data helloChunk, .eof] connected = some (c, .eof) ∧
      c.sent = helloChunk.bytes := by
  obtain ⟨c, returns, echoes⟩ := str_echo_echoes_iff (fun _ => .accepts 4096)
    [.eintr, .data helloChunk] (by simp [ReadResult.Continues])
  refine ⟨c, returns, echoes.mpr fun k bytes at_k => ?_⟩
  have mem : bytes ∈ [helloChunk.bytes] := List.mem_of_getElem? at_k
  rw [List.mem_singleton.mp mem]
  exact Nat.le_of_ble_eq_true rfl

/-- The write takes two of the five bytes, and the other three are not sent again. -/
theorem short_write_loses_bytes :
    ∃ c, str_echo (fun _ => .accepts 2) [.data helloChunk, .eof] connected = some (c, .eof) ∧
      c.sent ≠ (chunks [.data helloChunk]).flatten := by
  exact ⟨_, rfl, by decide⟩

/-! The client. -/

def MAXLINE : Nat := 4096
def newline : Byte := 0x0a

/-- fgets: a line and the rest of the input, or NULL at its end. The line is cut to what
fits into n bytes with the terminator. -/
def fgets (n : Nat) (input : List Byte) : Option (List Byte × List Byte) :=
  if input = [] then none
  else
    let line := pieceWithin newline (n - 1) input
    some (line, input.drop line.length)

/-- What happens to the read of a pass: it returns n bytes, the end of file, or -1. -/
inductive Reply where
  | data (n : Nat)
  | eof
  | error

structure Turn where
  reply : Reply
  -- fputs returns EOF.
  unprinted : Bool

inductive Status where
  | running
  | exited (code : Nat)
  deriving DecidableEq

structure Client where
  stdin : List Byte
  -- The memory from buffer on.
  buffer : List Byte
  -- Sent back by the server and not read yet.
  echo : List Byte
  stdout : List Byte
  status : Status

def fputs (unprinted : Bool) (c : Client) : Client :=
  if unprinted then { c with status := .exited 1 }
  else { c with stdout := c.stdout ++ string 0 c.buffer }

/-- The rest of a pass: the read over the line in the buffer, and the output. No
terminator is stored, and an error of read is not looked at. -/
def receive (turn : Turn) (c : Client) : Client :=
  match turn.reply with
  | .eof => { c with status := .exited 1 }
  | .error => fputs turn.unprinted c
  | .data n =>
    fputs turn.unprinted
      { c with buffer := overwrite (c.echo.take n) c.buffer, echo := c.echo.drop n }

/-- One pass of the loop of main. The write is accepted in full, and all of it comes back. -/
def pass (c : Client) (turn : Turn) : Client :=
  if c.status ≠ .running then c
  else match fgets MAXLINE c.stdin with
    | none => { c with status := .exited 0 }
    | some (line, rest) =>
      let buffer := overwrite (line ++ [0]) c.buffer
      receive turn { c with stdin := rest, buffer := buffer, echo := c.echo ++ string 0 buffer }

def started (input buffer : List Byte) : Client := ⟨input, buffer, [], [], .running⟩

/-- The client after as many lines as there are reads. -/
def afterReads (c : Client) (reads : List Nat) : Client :=
  (reads.map fun n => (⟨.data n, false⟩ : Turn)).foldl pass c

def lines (input : List Byte) : List (List Byte) := pieces newline input

/-- One read for each line, of at least one byte and no more than have come back, of
which there were some before. -/
def Segments : Nat → List (List Byte) → List Nat → Prop
  | _, [], [] => True
  | before, line :: rest, n :: reads =>
    0 < n ∧ n ≤ MAXLINE ∧ n ≤ before + line.length ∧ Segments (before + line.length - n) rest reads
  | _, _, _ => False

/-- Each read returns no more bytes than its line has, and those that it returns, from
its position in the stream on, are the first ones of the line. -/
def Matching (stream : List Byte) (ls : List (List Byte)) (reads : List Nat) : Prop :=
  ∀ k line n, ls[k]? = some line → reads[k]? = some n →
    n ≤ line.length ∧ (stream.drop (reads.take k).sum).take n = line.take n

theorem matching_cons {stream line : List Byte} {rest : List (List Byte)} {n : Nat} {reads : List Nat} :
    Matching stream (line :: rest) (n :: reads) ↔
      (n ≤ line.length ∧ stream.take n = line.take n) ∧ Matching (stream.drop n) rest reads := by
  constructor
  · intro h
    refine ⟨h 0 line n rfl rfl, fun k l m at_k read_k => ?_⟩
    have next := h (k + 1) l m at_k read_k
    rw [List.take_succ_cons, List.sum_cons] at next
    rw [List.drop_drop]
    exact next
  · rintro ⟨first, later⟩ k l m at_k read_k
    cases k with
    | zero =>
      cases at_k
      cases read_k
      exact first
    | succ k =>
      have next := later k l m at_k read_k
      rw [List.drop_drop] at next
      rw [List.take_succ_cons, List.sum_cons]
      exact next

theorem afterReads_cons (c : Client) (n : Nat) (reads : List Nat) :
    afterReads c (n :: reads) = afterReads (pass c ⟨.data n, false⟩) reads := rfl

/-- A line that fgets reads whole, and that strlen sees whole. -/
def Fits (line : List Byte) : Prop := line.length ≤ 4095 ∧ 0 ∉ line

theorem fgets_line {input line : List Byte} {rest : List (List Byte)}
    (cut : lines input = line :: rest) (fits : Fits line) :
    fgets MAXLINE input = some (line, rest.flatten) := by
  have whole : (line :: rest).flatten = input := by
    rw [← cut]
    exact pieces_flatten newline input
  have some_input : input ≠ [] := by
    rintro rfl
    cases cut
  rw [fgets, if_neg some_input, pieceWithin_eq (n := MAXLINE - 1) cut fits.1, ← whole]
  simp only [List.flatten_cons, List.drop_left]

/-- One pass with a line: what stdout gets is the string that the read has left over the line. -/
theorem pass_line {c : Client} {line : List Byte} {rest : List (List Byte)} (n : Nat)
    (running : c.status = .running) (cut : lines c.stdin = line :: rest) (fits : Fits line) :
    ∃ tail, pass c ⟨.data n, false⟩ =
      { stdin := rest.flatten
        buffer := overwrite ((c.echo ++ line).take n) (line ++ 0 :: tail)
        echo := (c.echo ++ line).drop n
        stdout := c.stdout ++ string 0 (overwrite ((c.echo ++ line).take n) (line ++ 0 :: tail))
        status := .running } := by
  have stored : overwrite (line ++ [0]) c.buffer = line ++ 0 :: c.buffer.drop (line.length + 1) := by
    simp [overwrite]
  refine ⟨c.buffer.drop (line.length + 1), ?_⟩
  simp only [pass, running, ne_eq, not_true_eq_false, if_false, fgets_line cut fits, stored,
    string_terminated fits.2, receive, fputs, Bool.false_eq_true]

theorem printed_iff {echo line : List Byte} (tail : List Byte) {n : Nat} (clean : 0 ∉ echo) (fits : Fits line)
    (there : n ≤ echo.length + line.length) :
    string 0 (overwrite ((echo ++ line).take n) (line ++ 0 :: tail)) = line ↔
      n ≤ line.length ∧ (echo ++ line).take n = line.take n := by
  have plain : (0 : Byte) ∉ echo ++ line := List.not_mem_append clean fits.2
  have both : (0 : Byte) ∉ (echo ++ line).take n := fun mem => plain (List.mem_of_mem_take mem)
  have length : ((echo ++ line).take n).length = n := by
    rw [List.length_take, List.length_append, Nat.min_eq_left there]
  rw [string_overwrite_iff fits.2 both, length]

theorem forall_le_succ_iff {P : Nat → Prop} {m : Nat} :
    (∀ k ≤ m + 1, P k) ↔ P 0 ∧ ∀ k ≤ m, P (k + 1) := by
  constructor
  · intro h
    exact ⟨h 0 (Nat.zero_le _), fun k le => h (k + 1) (Nat.succ_le_succ le)⟩
  · rintro ⟨zero, later⟩ k le
    cases k with
    | zero => exact zero
    | succ k => exact later k (Nat.le_of_succ_le_succ le)

theorem stdout_iff {c : Client} {ls : List (List Byte)} {reads : List Nat}
    (running : c.status = .running) (cut : lines c.stdin = ls) (clean : 0 ∉ c.echo)
    (fits : ∀ line ∈ ls, Fits line) (segments : Segments c.echo.length ls reads) :
    (∀ k ≤ ls.length, (afterReads c (reads.take k)).stdout = c.stdout ++ (ls.take k).flatten) ↔
      Matching (c.echo ++ ls.flatten) ls reads := by
  induction ls generalizing c reads with
  | nil =>
    constructor
    · intro _ k line n at_k
      simp at at_k
    · intro _ k le
      obtain rfl : k = 0 := Nat.le_zero.mp le
      simp [afterReads]
  | cons line rest ih =>
    cases reads with
    | nil => exact segments.elim
    | cons n reads =>
      obtain ⟨-, -, there, later⟩ := segments
      have this_fits := fits line List.mem_cons_self
      obtain ⟨tail, passed⟩ := pass_line n running cut this_fits
      have printed := printed_iff tail clean this_fits there
      have within : n ≤ (c.echo ++ line).length := by rw [List.length_append]; exact there
      have taken : (c.echo ++ (line :: rest).flatten).take n = (c.echo ++ line).take n := by
        rw [List.flatten_cons, ← List.append_assoc, List.take_append_of_le_length within]
      have dropped : (c.echo ++ (line :: rest).flatten).drop n =
          (c.echo ++ line).drop n ++ rest.flatten := by
        rw [List.flatten_cons, ← List.append_assoc, List.drop_append_of_le_length within]
      have plain : (0 : Byte) ∉ c.echo ++ line := List.not_mem_append clean this_fits.2
      have kept : (0 : Byte) ∉ (c.echo ++ line).drop n := fun mem => plain (List.mem_of_mem_drop mem)
      have left : ((c.echo ++ line).drop n).length = c.echo.length + line.length - n := by
        rw [List.length_drop, List.length_append]
      have behind : Segments (pass c ⟨.data n, false⟩).echo.length rest reads := by
        rw [passed, left]
        exact later
      have next := ih (by rw [passed]) (by rw [passed]; exact pieces_rest cut)
        (by rw [passed]; exact kept) (fun l mem => fits l (List.mem_cons_of_mem line mem)) behind
      rw [matching_cons, taken, dropped, ← printed, List.length_cons, forall_le_succ_iff]
      simp only [List.take_succ_cons, afterReads_cons, List.flatten_cons, ← List.append_assoc]
      rw [passed] at next ⊢
      constructor
      · rintro ⟨-, all⟩
        have first := all 0 (Nat.zero_le _)
        simp only [List.take_zero, afterReads, List.map_nil, List.foldl_nil, List.flatten_nil,
          List.append_nil] at first
        have right := List.append_cancel_left first
        rw [right] at next all ⊢
        exact ⟨rfl, next.mp all⟩
      · rintro ⟨right, matching⟩
        rw [right] at next ⊢
        exact ⟨by simp [afterReads], next.mpr matching⟩

/-- What the client prints, in a run with any cut of the echo into segments. -/
theorem client_prints_lines_iff (input buffer : List Byte) (reads : List Nat)
    (fits : ∀ line ∈ lines input, Fits line) (segments : Segments 0 (lines input) reads) :
    (∀ k ≤ (lines input).length,
      (afterReads (started input buffer) (reads.take k)).stdout = ((lines input).take k).flatten) ↔
    Matching input (lines input) reads := by
  have general := stdout_iff (c := started input buffer) rfl rfl (by simp [started]) fits segments
  simpa [started, lines] using general

theorem matching_whole (ls : List (List Byte)) : Matching ls.flatten ls (ls.map List.length) := by
  induction ls with
  | nil =>
    intro k line n at_k
    simp at at_k
  | cons line rest ih =>
    rw [List.map_cons, matching_cons, List.flatten_cons, List.take_left, List.drop_left]
    exact ⟨⟨Nat.le_refl _, List.take_length.symm⟩, ih⟩

/-- The lines "ab" and "cd". -/
def twoLines : List Byte := [0x61, 0x62, 0x0a, 0x63, 0x64, 0x0a]

theorem twoLines_fit : ∀ line ∈ lines twoLines, Fits line := by
  intro line mem
  have cases : line = [0x61, 0x62, 0x0a] ∨ line = [0x63, 0x64, 0x0a] := by
    simpa [lines, twoLines, pieces, newline] using mem
  rcases cases with rfl | rfl
  all_goals exact ⟨by simp, by decide⟩

theorem client_prints_lines_iff_whole_lines :
    Segments 0 (lines twoLines) [3, 3] ∧ ∀ k ≤ 2,
      (afterReads (started twoLines []) ([3, 3].take k)).stdout = ((lines twoLines).take k).flatten := by
  have segments : Segments 0 (lines twoLines) [3, 3] :=
    ⟨by decide, by decide, by decide, by decide, by decide, by decide, trivial⟩
  exact ⟨segments, (client_prints_lines_iff twoLines [] [3, 3] twoLines_fit segments).mpr
    (matching_whole (lines twoLines))⟩

/-- The first read returns one byte of "ab", which prints well since the others are still
in the buffer. The second prints the bytes left over. -/
theorem short_read_prints_wrong :
    (∀ line ∈ lines twoLines, Fits line) ∧ Segments 0 (lines twoLines) [1, 3] ∧
    (afterReads (started twoLines []) [1, 3]).stdout = [0x61, 0x62, 0x0a, 0x62, 0x0a, 0x63] ∧
    (afterReads (started twoLines []) [1, 3]).stdout ≠ ((lines twoLines).take 2).flatten := by
  refine ⟨twoLines_fit, ?_, by decide, by decide⟩
  exact ⟨by decide, by decide, by decide, by decide, by decide, by decide, trivial⟩

end Tiny6410.Echo
