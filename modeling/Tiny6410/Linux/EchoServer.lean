import Mathlib
import Tiny6410.Linux.Echo

/-! The processes of linux-example/socket_echo_server/echo_server.c: the loop of main, its
children, and sig_child, which interrupts main. -/
namespace Tiny6410.EchoServer

open Echo

/-- What a descriptor refers to: listenfd, or a connection by the number of its accept. -/
inductive File where
  | listening
  | connection (n : Nat)
  deriving DecidableEq

/-- A child in front of its close of listenfd, in str_echo, after its exit, and after the
waitpid that has returned it. -/
inductive Stage where
  | forked
  | serving (reads : List ReadResult) (c : Connection)
  | zombie (c : Connection) (exit : Exit)
  | reaped (c : Connection) (exit : Exit)

structure Child where
  pid : Nat
  -- None for the -1 of an accept that has failed.
  connfd : Option Nat
  files : List File
  stage : Stage

/-- The next statement of main, or where it has left after a fork that failed. -/
inductive Main where
  | accept
  | fork (connfd : Option Nat)
  | close (connfd : Option Nat)
  | exited (connfd : Option Nat)

structure Server where
  main : Main
  files : List File
  -- sig_child runs.
  handler : Bool
  -- A SIGCHLD was sent and not delivered. A second one is not kept.
  pending : Bool
  accepted : Nat
  children : List Child
  -- The pids of the calls of printf in sig_child. What a child takes over in the buffer of
  -- stdout at its fork, and writes once more at its exit, is left out.
  printed : List Nat

/-- What comes from the peer of each connection, and the results of the writes to it. -/
structure Peers where
  reads : Nat → List ReadResult
  results : Nat → Nat → WriteResult

/-- There is nothing to read from the descriptor -1. -/
def Peers.input (peers : Peers) : Option Nat → List ReadResult
  | some n => peers.reads n
  | none => [.error]

def Peers.output (peers : Peers) : Option Nat → Nat → WriteResult
  | some n => peers.results n
  | none => fun _ => .eintr

inductive Action where
  | accept (connected : Bool)
  -- The pid of the child, or none for -1.
  | fork (pid : Option Nat)
  | close
  | child (i : Nat)
  | deliver
  | waitpid (i : Nat)
  | leave

def Main.running : Main → Bool
  | .exited _ => false
  | _ => true

/-- The close of a connection. That of -1 does nothing. -/
def closeFile (connfd : Option Nat) (files : List File) : List File :=
  match connfd with
  | some n => files.erase (.connection n)
  | none => files

/-- One pass of the loop of str_echo, up to exit. -/
def passChild (peers : Peers) (child : Child) : Option Child :=
  match child.stage with
  | .forked =>
    some { child with
      files := child.files.erase .listening
      stage := .serving (peers.input child.connfd) connected }
  | .serving (.data chunk :: reads) c =>
    let sent := accepted (peers.output child.connfd c.writes) chunk.bytes
    some { child with stage := .serving reads ⟨c.writes + 1, c.sent ++ sent⟩ }
  | .serving (.eintr :: reads) c => some { child with stage := .serving reads c }
  | .serving (.eof :: _) c => some { child with files := [], stage := .zombie c .eof }
  | .serving (.error :: _) c => some { child with files := [], stage := .zombie c .perror }
  | .serving [] _ | .zombie _ _ | .reaped _ _ => none

def Child.zombie (child : Child) : Bool :=
  match child.stage with
  | .zombie _ _ => true
  | _ => false

def Child.reaped (child : Child) : Bool :=
  match child.stage with
  | .reaped _ _ => true
  | _ => false

def Child.result (child : Child) : Option (Connection × Exit) :=
  match child.stage with
  | .zombie c exit | .reaped c exit => some (c, exit)
  | _ => none

/-- The handler runs in the process of main, so the two do not overlap. -/
def step (peers : Peers) (s : Server) : Action → Option Server
  | .accept connected =>
    match s.handler, s.main with
    | false, .accept =>
      if connected then
        some { s with
          main := .fork (some s.accepted)
          files := s.files ++ [.connection s.accepted]
          accepted := s.accepted + 1 }
      else some { s with main := .fork none }
    | _, _ => none
  | .fork pid =>
    match s.handler, s.main with
    | false, .fork connfd =>
      match pid with
      | none => some { s with main := .exited connfd, files := [] }
      | some pid =>
        some { s with main := .close connfd, children := s.children ++ [⟨pid, connfd, s.files, .forked⟩] }
    | _, _ => none
  | .close =>
    match s.handler, s.main with
    | false, .close connfd => some { s with main := .accept, files := closeFile connfd s.files }
    | _, _ => none
  | .child i => do
    let child ← s.children[i]?
    let child ← passChild peers child
    some { s with
      children := s.children.set i child
      pending := s.pending || (child.zombie && s.main.running) }
  | .deliver =>
    if s.main.running && s.pending && !s.handler then some { s with handler := true, pending := false }
    else none
  | .waitpid i => do
    let child ← s.children[i]?
    match s.handler, child.stage with
    | true, .zombie c exit =>
      some { s with
        children := s.children.set i { child with stage := .reaped c exit }
        printed := s.printed ++ [child.pid] }
    | _, _ => none
  -- waitpid with WNOHANG returns no pid: no child has ended.
  | .leave =>
    if s.handler && !s.children.any Child.zombie then some { s with handler := false } else none

def run (peers : Peers) (s : Server) : List Action → Option Server
  | [] => some s
  | a :: rest => (step peers s a).bind fun s => run peers s rest

/-- In front of the loop, with sig_child installed. -/
def start : Server := ⟨.accept, [.listening], false, false, 0, [], []⟩

def opened : Option Nat → List File
  | some n => [.connection n]
  | none => []

def Main.files : Main → List File
  | .accept => [.listening]
  | .fork connfd | .close connfd => .listening :: opened connfd
  | .exited _ => []

/-- An accepted connection that no child has. -/
def Main.unserved : Main → Option Nat
  | .fork connfd | .exited connfd => connfd
  | .accept | .close _ => none

/-- A child has no descriptor of a connection that is not its own, and what is left of its
str_echo leads to where the whole of it does. -/
def Sound (peers : Peers) (child : Child) : Prop :=
  let output := peers.output child.connfd
  let input := peers.input child.connfd
  match child.stage with
  | .forked => child.files = .listening :: opened child.connfd
  | .serving reads c =>
    child.files = opened child.connfd ∧ str_echo output input connected = str_echo output reads c
  | .zombie c exit | .reaped c exit =>
    child.files = [] ∧ str_echo output input connected = some (c, exit)

structure Inv (peers : Peers) (s : Server) : Prop where
  files : s.files = s.main.files
  served : s.children.filterMap Child.connfd ++ s.main.unserved.toList = List.range s.accepted
  sound : ∀ child ∈ s.children, Sound peers child
  signalled : s.main.running = true → s.children.any Child.zombie = true → s.handler = true ∨ s.pending = true
  printed : s.printed.Perm ((s.children.filter Child.reaped).map Child.pid)

section

variable {peers : Peers} {s t : Server}

theorem inv_start : Inv peers start :=
  ⟨rfl, rfl, by simp [start], by simp [start], .refl _⟩

theorem close_opened (connfd : Option Nat) : closeFile connfd (.listening :: opened connfd) = [.listening] := by
  cases connfd with
  | none => rfl
  | some n => simp [closeFile, opened]

theorem erase_listening (connfd : Option Nat) : (File.listening :: opened connfd).erase .listening = opened connfd := by
  simp

theorem set_split {α : Type} {l : List α} {i : Nat} {a : α} (here : l[i]? = some a) (b : α) :
    ∃ before after, l = before ++ a :: after ∧ l.set i b = before ++ b :: after := by
  obtain ⟨inside, rfl⟩ := List.getElem?_eq_some_iff.mp here
  refine ⟨l.take i, l.drop (i + 1), ?_, List.set_eq_take_append_cons_drop.trans (if_pos inside)⟩
  rw [List.cons_getElem_drop_succ, List.take_append_drop]

/-- What one step of a child changes. -/
theorem passChild_sound {child next : Child} (sound : Sound peers child) (passes : passChild peers child = some next) :
    Sound peers next ∧ next.pid = child.pid ∧ next.connfd = child.connfd ∧
      child.zombie = false ∧ child.reaped = false ∧ next.reaped = false := by
  obtain ⟨pid, connfd, files, stage⟩ := child
  cases stage with
  | forked =>
    cases passes
    have own : files = .listening :: opened connfd := sound
    refine ⟨⟨?_, rfl⟩, rfl, rfl, rfl, rfl, rfl⟩
    rw [own]
    exact erase_listening connfd
  | serving reads c =>
    obtain ⟨own, same⟩ := sound
    cases reads with
    | nil => cases passes
    | cons r reads =>
      cases r with
      | data chunk => cases passes; exact ⟨⟨own, same⟩, rfl, rfl, rfl, rfl, rfl⟩
      | eintr => cases passes; exact ⟨⟨own, same⟩, rfl, rfl, rfl, rfl, rfl⟩
      | eof => cases passes; exact ⟨⟨rfl, same⟩, rfl, rfl, rfl, rfl, rfl⟩
      | error => cases passes; exact ⟨⟨rfl, same⟩, rfl, rfl, rfl, rfl, rfl⟩
  | zombie c exit => cases passes
  | reaped c exit => cases passes

/-! One lemma for each action. -/

theorem accept_inv (inv : Inv peers s) (here : s.main = .accept) :
    Inv peers { s with
      main := .fork (some s.accepted)
      files := s.files ++ [.connection s.accepted]
      accepted := s.accepted + 1 } := by
  obtain ⟨files, served, sound, signalled, printed⟩ := inv
  rw [here] at files served signalled
  refine ⟨?_, ?_, sound, fun _ => signalled rfl, printed⟩
  · simp only [files, Main.files, opened, List.singleton_append]
  · simp only [Main.unserved, Option.toList_none, List.append_nil] at served
    simp only [Main.unserved, Option.toList_some, served, List.range_succ]

theorem accept_fails_inv (inv : Inv peers s) (here : s.main = .accept) : Inv peers { s with main := .fork none } := by
  obtain ⟨files, served, sound, signalled, printed⟩ := inv
  rw [here] at files served signalled
  exact ⟨files, served, sound, fun _ => signalled rfl, printed⟩

theorem fork_fails_inv {connfd : Option Nat} (inv : Inv peers s) (here : s.main = .fork connfd) :
    Inv peers { s with main := .exited connfd, files := [] } := by
  obtain ⟨-, served, sound, -, printed⟩ := inv
  rw [here] at served
  exact ⟨rfl, served, sound, fun running => Bool.noConfusion running, printed⟩

theorem fork_inv {connfd : Option Nat} (inv : Inv peers s) (here : s.main = .fork connfd) (pid : Nat) :
    Inv peers { s with main := .close connfd, children := s.children ++ [⟨pid, connfd, s.files, .forked⟩] } := by
  obtain ⟨files, served, sound, signalled, printed⟩ := inv
  rw [here] at files served signalled
  refine ⟨files, ?_, ?_, ?_, ?_⟩
  · rw [← served, List.filterMap_append]
    cases connfd <;> simp [Main.unserved]
  · rw [List.forall_mem_append]
    exact ⟨sound, List.forall_mem_singleton.mpr files⟩
  · intro _ ended
    have before : s.children.any Child.zombie = true := by simpa [Child.zombie] using ended
    exact signalled rfl before
  · simpa [Child.reaped] using printed

theorem close_inv {connfd : Option Nat} (inv : Inv peers s) (here : s.main = .close connfd) :
    Inv peers { s with main := .accept, files := closeFile connfd s.files } := by
  obtain ⟨files, served, sound, signalled, printed⟩ := inv
  rw [here] at files served signalled
  refine ⟨?_, served, sound, fun _ => signalled rfl, printed⟩
  rw [files]
  exact close_opened connfd

theorem child_inv {i : Nat} {child next : Child} (inv : Inv peers s) (here : s.children[i]? = some child)
    (passes : passChild peers child = some next) :
    Inv peers { s with
      children := s.children.set i next
      pending := s.pending || (next.zombie && s.main.running) } := by
  obtain ⟨files, served, sound, signalled, printed⟩ := inv
  obtain ⟨before, after, split, changed⟩ := set_split here next
  have mem : child ∈ s.children := List.mem_of_getElem? here
  obtain ⟨fits, pid, connfd, alive, kept, fresh⟩ := passChild_sound (sound child mem) passes
  rw [split] at served sound signalled printed
  refine ⟨files, ?_, ?_, ?_, ?_⟩
  · rw [changed, ← served]
    simp only [List.filterMap_append, List.filterMap_cons, connfd]
  · intro c mem
    rw [changed, List.mem_append, List.mem_cons] at mem
    rcases mem with first | rfl | last
    · exact sound c (List.mem_append_left _ first)
    · exact fits
    · exact sound c (List.mem_append_right _ (List.mem_cons_of_mem _ last))
  · intro running ended
    simp only [changed, List.any_append, List.any_cons] at ended
    simp only [List.any_append, List.any_cons, alive, Bool.false_or] at signalled
    cases zombie : next.zombie with
    | true => exact .inr (by simp [running])
    | false =>
      rw [zombie, Bool.false_or] at ended
      exact (signalled running ended).imp_right fun pending => by rw [pending, Bool.true_or]
  · rw [changed]
    simpa [List.filter_cons, kept, fresh] using printed

theorem deliver_inv (inv : Inv peers s) : Inv peers { s with handler := true, pending := false } :=
  ⟨inv.files, inv.served, inv.sound, fun _ _ => .inl rfl, inv.printed⟩

theorem waitpid_inv {i : Nat} {child : Child} {c : Connection} {exit : Exit} (inv : Inv peers s)
    (here : s.children[i]? = some child) (handler : s.handler = true) (stage : child.stage = .zombie c exit) :
    Inv peers { s with
      children := s.children.set i { child with stage := .reaped c exit }
      printed := s.printed ++ [child.pid] } := by
  obtain ⟨files, served, sound, -, printed⟩ := inv
  obtain ⟨before, after, split, changed⟩ := set_split here { child with stage := .reaped c exit }
  have fits := sound child (List.mem_of_getElem? here)
  have kept : child.reaped = false := by rw [Child.reaped, stage]
  rw [split] at served sound printed
  refine ⟨files, ?_, ?_, fun _ _ => .inl handler, ?_⟩
  · rw [changed, ← served]
    simp only [List.filterMap_append, List.filterMap_cons]
  · intro d mem
    rw [changed, List.mem_append, List.mem_cons] at mem
    rcases mem with first | rfl | last
    · exact sound d (List.mem_append_left _ first)
    · simpa [Sound, stage] using fits
    · exact sound d (List.mem_append_right _ (List.mem_cons_of_mem _ last))
  · simp only [List.filter_append, List.filter_cons, kept, Bool.false_eq_true, if_false, List.map_append] at printed
    simp only [changed, List.filter_append, List.filter_cons, Child.reaped, if_true, List.map_append, List.map_cons]
    exact (printed.append_right [child.pid]).trans (by
      rw [List.append_assoc]
      exact (List.perm_append_singleton _ _).append_left _)

theorem leave_inv (inv : Inv peers s) (none : s.children.any Child.zombie = false) :
    Inv peers { s with handler := false } :=
  ⟨inv.files, inv.served, inv.sound, fun _ ended => absurd (none.symm.trans ended) Bool.false_ne_true, inv.printed⟩

theorem step_inv {a : Action} (inv : Inv peers s) (taken : step peers s a = some t) : Inv peers t := by
  cases a with
  | accept connected =>
    simp only [step] at taken
    split at taken
    · rename_i here
      split at taken <;> cases taken
      · exact accept_inv inv here
      · exact accept_fails_inv inv here
    · cases taken
  | fork pid =>
    simp only [step] at taken
    split at taken
    · rename_i connfd _ here
      cases pid with
      | none => cases taken; exact fork_fails_inv inv here
      | some pid => cases taken; exact fork_inv inv here pid
    · cases taken
  | close =>
    simp only [step] at taken
    split at taken
    · rename_i connfd _ here
      cases taken
      exact close_inv inv here
    · cases taken
  | child i =>
    simp only [step, Option.bind_eq_bind, Option.bind_eq_some_iff] at taken
    obtain ⟨child, here, next, passes, result⟩ := taken
    cases result
    exact child_inv inv here passes
  | deliver =>
    simp only [step] at taken
    split at taken <;> cases taken
    exact deliver_inv inv
  | waitpid i =>
    simp only [step, Option.bind_eq_bind, Option.bind_eq_some_iff] at taken
    obtain ⟨child, here, result⟩ := taken
    split at result
    · rename_i handler stage
      cases result
      exact waitpid_inv inv here handler stage
    · cases result
  | leave =>
    simp only [step] at taken
    split at taken
    · rename_i guard
      cases taken
      simp only [Bool.and_eq_true, Bool.not_eq_true'] at guard
      exact leave_inv inv guard.2
    · cases taken

theorem run_inv {actions : List Action} (inv : Inv peers s) (ran : run peers s actions = some t) : Inv peers t := by
  induction actions generalizing s with
  | nil =>
    cases ran
    exact inv
  | cons a rest ih =>
    obtain ⟨next, taken, later⟩ := Option.bind_eq_some_iff.mp ran
    exact ih (step_inv inv taken) later

/-! The handler to its end. -/

/-- What happens between two statements of main. -/
def Action.ofHandler : Action → Bool
  | .deliver | .waitpid _ | .leave => true
  | _ => false

theorem run_append (s : Server) (first rest : List Action) :
    run peers s (first ++ rest) = (run peers s first).bind fun t => run peers t rest := by
  induction first generalizing s with
  | nil => rfl
  | cons a first ih =>
    rw [List.cons_append, run, run, Option.bind_assoc]
    exact congrArg _ (funext ih)

theorem exists_zombie (ended : s.children.any Child.zombie = true) :
    ∃ (i : Nat) (child : Child) (c : Connection) (exit : Exit),
      s.children[i]? = some child ∧ child.stage = .zombie c exit := by
  obtain ⟨child, mem, zombie⟩ := List.any_eq_true.mp ended
  obtain ⟨i, here⟩ := List.mem_iff_getElem?.mp mem
  unfold Child.zombie at zombie
  split at zombie
  · rename_i c exit stage
    exact ⟨i, child, c, exit, here, stage⟩
  · cases zombie

theorem drains (s : Server) (handler : s.handler = true) :
    ∃ more t, (∀ a ∈ more, a.ofHandler = true) ∧ run peers s more = some t ∧
      t.handler = false ∧ t.pending = s.pending ∧ t.main = s.main := by
  generalize count : s.children.countP Child.zombie = n
  induction n generalizing s with
  | zero =>
    have none : s.children.any Child.zombie = false := by
      simpa [List.countP_eq_zero] using count
    refine ⟨[.leave], { s with handler := false }, by simp [Action.ofHandler], ?_, rfl, rfl, rfl⟩
    simp [run, step, handler, none]
  | succ n ih =>
    have ended : s.children.any Child.zombie = true := by
      obtain ⟨child, mem, zombie⟩ := List.countP_pos_iff.mp (by rw [count]; exact Nat.succ_pos n)
      exact List.any_eq_true.mpr ⟨child, mem, zombie⟩
    obtain ⟨i, child, c, exit, here, stage⟩ := exists_zombie ended
    obtain ⟨before, after, split, changed⟩ := set_split here { child with stage := .reaped c exit }
    have zombie : child.zombie = true := by rw [Child.zombie, stage]
    let next : Server := { s with
      children := s.children.set i { child with stage := .reaped c exit }
      printed := s.printed ++ [child.pid] }
    have fewer : next.children.countP Child.zombie = n := by
      rw [split, List.countP_append, List.countP_cons_of_pos zombie] at count
      have alive : ({ child with stage := .reaped c exit } : Child).zombie = false := rfl
      simp only [next, changed, List.countP_append, List.countP_cons, alive, Bool.false_eq_true, if_false]
      omega
    obtain ⟨more, t, actions, ran, result⟩ := ih next handler fewer
    have taken : step peers s (.waitpid i) = some next := by
      simp only [step, here, Option.bind_eq_bind, Option.bind_some, handler, stage, next]
    refine ⟨.waitpid i :: more, t, List.forall_mem_cons.mpr ⟨rfl, actions⟩, ?_, result⟩
    rw [run, taken]
    exact ran

theorem settles (s : Server) (running : s.main.running = true) :
    ∃ more t, (∀ a ∈ more, a.ofHandler = true) ∧ run peers s more = some t ∧
      t.handler = false ∧ t.pending = false ∧ t.main = s.main := by
  have idle : ∀ s : Server, s.main.running = true → s.handler = false →
      ∃ more t, (∀ a ∈ more, a.ofHandler = true) ∧ run peers s more = some t ∧
        t.handler = false ∧ t.pending = false ∧ t.main = s.main := by
    intro s running handler
    cases pending : s.pending with
    | false => exact ⟨[], s, by simp, rfl, handler, pending, rfl⟩
    | true =>
      obtain ⟨more, t, actions, ran, result⟩ := drains { s with handler := true, pending := false } rfl
      refine ⟨.deliver :: more, t, List.forall_mem_cons.mpr ⟨rfl, actions⟩, ?_, result⟩
      rw [run, step, if_pos (by simp [running, pending, handler])]
      exact ran
  cases handler : s.handler with
  | false => exact idle s running handler
  | true =>
    obtain ⟨first, u, before, ran, left, -, main⟩ := drains s handler
    obtain ⟨more, t, after, last, left, quiet, kept⟩ := idle u (main ▸ running) left
    refine ⟨first ++ more, t, List.forall_mem_append.mpr ⟨before, after⟩, ?_, left, quiet, kept.trans main⟩
    rw [run_append, ran]
    exact last

theorem result_isSome (child : Child) : child.result.isSome = (child.zombie || child.reaped) := by
  unfold Child.result Child.zombie Child.reaped
  cases child.stage <;> rfl

/-- However the signals of several children fall together, sig_child prints each child that has
ended, and each once, before there is no signal left. -/
theorem server_reaps {actions : List Action} (ran : run peers start actions = some s) (running : s.main.running = true) :
    s.printed.Perm ((s.children.filter Child.reaped).map Child.pid) ∧
      (s.handler = false → s.pending = false →
        s.printed.Perm ((s.children.filter fun child => child.result.isSome).map Child.pid)) ∧
      ∃ more t, (∀ a ∈ more, a.ofHandler = true) ∧ run peers s more = some t ∧
        t.handler = false ∧ t.pending = false ∧ t.main = s.main := by
  have inv := run_inv inv_start ran
  refine ⟨inv.printed, fun handler pending => ?_, settles s running⟩
  have none : s.children.any Child.zombie = false := by
    rw [Bool.eq_false_iff]
    intro ended
    simpa [handler, pending] using inv.signalled running ended
  have same : s.children.filter (fun child => child.result.isSome) = s.children.filter Child.reaped := by
    refine List.filter_congr fun child mem => ?_
    have alive : child.zombie = false := by
      rw [List.any_eq_false] at none
      simpa using none child mem
    rw [result_isSome, alive, Bool.false_or]
  rw [same]
  exact inv.printed

/-- Two peers that leave at once, after the first has said hello. -/
def twoPeers : Peers :=
  ⟨fun n => if n = 0 then [.data helloChunk, .eof] else [.eof], fun _ _ => .accepts 4096⟩

/-- Both children end before the one signal is delivered. -/
def twoConnections : List Action :=
  [.accept true, .fork (some 7), .close, .accept true, .fork (some 8), .close,
    .child 1, .child 0, .child 0, .child 1, .child 0, .deliver, .waitpid 1, .waitpid 0, .leave]

def afterTwo : Server :=
  ⟨.accept, [.listening], false, false, 2,
    [⟨7, some 0, [], .reaped ⟨1, helloChunk.bytes⟩ .eof⟩, ⟨8, some 1, [], .reaped ⟨0, []⟩ .eof⟩], [8, 7]⟩

theorem run_two : run twoPeers start twoConnections = some afterTwo := rfl

theorem server_reaps_two : afterTwo.printed.Perm [7, 8] :=
  (server_reaps run_two rfl).2.1 rfl rfl

/-- The k-th connection is that of one child at most, in the order of the accepts, and its child
ends where str_echo alone would, whatever the other processes do. -/
theorem server_serves {actions : List Action} (ran : run peers start actions = some s) :
    s.children.filterMap Child.connfd ++ s.main.unserved.toList = List.range s.accepted ∧
      ∀ child ∈ s.children, ∀ k c exit, child.connfd = some k → child.result = some (c, exit) →
        str_echo (peers.results k) (peers.reads k) connected = some (c, exit) := by
  have inv := run_inv inv_start ran
  refine ⟨inv.served, fun child mem k c exit connfd result => ?_⟩
  have sound := inv.sound child mem
  unfold Sound at sound
  unfold Child.result at result
  rw [connfd] at sound
  cases stage : child.stage with
  | forked | serving =>
    rw [stage] at result
    cases result
  | zombie | reaped =>
    rw [stage] at result sound
    cases result
    exact sound.2

theorem server_serves_two :
    str_echo (twoPeers.results 0) (twoPeers.reads 0) connected = some (⟨1, helloChunk.bytes⟩, .eof) :=
  (server_serves run_two).2 _ List.mem_cons_self 0 _ _ rfl rfl

/-- The connection that main has between accept and close. -/
def Main.held : Main → Option Nat
  | .fork connfd | .close connfd => connfd
  | .accept | .exited _ => none

def Server.Holds (s : Server) (k : Nat) : Prop :=
  .connection k ∈ s.files ∨ ∃ child ∈ s.children, .connection k ∈ child.files

theorem mem_opened (connfd : Option Nat) (k : Nat) : .connection k ∈ opened connfd ↔ connfd = some k := by
  cases connfd with
  | none => simp [opened]
  | some n => simp [opened, eq_comm]

theorem child_files {child : Child} (sound : Sound peers child) (k : Nat) :
    .connection k ∈ child.files ↔ child.connfd = some k ∧ child.result = none := by
  unfold Sound at sound
  unfold Child.result
  cases stage : child.stage with
  | forked =>
    rw [stage] at sound
    simp [show child.files = _ from sound, mem_opened]
  | serving =>
    rw [stage] at sound
    simp [sound.1, mem_opened]
  | zombie | reaped =>
    rw [stage] at sound
    simp [sound.1]

theorem main_files (main : Main) (k : Nat) : .connection k ∈ main.files ↔ main.held = some k := by
  cases main with
  | accept => simp [Main.files, Main.held]
  | fork connfd | close connfd => simp [Main.files, Main.held, mem_opened]
  | exited connfd => simp [Main.files, Main.held]

/-- No process keeps a connection that is not its own: it is closed as soon as main is
behind its close and its child has ended. -/
theorem server_closes {actions : List Action} (ran : run peers start actions = some s) (k : Nat) :
    ¬ s.Holds k ↔ s.main.held ≠ some k ∧
      ∀ child ∈ s.children, child.connfd = some k → child.result.isSome = true := by
  have inv := run_inv inv_start ran
  rw [Server.Holds, not_or, inv.files, main_files]
  refine and_congr_right fun _ => ⟨fun none child mem connfd => ?_, ?_⟩
  · rw [Option.isSome_iff_ne_none]
    intro result
    exact none ⟨child, mem, (child_files (inv.sound child mem) k).mpr ⟨connfd, result⟩⟩
  · rintro ended ⟨child, mem, there⟩
    obtain ⟨connfd, result⟩ := (child_files (inv.sound child mem) k).mp there
    have some := ended child mem connfd
    rw [result] at some
    cases some

theorem server_closes_two : ¬ afterTwo.Holds 0 :=
  (server_closes run_two 0).mpr ⟨nofun, by simp [afterTwo, Child.result]⟩

end

end Tiny6410.EchoServer
