import Tiny6410.Lib.Trace
import Tiny6410.Interrupt.Latch

/-! UART0 of no-os/interrupt/irq_advanced, written by the main program and by the key
interrupt. Before each byte the transmit FIFO is tested for full; a whole interrupt may
run between the test and the write of the main program. -/
namespace Tiny6410.UartRace

open Memory (Byte Word)
open Latch (Effect)
open Trace (Interleaving)

/-- The transmitter: the bytes in its FIFO, the bytes that have left it, and how often
UTXH0 was written while the FIFO was full. Such a byte is dropped. -/
structure Uart where
  fifo : List Byte
  line : List Byte
  overflows : Nat

variable (depth : Nat)

def Uart.UFSTAT0 (u : Uart) : Word := if u.fifo.length < depth then 0 else 1 <<< 14

def Uart.setUTXH0 (b : Byte) (u : Uart) : Uart :=
  if u.fifo.length < depth then { u with fifo := u.fifo ++ [b] }
  else { u with overflows := u.overflows + 1 }

def Uart.drain (u : Uart) : Uart :=
  match u.fifo with
  | [] => u
  | b :: rest => { u with fifo := rest, line := u.line ++ [b] }

/-! uart.c -/

def MAX_STRING_LENGTH : Nat := 250

/-- A string of C, without the zero that ends it. -/
structure CString where
  text : List Byte
  plain : (0 : Byte) ∉ text

def CString.ofString (s : String) : CString where
  text := (s.toList.map fun c => BitVec.ofNat 8 c.toNat).takeWhile (· ≠ 0)
  plain := fun zero => by simpa using List.mem_takeWhile_imp zero

/-- The bytes that the for loop writes, over the memory from string[index] on. -/
def sendLoop : List Byte → Nat → List Byte
  | [], _ => []
  | b :: rest, index =>
    if b ≠ 0 ∧ index < MAX_STRING_LENGTH then b :: sendLoop rest (index + 1) else []

inductive Call where
  | UART0_PutChar (data : Byte)
  | UART0_SendString (string : CString)

/-- The bytes that a call writes. -/
def Call.bytes : Call → List Byte
  | .UART0_PutChar data => [data]
  | .UART0_SendString string => sendLoop (string.text ++ [0]) 0

def Call.text : Call → List Byte
  | .UART0_PutChar data => [data]
  | .UART0_SendString string => string.text

/-- A sequence of calls under way. Each byte is a loop that reads UFSTAT0 until it has
found the FIFO not full, and then the write. -/
structure Sender where
  todo : List Byte
  checked : Bool

def Sender.access (p : Sender) (u : Uart) : Sender × Uart :=
  match p.todo with
  | [] => (p, u)
  | b :: rest =>
    if p.checked then (⟨rest, false⟩, u.setUTXH0 depth b)
    else ({ p with checked := u.UFSTAT0 depth &&& (1 <<< 14) = 0 }, u)

/-! key.c -/

def effectCalls : Effect → List Call
  | .UART0_SendString text => [.UART0_SendString (.ofString text)]
  | _ => []

/-- The calls of one interrupt, for the EINT0PEND that its tests read. -/
def key_irq_handler (eint0pend : Word) : List Call :=
  (List.range Latch.key_irq_handler.keys).flatMap fun k =>
    if eint0pend.getLsbD k then (Latch.keyBranch k).flatMap effectCalls else []

structure State where
  uart : Uart
  main : Sender
  handler : Sender
  -- What the interrupts so far were to send.
  asked : List Byte
  -- An interrupt has been taken since main last read UFSTAT0.
  interrupted : Bool

inductive Action where
  | drain
  -- The next access of the processor, of the handler while it runs.
  | access
  | key (eint0pend : Word)

def step (s : State) : Action → State
  | .drain => { s with uart := s.uart.drain }
  | .access =>
    if s.handler.todo = [] then
      let r := s.main.access depth s.uart
      { s with main := r.1, uart := r.2, interrupted := s.interrupted && s.main.checked }
    else
      let r := s.handler.access depth s.uart
      { s with handler := r.1, uart := r.2 }
  | .key eint0pend =>
    -- IRQ is masked while the handler runs.
    if s.handler.todo = [] then
      { s with
        handler := ⟨(key_irq_handler eint0pend).flatMap Call.bytes, false⟩
        asked := s.asked ++ (key_irq_handler eint0pend).flatMap Call.text
        interrupted := true }
    else s

def run (s : State) (actions : List Action) : State := actions.foldl (step depth) s

def initial (calls : List Call) : State where
  uart := ⟨[], [], 0⟩
  main := ⟨calls.flatMap Call.bytes, false⟩
  handler := ⟨[], false⟩
  asked := []
  interrupted := false

/-- The bytes sent so far are those of main and of the interrupts, but for what each
has still to send. -/
def Delivered (calls : List Call) (s : State) : Prop :=
  ∃ u v, calls.flatMap Call.text = u ++ s.main.todo ∧ s.asked = v ++ s.handler.todo ∧
    Interleaving u v (s.uart.line ++ s.uart.fifo)

/-- If an interrupt has come between test and write, main does not find the FIFO full
at the write. -/
def Roomy (s : State) : Action → Prop
  | .access => s.handler.todo = [] → s.main.todo ≠ [] → s.main.checked = true →
      s.interrupted = true → s.uart.fifo.length < depth
  | _ => True

instance (s : State) : ∀ a, Decidable (Roomy depth s a)
  | .access => inferInstanceAs (Decidable (_ → _ → _ → _ → _))
  | .drain | .key _ => isTrue trivial

def AllRoomy (s : State) : List Action → Prop
  | [] => True
  | a :: rest => Roomy depth s a ∧ AllRoomy (step depth s a) rest

instance decidableAllRoomy : ∀ s actions, Decidable (AllRoomy depth s actions)
  | _, [] => isTrue trivial
  | s, a :: rest =>
    have := decidableAllRoomy (step depth s a) rest
    inferInstanceAs (Decidable (_ ∧ _))

theorem sendLoop_text {text : List Byte} {index : Nat} (plain : (0 : Byte) ∉ text)
    (short : index + text.length ≤ MAX_STRING_LENGTH) : sendLoop (text ++ [0]) index = text := by
  induction text generalizing index with
  | nil => simp [sendLoop]
  | cons b rest ih =>
    rw [List.mem_cons, not_or] at plain
    rw [List.length_cons] at short
    have go : b ≠ 0 ∧ index < MAX_STRING_LENGTH := ⟨fun zero => plain.1 zero.symm, by omega⟩
    rw [List.cons_append, sendLoop, if_pos go, ih plain.2 (by omega)]

theorem Call.bytes_eq {c : Call} (short : c.text.length < MAX_STRING_LENGTH) : c.bytes = c.text := by
  cases c with
  | UART0_PutChar data => rfl
  | UART0_SendString string => exact sendLoop_text string.plain (by rw [Nat.zero_add]; exact short.le)

theorem bytes_flatMap {calls : List Call} (short : ∀ c ∈ calls, c.text.length < MAX_STRING_LENGTH) :
    calls.flatMap Call.bytes = calls.flatMap Call.text := by
  induction calls with
  | nil => rfl
  | cons c rest ih =>
    rw [List.flatMap_cons, List.flatMap_cons, Call.bytes_eq (short c List.mem_cons_self),
      ih fun c mem => short c (List.mem_cons_of_mem _ mem)]

theorem handler_short (eint0pend : Word) :
    ∀ c ∈ key_irq_handler eint0pend, c.text.length < MAX_STRING_LENGTH := by
  intro c mem
  obtain ⟨k, inside, mem⟩ := List.mem_flatMap.mp mem
  have branch : ∀ k ∈ List.range Latch.key_irq_handler.keys,
      ∀ c ∈ (Latch.keyBranch k).flatMap effectCalls, c.text.length < MAX_STRING_LENGTH := by
    decide
  split at mem
  · exact branch k inside c mem
  · cases mem

/-- Room in the FIFO stays once a sender has seen it, as long as no other one writes. -/
structure Sound (calls : List Call) (s : State) : Prop where
  clean : s.uart.overflows = 0
  delivered : Delivered calls s
  idle : s.handler.todo = [] → s.handler.checked = false
  handlerRoom : s.handler.checked = true → s.uart.fifo.length < depth
  mainRoom : s.main.checked = true → s.interrupted = false →
    s.handler.todo = [] ∧ s.uart.fifo.length < depth

variable {depth} {calls : List Call} {s : State}

theorem ufstat0_iff (u : Uart) : u.UFSTAT0 depth &&& (1 <<< 14) = 0 ↔ u.fifo.length < depth := by
  unfold Uart.UFSTAT0
  split
  · rename_i room
    exact iff_of_true (by decide) room
  · rename_i full
    exact iff_of_false (by decide) full

theorem setUTXH0_room {u : Uart} (b : Byte) (room : u.fifo.length < depth) :
    u.setUTXH0 depth b = { u with fifo := u.fifo ++ [b] } := if_pos room

theorem setUTXH0_full {u : Uart} (b : Byte) (full : ¬ u.fifo.length < depth) :
    u.setUTXH0 depth b = { u with overflows := u.overflows + 1 } := if_neg full

theorem drain_stream (u : Uart) : u.drain.line ++ u.drain.fifo = u.line ++ u.fifo := by
  unfold Uart.drain
  cases fifo : u.fifo <;> simp [fifo]

theorem drain_length (u : Uart) : u.drain.fifo.length ≤ u.fifo.length := by
  unfold Uart.drain
  cases fifo : u.fifo <;> simp [fifo]

theorem drain_overflows (u : Uart) : u.drain.overflows = u.overflows := by
  unfold Uart.drain
  cases u.fifo <;> rfl

theorem sound_drain (sound : Sound depth calls s) : Sound depth calls (step depth s .drain) where
  clean := (drain_overflows s.uart).trans sound.clean
  delivered := by
    obtain ⟨u, v, sent, asked, mixed⟩ := sound.delivered
    exact ⟨u, v, sent, asked, (drain_stream s.uart).symm ▸ mixed⟩
  idle := sound.idle
  handlerRoom := fun checked => (drain_length s.uart).trans_lt (sound.handlerRoom checked)
  mainRoom := fun checked quiet =>
    ⟨(sound.mainRoom checked quiet).1,
      (drain_length s.uart).trans_lt (sound.mainRoom checked quiet).2⟩

theorem sound_key (sound : Sound depth calls s) (eint0pend : Word) :
    Sound depth calls (step depth s (.key eint0pend)) := by
  by_cases free : s.handler.todo = []
  · have taken : step depth s (.key eint0pend) =
        { s with
          handler := ⟨(key_irq_handler eint0pend).flatMap Call.bytes, false⟩
          asked := s.asked ++ (key_irq_handler eint0pend).flatMap Call.text
          interrupted := true } := if_pos free
    rw [taken]
    obtain ⟨u, v, sent, asked, mixed⟩ := sound.delivered
    rw [free, List.append_nil] at asked
    refine ⟨sound.clean, ⟨u, v, sent, ?_, mixed⟩, fun _ => rfl, fun no => ?_, fun _ no => ?_⟩
    · rw [asked, bytes_flatMap (handler_short eint0pend)]
    · exact absurd no Bool.false_ne_true
    · exact absurd no.symm Bool.false_ne_true
  · have same : step depth s (.key eint0pend) = s := if_neg free
    rwa [same]

theorem access_nil {p : Sender} (u : Uart) (done : p.todo = []) : p.access depth u = (p, u) := by
  unfold Sender.access
  rw [done]

theorem access_check {p : Sender} {u : Uart} (more : p.todo ≠ []) (unchecked : p.checked = false) :
    p.access depth u = (⟨p.todo, u.fifo.length < depth⟩, u) := by
  unfold Sender.access
  cases todo : p.todo with
  | nil => exact absurd todo more
  | cons b rest => simp only [unchecked, ufstat0_iff, Bool.false_eq_true, if_false]

theorem access_write {p : Sender} {u : Uart} {b : Byte} {rest : List Byte}
    (todo : p.todo = b :: rest) (checked : p.checked = true) :
    p.access depth u = (⟨rest, false⟩, u.setUTXH0 depth b) := by
  unfold Sender.access
  rw [todo]
  exact if_pos checked

theorem sound_handler (sound : Sound depth calls s) (busy : s.handler.todo ≠ []) :
    Sound depth calls (step depth s .access) := by
  have turn : step depth s .access =
      { s with
        handler := (s.handler.access depth s.uart).1
        uart := (s.handler.access depth s.uart).2 } := if_neg busy
  rw [turn]
  have apart : s.main.checked = true → s.interrupted = false → False := fun checked quiet =>
    busy (sound.mainRoom checked quiet).1
  cases checked : s.handler.checked with
  | false =>
    rw [access_check busy checked]
    exact ⟨sound.clean, sound.delivered, fun free => absurd free busy, of_decide_eq_true,
      fun checked quiet => (apart checked quiet).elim⟩
  | true =>
    obtain ⟨b, rest, todo⟩ := List.exists_cons_of_ne_nil busy
    rw [access_write todo checked, setUTXH0_room b (sound.handlerRoom checked)]
    obtain ⟨u, v, sent, asked, mixed⟩ := sound.delivered
    refine ⟨sound.clean, ⟨u, v ++ [b], sent, ?_, ?_⟩, fun _ => rfl, fun no => ?_,
      fun checked quiet => (apart checked quiet).elim⟩
    · rw [asked, todo, List.append_assoc]
      rfl
    · rw [← List.append_assoc]
      exact mixed.snoc_right b
    · exact absurd no Bool.false_ne_true

theorem main_room (sound : Sound depth calls s) (roomy : Roomy depth s .access)
    (free : s.handler.todo = []) (more : s.main.todo ≠ []) (checked : s.main.checked = true) :
    s.uart.fifo.length < depth := by
  cases interrupted : s.interrupted with
  | false => exact (sound.mainRoom checked interrupted).2
  | true => exact roomy free more checked interrupted

theorem sound_main (sound : Sound depth calls s) (roomy : Roomy depth s .access)
    (free : s.handler.todo = []) : Sound depth calls (step depth s .access) := by
  have turn : step depth s .access =
      { s with
        main := (s.main.access depth s.uart).1
        uart := (s.main.access depth s.uart).2
        interrupted := s.interrupted && s.main.checked } := if_pos free
  rw [turn]
  by_cases more : s.main.todo = []
  · rw [access_nil _ more]
    refine ⟨sound.clean, sound.delivered, sound.idle, sound.handlerRoom, fun checked quiet => ?_⟩
    have seen : s.main.checked = true := checked
    rw [seen, Bool.and_true] at quiet
    exact sound.mainRoom checked quiet
  · cases checked : s.main.checked with
    | false =>
      rw [access_check more checked]
      exact ⟨sound.clean, sound.delivered, sound.idle, sound.handlerRoom,
        fun room _ => ⟨free, of_decide_eq_true room⟩⟩
    | true =>
      have room := main_room sound roomy free more checked
      obtain ⟨b, rest, todo⟩ := List.exists_cons_of_ne_nil more
      rw [access_write todo checked, setUTXH0_room b room]
      obtain ⟨u, v, sent, asked, mixed⟩ := sound.delivered
      have quiet := sound.idle free
      refine ⟨sound.clean, ⟨u ++ [b], v, ?_, asked, ?_⟩, sound.idle, fun no => ?_, fun no => ?_⟩
      · rw [sent, todo, List.append_assoc]
        rfl
      · rw [← List.append_assoc]
        exact mixed.snoc_left b
      · exact absurd (quiet.symm.trans no) Bool.false_ne_true
      · exact absurd no Bool.false_ne_true

theorem sound_step {a : Action} (sound : Sound depth calls s) (roomy : Roomy depth s a) :
    Sound depth calls (step depth s a) := by
  cases a with
  | drain => exact sound_drain sound
  | key eint0pend => exact sound_key sound eint0pend
  | access =>
    by_cases free : s.handler.todo = []
    · exact sound_main sound roomy free
    · exact sound_handler sound free

theorem access_overflows (p : Sender) (u : Uart) :
    u.overflows ≤ (p.access depth u).2.overflows := by
  unfold Sender.access Uart.setUTXH0
  split
  · exact le_rfl
  · split_ifs
    · exact le_rfl
    · exact Nat.le_succ _
    · exact le_rfl

theorem step_overflows (s : State) (a : Action) :
    s.uart.overflows ≤ (step depth s a).uart.overflows := by
  cases a with
  | drain => exact (drain_overflows s.uart).ge
  | key eint0pend =>
    unfold step
    split_ifs <;> exact le_rfl
  | access =>
    unfold step
    split_ifs <;> exact access_overflows _ _

theorem run_overflows (depth : Nat) (s : State) (actions : List Action) :
    s.uart.overflows ≤ (run depth s actions).uart.overflows := by
  induction actions generalizing s with
  | nil => exact le_rfl
  | cons a rest ih => exact (step_overflows s a).trans (ih _)

/-- A write that finds no room is counted. -/
theorem step_overflow {a : Action} (tight : ¬ Roomy depth s a) :
    0 < (step depth s a).uart.overflows := by
  cases a with
  | drain => exact absurd trivial tight
  | key eint0pend => exact absurd trivial tight
  | access =>
    simp only [Roomy, not_forall] at tight
    obtain ⟨free, more, checked, -, full⟩ := tight
    obtain ⟨b, rest, todo⟩ := List.exists_cons_of_ne_nil more
    have turn : (step depth s .access).uart = (s.main.access depth s.uart).2 := by
      unfold step
      rw [if_pos free]
    rw [turn, access_write todo checked, setUTXH0_full b full]
    exact Nat.succ_pos _

theorem sound_run_iff (sound : Sound depth calls s) (actions : List Action) :
    (run depth s actions).uart.overflows = 0 ∧ Delivered calls (run depth s actions) ↔
      AllRoomy depth s actions := by
  induction actions generalizing s with
  | nil => exact iff_of_true ⟨sound.clean, sound.delivered⟩ trivial
  | cons a rest ih =>
    by_cases roomy : Roomy depth s a
    · exact (ih (sound_step sound roomy)).trans (and_iff_right roomy).symm
    · have lost := (step_overflow roomy).trans_le (run_overflows depth _ rest)
      exact iff_of_false (fun good => lost.ne' good.1) (fun all => roomy all.1)

theorem sound_initial (short : ∀ c ∈ calls, c.text.length < MAX_STRING_LENGTH) :
    Sound depth calls (initial calls) where
  clean := rfl
  delivered := ⟨[], [], (bytes_flatMap short).symm, rfl, .nil⟩
  idle := fun _ => rfl
  handlerRoom := fun no => absurd no Bool.false_ne_true
  mainRoom := fun no => absurd no Bool.false_ne_true

theorem uart_delivers_iff (depth : Nat) (calls : List Call) (actions : List Action)
    (short : ∀ c ∈ calls, c.text.length < MAX_STRING_LENGTH) :
    (run depth (initial calls) actions).uart.overflows = 0 ∧
        Delivered calls (run depth (initial calls) actions) ↔
      AllRoomy depth (initial calls) actions :=
  sound_run_iff (sound_initial short) actions

/-- Once all is written and the FIFO is empty, the line has carried everything. -/
theorem Delivered.complete (delivered : Delivered calls s) (main : s.main.todo = [])
    (handler : s.handler.todo = []) (drained : s.uart.fifo = []) :
    Interleaving (calls.flatMap Call.text) s.asked s.uart.line := by
  obtain ⟨u, v, sent, asked, mixed⟩ := delivered
  rw [main, List.append_nil] at sent
  rw [handler, List.append_nil] at asked
  rw [drained, List.append_nil] at mixed
  rw [sent, asked]
  exact mixed

/-- The transmit FIFO of UART0 holds 64 bytes. -/
def FIFO_SIZE : Nat := 64

/-- What main of main.c sends before it echoes. -/
def mainCalls : List Call := [.UART0_SendString (.ofString "\n\rHello World!\n\r")]

/-- Key 1 between the test and the write of the first byte of main, and then all of both. -/
def earlyKey : List Action := .access :: .key 1 :: List.replicate 61 .access

theorem uart_delivers_early :
    (run FIFO_SIZE (initial mainCalls) earlyKey).uart.fifo =
        (CString.ofString "C irq - key 1\n\r").text ++ (CString.ofString "\n\rHello World!\n\r").text ∧
      (run FIFO_SIZE (initial mainCalls) earlyKey).uart.overflows = 0 ∧
      Delivered mainCalls (run FIFO_SIZE (initial mainCalls) earlyKey) :=
  ⟨by decide +kernel, (uart_delivers_iff FIFO_SIZE mainCalls earlyKey (by decide)).mpr (by decide +kernel)⟩

/-- All four keys between test and write of the fifth byte. The handler fills the FIFO. -/
theorem fifth_byte_lost : ¬ ∀ (depth : Nat) (calls : List Call) (actions : List Action),
    (∀ c ∈ calls, c.text.length < MAX_STRING_LENGTH) →
      (run depth (initial calls) actions).uart.overflows = 0 ∧
        Delivered calls (run depth (initial calls) actions) := by
  intro all
  have clean := (all FIFO_SIZE mainCalls
    (List.replicate 9 .access ++ .key 0xf :: List.replicate 121 .access) (by decide)).1
  revert clean
  decide +kernel

end Tiny6410.UartRace
