import Mathlib
import Tiny6410.Lib.Memory

/-! The transmit side of the driver dm9000.c: dm9000_start_xmit, dm9000_send_packet,
dm9000_tx_done and the parts of dm9000_interrupt and dm9000_timeout around them, with the
chip that they drive. The chip has room for two packets and sends one at a time. -/
namespace Tiny6410.Dm9000

open Memory (Byte Word)

/-- The parts of a socket buffer that are read. Its length goes into registers of 16 bits. -/
structure Packet where
  data : List Byte
  ip_summed : BitVec 2
  short : data.length < 2 ^ 16

def Packet.len (p : Packet) : BitVec 16 := BitVec.ofNat 16 p.data.length

/-- What the chip sends, and how its checksum generator was set for it. -/
structure Frame where
  bytes : List Byte
  tccr : Byte
  deriving DecidableEq

def CHECKSUM_NONE : BitVec 2 := 0

def TCCR_IP : Byte := 0x01
def TCCR_TCP : Byte := 0x02
def TCCR_UDP : Byte := 0x04

def NSR_TX1END : Byte := 0x04
def NSR_TX2END : Byte := 0x08

def ISR_PTS : Byte := 0x02

/-- The chip: the packets in its memory that it was not told to send yet, the one that is
on its way, those that are out, and the registers of its transmit side. A second request
in one transmission, or a packet without room, is a fault. -/
structure Chip where
  loaded : List (List Byte)
  sending : Option Frame
  wire : List Frame
  txpll : Byte
  txplh : Byte
  tccr : Byte
  nsr : Byte
  isr : Byte
  fault : Bool

/-- A block of data through MWCMD. -/
def Chip.load (c : Chip) (block : List Byte) : Chip :=
  { c with
    loaded := c.loaded ++ [block]
    fault := c.fault || decide (2 ≤ c.loaded.length + c.sending.toList.length) }

/-- TCR_TXREQ is written to TCR. -/
def Chip.request (c : Chip) : Chip :=
  match c.sending, c.loaded with
  | none, block :: rest =>
    { c with sending := some ⟨block.take (c.txplh ++ c.txpll).toNat, c.tccr⟩, loaded := rest }
  | _, _ => { c with fault := true }

/-- The transmission ends. -/
def Chip.complete (c : Chip) (frame : Frame) (second : Bool) : Chip :=
  { c with
    sending := none
    wire := c.wire ++ [frame]
    nsr := c.nsr ||| if second then NSR_TX2END else NSR_TX1END
    isr := c.isr ||| ISR_PTS }

/-- The fields of board_info that are used here. -/
structure Board where
  tx_pkt_cnt : BitVec 16
  queue_pkt_len : BitVec 16
  queue_ip_summed : BitVec 2
  ip_summed : BitVec 2

/-- Where dm9000_interrupt is: it has read ISR, or has cleared it too. -/
inductive Handler where
  | read (int_status : Byte)
  | cleared (int_status : Byte)

structure State where
  db : Board
  chip : Chip
  -- netif_stop_queue and netif_wake_queue.
  stopped : Bool
  -- Counters of dev->stats, unsigned longs.
  tx_bytes : Word
  tx_packets : Word
  -- dm9000_start_xmit behind its test and in front of the lock.
  tested : Option Packet
  handler : Option Handler
  -- The packets for which it has returned NETDEV_TX_OK.
  accepted : List Packet

def setting (ip_summed : BitVec 2) : Byte :=
  if ip_summed = CHECKSUM_NONE then 0 else TCCR_IP ||| TCCR_UDP ||| TCCR_TCP

def dm9000_send_packet (s : State) (ip_summed : BitVec 2) (pkt_len : BitVec 16) : State :=
  let s := if s.db.ip_summed ≠ ip_summed then
      { s with chip.tccr := setting ip_summed, db.ip_summed := ip_summed }
    else s
  { s with chip := { s.chip with
      txpll := pkt_len.setWidth 8, txplh := (pkt_len >>> 8).setWidth 8 }.request }

/-- A packet in the memory of the chip. outblk may write more than its data. -/
def taken (s : State) (skb : Packet) (extra : List Byte) : State :=
  { s with
    chip := s.chip.load (skb.data ++ extra)
    tx_bytes := s.tx_bytes + BitVec.ofNat 32 skb.data.length
    db.tx_pkt_cnt := s.db.tx_pkt_cnt + 1
    tested := none
    accepted := s.accepted ++ [skb] }

/-- The part of dm9000_start_xmit under the lock. -/
def dm9000_start_xmit (s : State) (skb : Packet) (extra : List Byte) : State :=
  let s := taken s skb extra
  if s.db.tx_pkt_cnt = 1 then dm9000_send_packet s skb.ip_summed skb.len
  else { s with db.queue_pkt_len := skb.len, db.queue_ip_summed := skb.ip_summed, stopped := true }

/-- One packet sent complete, with what the chip has in NSR after the read. -/
def counted (s : State) (nsr : Byte) : State :=
  { s with chip.nsr := nsr, db.tx_pkt_cnt := s.db.tx_pkt_cnt - 1, tx_packets := s.tx_packets + 1 }

def dm9000_tx_done (s : State) (nsr : Byte) : State :=
  if s.chip.nsr &&& (NSR_TX2END ||| NSR_TX1END) ≠ 0 then
    let s := counted s nsr
    let s := if 0 < s.db.tx_pkt_cnt then dm9000_send_packet s s.db.queue_ip_summed s.db.queue_pkt_len else s
    { s with stopped := false }
  else { s with chip.nsr := nsr }

/-- dm9000_reset and dm9000_init_dm9000, with what the reset leaves in TCCR. -/
def dm9000_timeout (s : State) (tccr : Byte) : State :=
  { s with
    chip := { s.chip with loaded := [], sending := none, tccr := tccr, nsr := 0, isr := 0 }
    db := { s.db with tx_pkt_cnt := 0, queue_pkt_len := 0 }
    stopped := false }

/-- The reset clears TCCR, but ip_summed stays as the last packet has left it. What the model
records of the packets starts anew. -/
def dm9000_open (s : State) : State :=
  { s with
    chip := { s.chip with loaded := [], sending := none, wire := [], tccr := 0, nsr := 0, isr := 0, fault := false }
    db := { s.db with tx_pkt_cnt := 0, queue_pkt_len := 0 }
    stopped := false
    tested := none
    handler := none
    accepted := [] }

inductive Action where
  -- dm9000_start_xmit up to its test, and the rest of it.
  | offer (skb : Packet)
  | transmit (extra : List Byte)
  -- The chip has sent a packet, the first or the second of a pair.
  | complete (second : Bool)
  -- Another cause of an interrupt.
  | raise (bits : Byte)
  -- dm9000_interrupt in its three parts.
  | enter
  | clear
  | finish (nsr : Byte)
  | timeout (tccr : Byte)

/-- There is one processor: while the interrupt handler runs, no other code of the driver
does. The chip goes on all the time. -/
def step (s : State) : Action → Option State
  | .offer skb =>
    match s.handler, s.tested with
    | none, none => some (if 1 < s.db.tx_pkt_cnt then s else { s with tested := some skb })
    | _, _ => none
  | .transmit extra =>
    match s.handler, s.tested with
    | none, some skb => some (dm9000_start_xmit s skb extra)
    | _, _ => none
  | .complete second =>
    match s.chip.sending with
    | some frame => some { s with chip := s.chip.complete frame second }
    | none => none
  | .raise bits => if bits &&& ISR_PTS = 0 then some { s with chip.isr := s.chip.isr ||| bits } else none
  | .enter =>
    match s.handler with
    | none => some { s with handler := some (.read s.chip.isr) }
    | some _ => none
  | .clear =>
    match s.handler with
    | some (.read int_status) =>
      some { s with chip.isr := s.chip.isr &&& ~~~int_status, handler := some (.cleared int_status) }
    | _ => none
  | .finish nsr =>
    match s.handler with
    | some (.cleared int_status) =>
      let s := { s with handler := none }
      some (if int_status &&& ISR_PTS ≠ 0 then dm9000_tx_done s nsr else s)
    | _ => none
  | .timeout tccr =>
    match s.handler with
    | none => some (dm9000_timeout s tccr)
    | some _ => none

def run (s : State) : List Action → Option State
  | [] => some s
  | a :: rest => (step s a).bind fun s => run s rest

/-! What holds between two actions. -/

/-- The transmit bit of ISR. -/
def pts (b : Byte) : Bool := b.getLsbD 1

theorem and_pts_iff : ∀ b : Byte, b &&& ISR_PTS ≠ 0 ↔ pts b = true := by decide

theorem or_pts : ∀ b : Byte, pts (b ||| ISR_PTS) = true := by decide

def Ended (nsr : Byte) : Prop := nsr &&& (NSR_TX2END ||| NSR_TX1END) ≠ 0

theorem ended_or : ∀ (nsr : Byte) (second : Bool), Ended (nsr ||| if second then NSR_TX2END else NSR_TX1END) := by
  unfold Ended
  decide

/-- The end of a transmission is shown in ISR, or the handler has it from there. -/
def pending (s : State) : Bool :=
  pts s.chip.isr ||
    match s.handler with
    | some (.cleared int_status) => pts int_status
    | _ => false

/-- It is shown once: what the handler has read is there until it is cleared. -/
def Once (s : State) : Prop :=
  match s.handler with
  | none => True
  | some (.read int_status) => pts int_status = true → pts s.chip.isr = true
  | some (.cleared int_status) => ¬ (pts int_status = true ∧ pts s.chip.isr = true)

/-- The packet as it is sent. Its checksum setting is right as long as the board knows what
is in TCCR. -/
def Sends (right : Prop) (f : Frame) (p : Packet) : Prop :=
  f.bytes = p.data ∧ (right → f.tccr = setting p.ip_summed)

structure Queued (s : State) (q : Packet) : Prop where
  loaded : ∃ extra, s.chip.loaded = [q.data ++ extra]
  length : s.db.queue_pkt_len = q.len
  ip_summed : s.db.queue_ip_summed = q.ip_summed

/-- How the packets that are not acknowledged lie in the chip, and which of them are not out. -/
inductive Stage (right : Prop) (s : State) : List Packet → List Packet → Prop
  | idle : s.chip.loaded = [] → s.chip.sending = none → pending s = false → Stage right s [] []
  | sending {p : Packet} {f : Frame} : s.chip.loaded = [] → s.chip.sending = some f → Sends right f p →
      pending s = false → Stage right s [p] [p]
  | sendingMore {p q : Packet} {f : Frame} : Queued s q → s.chip.sending = some f → Sends right f p →
      pending s = false → Stage right s [p, q] [p, q]
  | sent {p : Packet} : s.chip.loaded = [] → s.chip.sending = none → pending s = true → Ended s.chip.nsr →
      Stage right s [p] []
  | sentMore {p q : Packet} : Queued s q → s.chip.sending = none → pending s = true → Ended s.chip.nsr →
      Stage right s [p, q] [q]

/-- What holds since the driver was opened with the counters of base. There was no timeout in
a calm run; in a right one the board also knew from the start what is in TCCR. -/
structure Inv (base : State) (calm right : Prop) (s : State) (held unsent sent : List Packet) : Prop where
  stage : Stage right s held unsent
  once : Once s
  count : s.db.tx_pkt_cnt = BitVec.ofNat 16 held.length
  room : s.tested ≠ none → held.length ≤ 1
  stopped : s.stopped = decide (held.length = 2)
  sound : s.chip.fault = false
  wire : List.Forall₂ (Sends right) s.chip.wire sent
  order : (sent ++ unsent).Sublist s.accepted
  all : calm → sent ++ unsent = s.accepted
  tccr : right → s.chip.tccr = setting s.db.ip_summed
  bytes : s.tx_bytes = base.tx_bytes + BitVec.ofNat 32 (s.accepted.map fun p => p.data.length).sum
  packets : calm → s.tx_packets + BitVec.ofNat 32 held.length = base.tx_packets + BitVec.ofNat 32 s.accepted.length

section

variable {base s : State} {calm right : Prop} {held unsent sent : List Packet}

theorem Stage.length (stage : Stage right s held unsent) : held.length ≤ 2 := by
  cases stage <;> simp

theorem joined (len : BitVec 16) : (len >>> 8).setWidth 8 ++ len.setWidth 8 = (len : BitVec (8 + 8)) := by
  ext i low
  simp only [BitVec.getElem_append, BitVec.getElem_setWidth, BitVec.getLsbD_ushiftRight]
  split <;> simp_all

/-- What sending the one packet in the memory of an idle chip changes. -/
theorem send_packet_eq {p : Packet} {extra : List Byte} (free : s.chip.sending = none)
    (loaded : s.chip.loaded = [p.data ++ extra]) :
    ∃ tccr low high, dm9000_send_packet s p.ip_summed p.len =
        { s with
          chip := { s.chip with
            sending := some ⟨p.data, tccr⟩, loaded := [], txpll := low, txplh := high, tccr := tccr }
          db.ip_summed := p.ip_summed } ∧
      (s.chip.tccr = setting s.db.ip_summed → tccr = setting p.ip_summed) := by
  have whole : (p.data ++ extra).take p.len.toNat = p.data := by
    rw [Packet.len, BitVec.toNat_ofNat, Nat.mod_eq_of_lt p.short, List.take_left]
  by_cases other : s.db.ip_summed ≠ p.ip_summed
  · refine ⟨setting p.ip_summed, p.len.setWidth 8, (p.len >>> 8).setWidth 8, ?_, fun _ => rfl⟩
    simp only [dm9000_send_packet, if_pos other, Chip.request, free, loaded, joined, whole]
  · refine ⟨s.chip.tccr, p.len.setWidth 8, (p.len >>> 8).setWidth 8, ?_, ?_⟩
    · have same : s.db.ip_summed = p.ip_summed := not_not.mp other
      simp only [dm9000_send_packet, if_neg other, Chip.request, free, loaded, joined, whole]
      rw [← same]
    · rw [not_not.mp other]
      exact id

/-! One lemma for each action. -/

theorem Stage.moved {s' : State} (stage : Stage right s held unsent) (loaded : s'.chip.loaded = s.chip.loaded)
    (sending : s'.chip.sending = s.chip.sending) (nsr : s'.chip.nsr = s.chip.nsr) (db : s'.db = s.db)
    (same : pending s' = pending s) : Stage right s' held unsent := by
  have queued : ∀ {q : Packet}, Queued s q → Queued s' q := fun ⟨there, length, ip_summed⟩ =>
    ⟨loaded ▸ there, db ▸ length, db ▸ ip_summed⟩
  cases stage with
  | idle l i quiet => exact .idle (loaded ▸ l) (sending ▸ i) (same.trans quiet)
  | sending l i sends quiet => exact .sending (loaded ▸ l) (sending ▸ i) sends (same.trans quiet)
  | sendingMore q i sends quiet => exact .sendingMore (queued q) (sending ▸ i) sends (same.trans quiet)
  | sent l i shown ended => exact .sent (loaded ▸ l) (sending ▸ i) (same.trans shown) (nsr ▸ ended)
  | sentMore q i shown ended => exact .sentMore (queued q) (sending ▸ i) (same.trans shown) (nsr ▸ ended)

theorem offer_inv (skb : Packet) (inv : Inv base calm right s held unsent sent) (few : ¬ 1 < s.db.tx_pkt_cnt) :
    Inv base calm right { s with tested := some skb } held unsent sent := by
  have room : held.length ≤ 1 := by
    have most := inv.stage.length
    rw [inv.count, BitVec.lt_def, BitVec.toNat_ofNat] at few
    have one : (1 : BitVec 16).toNat = 1 := rfl
    omega
  exact ⟨inv.stage.moved rfl rfl rfl rfl rfl, inv.once, inv.count, fun _ => room, inv.stopped, inv.sound, inv.wire,
    inv.order, inv.all, inv.tccr, inv.bytes, inv.packets⟩

theorem Stage.quiet {frame : Frame} (stage : Stage right s held unsent) (sending : s.chip.sending = some frame) :
    pending s = false := by
  cases stage with
  | sending _ _ _ quiet | sendingMore _ _ _ quiet => exact quiet
  | idle _ free | sent _ free | sentMore _ free =>
    rw [free] at sending
    cases sending

theorem complete_shows (frame : Frame) (second : Bool) :
    pending { s with chip := s.chip.complete frame second } = true := by
  simp only [pending, Chip.complete, or_pts, Bool.true_or]

theorem complete_once (frame : Frame) (second : Bool) (quiet : pending s = false) :
    Once { s with chip := s.chip.complete frame second } := by
  unfold pending at quiet
  unfold Once
  cases handler : s.handler with
  | none => trivial
  | some h =>
    cases h with
    | read st => exact fun _ => or_pts s.chip.isr
    | cleared st =>
      rw [handler] at quiet
      simp_all

theorem complete_inv (second : Bool) {frame : Frame} (inv : Inv base calm right s held unsent sent)
    (sending : s.chip.sending = some frame) :
    ∃ unsent' sent', Inv base calm right { s with chip := s.chip.complete frame second } held unsent' sent' := by
  have shown := complete_shows (s := s) frame second
  have ended := ended_or s.chip.nsr second
  have once := complete_once frame second (inv.stage.quiet sending)
  obtain ⟨stage, -, count, room, stopped, sound, wire, order, all, tccr, bytes, packets⟩ := inv
  cases stage with
  | idle _ free | sent _ free | sentMore _ free =>
    rw [free] at sending
    cases sending
  | @sending p f loaded there sends _ =>
    cases there.symm.trans sending
    rw [← List.append_nil (sent ++ [p])] at order all
    exact ⟨[], sent ++ [p], .sent loaded rfl shown ended, once, count, room, stopped, sound,
      List.rel_append wire (.cons sends .nil), order, all, tccr, bytes, packets⟩
  | @sendingMore p q f queued there sends _ =>
    cases there.symm.trans sending
    rw [List.append_cons sent p [q]] at order all
    exact ⟨[q], sent ++ [p], .sentMore ⟨queued.1, queued.2, queued.3⟩ rfl shown ended, once, count, room, stopped,
      sound, List.rel_append wire (.cons sends .nil), order, all, tccr, bytes, packets⟩

/-- What changes in the interrupt flags alone. -/
theorem Inv.flags {isr : Byte} {handler : Option Handler} (inv : Inv base calm right s held unsent sent)
    (same : pending { s with chip.isr := isr, handler := handler } = pending s)
    (once : Once { s with chip.isr := isr, handler := handler }) :
    Inv base calm right { s with chip.isr := isr, handler := handler } held unsent sent :=
  ⟨inv.stage.moved rfl rfl rfl rfl same, once, inv.count, inv.room, inv.stopped, inv.sound, inv.wire, inv.order,
    inv.all, inv.tccr, inv.bytes, inv.packets⟩

theorem raise_inv {bits : Byte} (inv : Inv base calm right s held unsent sent) (other : bits &&& ISR_PTS = 0) :
    Inv base calm right { s with chip.isr := s.chip.isr ||| bits } held unsent sent := by
  have off : pts bits = false := by
    rw [Bool.eq_false_iff, ne_eq, ← and_pts_iff]
    exact not_not.mpr other
  have same : pts (s.chip.isr ||| bits) = pts s.chip.isr := by
    unfold pts at *
    rw [BitVec.getLsbD_or, off, Bool.or_false]
  refine @Inv.flags base s calm right held unsent sent _ s.handler inv ?_ ?_
  · simp only [pending, same]
  · have once := inv.once
    simp only [Once, same] at once ⊢
    exact once

theorem enter_inv (inv : Inv base calm right s held unsent sent) (free : s.handler = none) :
    Inv base calm right { s with handler := some (.read s.chip.isr) } held unsent sent :=
  @Inv.flags base s calm right held unsent sent s.chip.isr _ inv (by simp only [pending, free]) id

theorem clear_inv {st : Byte} (inv : Inv base calm right s held unsent sent) (reading : s.handler = some (.read st)) :
    Inv base calm right { s with chip.isr := s.chip.isr &&& ~~~st, handler := some (.cleared st) }
      held unsent sent := by
  have left : pts (s.chip.isr &&& ~~~st) = (pts s.chip.isr && !pts st) := by
    simp [pts]
  have once := inv.once
  simp only [Once, reading] at once
  refine inv.flags ?_ ?_
  · simp only [pending, reading, left]
    cases seen : pts st with
    | false => simp
    | true => simp [once seen]
  · simp only [Once, left]
    cases pts st <;> simp

theorem timeout_inv (tccr : Byte) (inv : Inv base calm right s held unsent sent) (free : s.handler = none) :
    Inv base False False (dm9000_timeout s tccr) [] [] sent := by
  have quiet : pending (dm9000_timeout s tccr) = false := by
    simp only [pending, dm9000_timeout, free, Bool.or_false]
    rfl
  have once : Once (dm9000_timeout s tccr) := by
    simp only [Once, dm9000_timeout, free]
  have wire : List.Forall₂ (Sends False) s.chip.wire sent :=
    inv.wire.imp fun f p sends => ⟨sends.1, False.elim⟩
  have order := (List.sublist_append_left sent unsent).trans inv.order
  rw [← List.append_nil sent] at order
  exact ⟨.idle rfl rfl quiet, once, rfl, fun _ => Nat.zero_le 1, rfl, inv.sound, wire, order, False.elim, False.elim,
    inv.bytes, False.elim⟩

theorem taken_loaded (skb : Packet) (extra : List Byte) (loaded : s.chip.loaded = []) :
    (taken s skb extra).chip.loaded = [skb.data ++ extra] := by
  rw [taken, Chip.load, loaded, List.nil_append]

theorem taken_sound (skb : Packet) (extra : List Byte) (loaded : s.chip.loaded = []) (sound : s.chip.fault = false) :
    (taken s skb extra).chip.fault = false := by
  cases sending : s.chip.sending <;> simp [taken, Chip.load, loaded, sending, sound]

/-- Nothing is in the way of a packet, or one other is. -/
theorem transmit_inv {skb : Packet} (extra : List Byte) (inv : Inv base calm right s held unsent sent)
    (tested : s.tested = some skb) :
    Inv base calm right (dm9000_start_xmit s skb extra) (held ++ [skb]) (unsent ++ [skb]) sent := by
  have room := inv.room (by rw [tested]; exact Option.some_ne_none skb)
  obtain ⟨stage, once, count, -, stopped, sound, wire, order, all, tccr, bytes, packets⟩ := inv
  have order' : (sent ++ (unsent ++ [skb])).Sublist (s.accepted ++ [skb]) := by
    rw [← List.append_assoc]
    exact order.append_right [skb]
  have all' : calm → sent ++ (unsent ++ [skb]) = s.accepted ++ [skb] := fun still => by
    rw [← List.append_assoc, all still]
  have bytes' : s.tx_bytes + BitVec.ofNat 32 skb.data.length =
      base.tx_bytes + BitVec.ofNat 32 ((s.accepted ++ [skb]).map fun p => p.data.length).sum := by
    rw [bytes, BitVec.add_assoc, ← BitVec.ofNat_add, List.map_append, List.sum_append]
    rfl
  have packets' : calm → s.tx_packets + BitVec.ofNat 32 (held ++ [skb]).length =
      base.tx_packets + BitVec.ofNat 32 (s.accepted ++ [skb]).length := fun still => by
    rw [List.length_append, List.length_append, BitVec.ofNat_add, BitVec.ofNat_add, ← BitVec.add_assoc, packets still,
      BitVec.add_assoc]
  cases stage with
  | idle loaded idle quiet =>
    have one : (taken s skb extra).db.tx_pkt_cnt = 1 := by
      simp only [taken, count]
      rfl
    obtain ⟨tccr', low, high, requested, known⟩ :=
      send_packet_eq (s := taken s skb extra) idle (taken_loaded skb extra loaded)
    rw [dm9000_start_xmit, if_pos one, requested]
    exact ⟨.sending rfl rfl ⟨rfl, fun still => known (tccr still)⟩ quiet, once, one, fun some => absurd rfl some,
      stopped, taken_sound skb extra loaded sound, wire, order', all', fun still => known (tccr still), bytes',
      packets'⟩
  | @sending p f loaded sending sends quiet =>
    have two : (taken s skb extra).db.tx_pkt_cnt = 2 := by
      simp only [taken, count]
      rfl
    rw [dm9000_start_xmit, if_neg (by rw [two]; decide)]
    exact ⟨.sendingMore ⟨⟨extra, taken_loaded skb extra loaded⟩, rfl, rfl⟩ sending sends quiet, once, two,
      fun some => absurd rfl some, rfl, taken_sound skb extra loaded sound, wire, order', all', tccr, bytes', packets'⟩
  | @sent p loaded idle shown ended =>
    have two : (taken s skb extra).db.tx_pkt_cnt = 2 := by
      simp only [taken, count]
      rfl
    rw [dm9000_start_xmit, if_neg (by rw [two]; decide)]
    exact ⟨.sentMore ⟨⟨extra, taken_loaded skb extra loaded⟩, rfl, rfl⟩ idle shown ended, once, two,
      fun some => absurd rfl some, rfl, taken_sound skb extra loaded sound, wire, order', all', tccr, bytes', packets'⟩
  | @sendingMore p q | @sentMore p q => exact absurd room (Nat.not_le.mpr (Nat.lt_succ_self 1))

theorem tx_done_eq (nsr : Byte) (ended : Ended s.chip.nsr) :
    dm9000_tx_done s nsr = { (if 0 < (counted s nsr).db.tx_pkt_cnt then
        dm9000_send_packet (counted s nsr) s.db.queue_ip_summed s.db.queue_pkt_len else counted s nsr) with
      stopped := false } := if_pos ended

/-- The end of the handler where it has seen the end of a transmission. -/
theorem tx_done_inv {st : Byte} (nsr : Byte) (inv : Inv base calm right s held unsent sent)
    (handling : s.handler = some (.cleared st)) (seen : pts st = true) :
    ∃ held', Inv base calm right (dm9000_tx_done { s with handler := none } nsr) held' unsent sent := by
  have off : pts s.chip.isr = false := by
    have once := inv.once
    simp only [Once, handling, seen, true_and] at once
    simpa using once
  have shown : pending s = true := by
    simp only [pending, handling, seen, Bool.or_true]
  have quiet : ∀ t : State, t.handler = none → t.chip.isr = s.chip.isr → pending t = false := by
    intro t free same
    simp only [pending, free, same, off, Bool.or_false]
  obtain ⟨stage, -, count, room, stopped, sound, wire, order, all, tccr, bytes, packets⟩ := inv
  cases stage with
  | idle _ _ hidden | sending _ _ _ hidden | sendingMore _ _ _ hidden =>
    rw [hidden] at shown
    cases shown
  | @sent p loaded idle _ ended =>
    have last : s.db.tx_pkt_cnt = 1 := count
    have zero : (counted { s with handler := none } nsr).db.tx_pkt_cnt = 0 := by
      simp only [counted, last]
      decide
    refine ⟨[], ?_⟩
    rw [tx_done_eq (s := { s with handler := none }) nsr ended, if_neg (by rw [zero]; decide)]
    exact ⟨.idle loaded idle (quiet _ rfl rfl), trivial, zero, fun _ => Nat.zero_le 1, rfl, sound, wire, order, all,
      tccr, bytes, fun still => (BitVec.add_assoc _ _ _).trans (packets still)⟩
  | @sentMore p q queued idle _ ended =>
    have both : s.db.tx_pkt_cnt = 2 := count
    have one : (counted { s with handler := none } nsr).db.tx_pkt_cnt = 1 := by
      simp only [counted, both]
      decide
    obtain ⟨extra, loaded⟩ := queued.loaded
    obtain ⟨tccr', low, high, requested, known⟩ :=
      send_packet_eq (s := counted { s with handler := none } nsr) idle loaded
    refine ⟨[q], ?_⟩
    rw [tx_done_eq (s := { s with handler := none }) nsr ended, if_pos (by rw [one]; decide)]
    simp only [queued.length, queued.ip_summed, requested]
    exact ⟨.sending rfl rfl ⟨rfl, fun still => known (tccr still)⟩ (quiet _ rfl rfl), trivial, one,
      fun _ => le_rfl, rfl, sound, wire, order, all, fun still => known (tccr still), bytes,
      fun still => (BitVec.add_assoc _ _ _).trans (packets still)⟩

theorem finish_inv {st : Byte} (nsr : Byte) (inv : Inv base calm right s held unsent sent)
    (handling : s.handler = some (.cleared st)) :
    ∃ held', Inv base calm right (if st &&& ISR_PTS ≠ 0 then dm9000_tx_done { s with handler := none } nsr
      else { s with handler := none }) held' unsent sent := by
  split
  · rename_i seen
    exact tx_done_inv nsr inv handling ((and_pts_iff st).mp seen)
  · rename_i other
    have unseen : pts st = false := by
      rw [Bool.eq_false_iff, ne_eq, ← and_pts_iff]
      exact other
    refine ⟨held, @Inv.flags base s calm right held unsent sent s.chip.isr _ inv ?_ trivial⟩
    simp only [pending, handling, unseen]

theorem Sends.weaken {right' : Prop} {f : Frame} {p : Packet} (less : right' → right) (sends : Sends right f p) :
    Sends right' f p := ⟨sends.1, fun still => sends.2 (less still)⟩

theorem Inv.weaken {calm' right' : Prop} (inv : Inv base calm right s held unsent sent) (fewer : calm' → calm)
    (less : right' → right) : Inv base calm' right' s held unsent sent := by
  refine ⟨?_, inv.once, inv.count, inv.room, inv.stopped, inv.sound, inv.wire.imp fun _ _ => Sends.weaken less,
    inv.order, fun still => inv.all (fewer still), fun known => inv.tccr (less known), inv.bytes,
    fun still => inv.packets (fewer still)⟩
  cases inv.stage with
  | idle loaded idle quiet => exact .idle loaded idle quiet
  | sending loaded sending sends quiet => exact .sending loaded sending (sends.weaken less) quiet
  | sendingMore queued sending sends quiet => exact .sendingMore queued sending (sends.weaken less) quiet
  | sent loaded idle shown ended => exact .sent loaded idle shown ended
  | sentMore queued idle shown ended => exact .sentMore queued idle shown ended

/-- There was no timeout in a run. -/
def Action.Calm : Action → Prop
  | .timeout _ => False
  | _ => True

theorem step_calm {a : Action} {s' : State} (inv : Inv base calm right s held unsent sent) (still : a.Calm)
    (next : step s a = some s') : ∃ held' unsent' sent', Inv base calm right s' held' unsent' sent' := by
  cases a with
  | timeout => exact still.elim
  | offer skb =>
    cases handler : s.handler with
    | some _ => simp [step, handler] at next
    | none =>
      cases tested : s.tested with
      | some _ => simp [step, handler, tested] at next
      | none =>
        simp only [step, handler, tested, Option.some.injEq] at next
        subst next
        split
        · exact ⟨_, _, _, inv⟩
        · rename_i few
          have later := offer_inv skb inv few
          rw [handler] at later
          exact ⟨_, _, _, later⟩
  | transmit extra =>
    cases handler : s.handler with
    | some _ => simp [step, handler] at next
    | none =>
      cases tested : s.tested with
      | none => simp [step, handler, tested] at next
      | some skb =>
        simp only [step, handler, tested, Option.some.injEq] at next
        subst next
        exact ⟨_, _, _, transmit_inv extra inv tested⟩
  | complete second =>
    cases sending : s.chip.sending with
    | none => simp [step, sending] at next
    | some frame =>
      simp only [step, sending, Option.some.injEq] at next
      subst next
      obtain ⟨unsent', sent', later⟩ := complete_inv second inv sending
      exact ⟨_, _, _, later⟩
  | raise bits =>
    simp only [step] at next
    split at next
    · rename_i other
      cases next
      exact ⟨_, _, _, raise_inv inv other⟩
    · cases next
  | enter =>
    cases handler : s.handler with
    | some _ => simp [step, handler] at next
    | none =>
      simp only [step, handler, Option.some.injEq] at next
      subst next
      exact ⟨_, _, _, enter_inv inv handler⟩
  | clear =>
    simp only [step] at next
    split at next
    · rename_i reading
      cases next
      exact ⟨_, _, _, clear_inv inv reading⟩
    · cases next
  | finish nsr =>
    simp only [step] at next
    split at next
    · rename_i handling
      obtain ⟨held', later⟩ := finish_inv nsr inv handling
      cases next
      exact ⟨_, _, _, later⟩
    · cases next

theorem step_timeout {tccr : Byte} {s' : State} (inv : Inv base calm right s held unsent sent)
    (next : step s (.timeout tccr) = some s') : Inv base False False s' [] [] sent := by
  cases handler : s.handler with
  | some _ => simp [step, handler] at next
  | none =>
    simp only [step, handler, Option.some.injEq] at next
    subst next
    exact timeout_inv tccr inv handler

theorem run_inv {actions : List Action} {s' : State} (inv : Inv base calm right s held unsent sent)
    (done : run s actions = some s') :
    ∃ held' unsent' sent', Inv base (calm ∧ ∀ a ∈ actions, a.Calm) (right ∧ ∀ a ∈ actions, a.Calm) s' held' unsent'
      sent' := by
  induction actions generalizing s calm right held unsent sent with
  | nil =>
    cases done
    exact ⟨_, _, _, inv.weaken And.left And.left⟩
  | cons a rest ih =>
    obtain ⟨t, next, later⟩ := Option.bind_eq_some_iff.mp done
    by_cases still : a.Calm
    · obtain ⟨_, _, _, inv'⟩ := step_calm inv still next
      obtain ⟨h, u, w, final⟩ := ih inv' later
      have others (all : ∀ b ∈ a :: rest, b.Calm) : ∀ b ∈ rest, b.Calm :=
        fun b mem => all b (List.mem_cons_of_mem a mem)
      exact ⟨h, u, w, final.weaken (And.imp_right others) (And.imp_right others)⟩
    · cases a with
      | timeout tccr =>
        obtain ⟨h, u, w, final⟩ := ih (step_timeout inv next) later
        exact ⟨h, u, w, final.weaken (fun all => absurd (all.2 _ List.mem_cons_self) still)
          fun all => absurd (all.2 _ List.mem_cons_self) still⟩
      | _ => exact absurd trivial still

theorem dm9000_open_inv (before : State) :
    Inv before True (before.db.ip_summed = CHECKSUM_NONE) (dm9000_open before) [] [] [] := by
  refine ⟨.idle rfl rfl (by simp [pending, dm9000_open, pts]), trivial, rfl, fun _ => Nat.zero_le 1, rfl, rfl, .nil,
    .slnil, fun _ => rfl, fun none => ?_, (BitVec.add_zero _).symm, fun _ => rfl⟩
  exact (if_pos none).symm

/-- What holds of the driver and the chip whatever comes after it was opened with the counters
of base. -/
structure Safe (base s : State) : Prop where
  -- The chip was never asked for what it cannot do.
  sound : s.chip.fault = false
  few : s.db.tx_pkt_cnt.toNat ≤ 2
  stopped : s.stopped = true ↔ s.db.tx_pkt_cnt = 2
  -- A packet that is counted is on its way, or its end will be seen.
  lively : s.db.tx_pkt_cnt ≠ 0 → s.chip.sending ≠ none ∨ pending s = true
  bytes : s.tx_bytes = base.tx_bytes + BitVec.ofNat 32 (s.accepted.map fun p => p.data.length).sum
  once : (s.chip.wire.map Frame.bytes).Sublist (s.accepted.map Packet.data)

theorem count_toNat (inv : Inv base calm right s held unsent sent) : s.db.tx_pkt_cnt.toNat = held.length := by
  have most := inv.stage.length
  rw [inv.count, BitVec.toNat_ofNat, Nat.mod_eq_of_lt (by omega)]

theorem count_eq_iff (inv : Inv base calm right s held unsent sent) {n : Nat} (small : n < 2 ^ 16) :
    s.db.tx_pkt_cnt = BitVec.ofNat 16 n ↔ held.length = n := by
  rw [← BitVec.toNat_inj, count_toNat inv, BitVec.toNat_ofNat, Nat.mod_eq_of_lt small]

theorem wire_bytes {wire : List Frame} (sends : List.Forall₂ (Sends right) wire sent) :
    wire.map Frame.bytes = sent.map Packet.data := by
  induction sends with
  | nil => rfl
  | cons first _ ih => rw [List.map_cons, List.map_cons, ih, first.1]

theorem Inv.safe (inv : Inv base calm right s held unsent sent) : Safe base s := by
  refine ⟨inv.sound, count_toNat inv ▸ inv.stage.length, ?_, ?_, inv.bytes, ?_⟩
  · rw [inv.stopped, decide_eq_true_eq]
    exact (count_eq_iff inv (by decide)).symm
  · intro some
    have holds : held.length ≠ 0 := fun none => some ((count_eq_iff inv (by decide)).mpr none)
    cases inv.stage with
    | idle => exact absurd rfl holds
    | sending _ there | sendingMore _ there =>
      left
      rw [there]
      exact Option.some_ne_none _
    | sent _ _ shown | sentMore _ _ shown => exact Or.inr shown
  · rw [wire_bytes inv.wire]
    exact ((List.sublist_append_left sent unsent).trans inv.order).map Packet.data

/-- In every run the chip gets no request out of turn and no packet is sent twice or out of
order; the queue is stopped just while both places are taken. -/
theorem xmit_safe {before s : State} {actions : List Action} (done : run (dm9000_open before) actions = some s) :
    Safe before s := by
  obtain ⟨_, _, _, inv⟩ := run_inv (dm9000_open_inv before) done
  exact inv.safe

def Packet.frame (p : Packet) : Frame := ⟨p.data, setting p.ip_summed⟩

/-- Without a timeout every packet that was accepted is out, but for the last two at most. It
has its own checksum setting if the board was opened with the setting of the reset, as it is
the first time. -/
theorem xmit_complete {before s : State} {actions : List Action} (calm : ∀ a ∈ actions, a.Calm)
    (done : run (dm9000_open before) actions = some s) :
    ∃ unsent : List Packet, s.chip.wire.map Frame.bytes ++ unsent.map Packet.data = s.accepted.map Packet.data ∧
      (before.db.ip_summed = CHECKSUM_NONE →
        s.chip.wire ++ unsent.map Packet.frame = s.accepted.map Packet.frame) ∧
      unsent.length ≤ s.db.tx_pkt_cnt.toNat ∧ s.db.tx_pkt_cnt.toNat ≤ 2 ∧
      s.tx_packets + BitVec.ofNat 32 s.db.tx_pkt_cnt.toNat =
        before.tx_packets + BitVec.ofNat 32 s.accepted.length := by
  obtain ⟨held, unsent, sent, inv⟩ := run_inv (dm9000_open_inv before) done
  have all := inv.all ⟨trivial, calm⟩
  have frames (known : before.db.ip_summed = CHECKSUM_NONE) : ∀ {wire : List Frame} {sent : List Packet},
      List.Forall₂ (Sends (before.db.ip_summed = CHECKSUM_NONE ∧ ∀ a ∈ actions, a.Calm)) wire sent →
      wire = sent.map Packet.frame := by
    intro wire sent sends
    induction sends with
    | nil => rfl
    | @cons f p _ _ first _ ih =>
      have same : f = p.frame := by
        cases f
        rw [Packet.frame, Frame.mk.injEq]
        exact ⟨first.1, first.2 ⟨known, calm⟩⟩
      rw [List.map_cons, ← ih, same]
  have shorter : unsent.length ≤ held.length := by
    cases inv.stage <;> simp
  rw [count_toNat inv]
  refine ⟨unsent, ?_, fun known => ?_, shorter, inv.stage.length, inv.packets ⟨trivial, calm⟩⟩
  · rw [wire_bytes inv.wire, ← List.map_append, all]
  · rw [frames known inv.wire, ← List.map_append, all]

end

/-- The board as dm9000_probe leaves it, cleared. -/
def probed : State where
  db := ⟨0, 0, CHECKSUM_NONE, CHECKSUM_NONE⟩
  chip := ⟨[], none, [], 0, 0, 0, 0, 0, false⟩
  stopped := false
  tx_bytes := 0
  tx_packets := 0
  tested := none
  handler := none
  accepted := []

def ping : Packet := ⟨[0x70, 0x69], 3, by decide⟩
def pong : Packet := ⟨[0x70, 0x6f, 0x6e], 0, by decide⟩

/-- Two packets, the second while the first is on its way, and the interrupt after the first. -/
def twoPackets : List Action :=
  [.offer ping, .transmit [], .offer pong, .transmit [0xff], .complete false, .enter, .clear, .finish 0, .complete true]

def afterTwo : State := (run (dm9000_open probed) twoPackets).get (by decide)

theorem run_twoPackets : run (dm9000_open probed) twoPackets = some afterTwo := (Option.some_get _).symm

theorem xmit_safe_two : Safe probed afterTwo := xmit_safe run_twoPackets

theorem xmit_complete_two : afterTwo.chip.wire = [ping.frame, pong.frame] ∧ ∃ unsent : List Packet,
    afterTwo.chip.wire.map Frame.bytes ++ unsent.map Packet.data = afterTwo.accepted.map Packet.data ∧
      (probed.db.ip_summed = CHECKSUM_NONE →
        afterTwo.chip.wire ++ unsent.map Packet.frame = afterTwo.accepted.map Packet.frame) ∧
      unsent.length ≤ afterTwo.db.tx_pkt_cnt.toNat ∧ afterTwo.db.tx_pkt_cnt.toNat ≤ 2 ∧
      afterTwo.tx_packets + BitVec.ofNat 32 afterTwo.db.tx_pkt_cnt.toNat =
        probed.tx_packets + BitVec.ofNat 32 afterTwo.accepted.length :=
  ⟨by decide, xmit_complete (by simp [twoPackets, Action.Calm]) run_twoPackets⟩

/-- Down and up again after ping, which wants its checksums: the next such packet goes out
without them. -/
example : ((run (dm9000_open probed) [.offer ping, .transmit [], .complete false]).bind fun s =>
    (run (dm9000_open s) [.offer ping, .transmit [], .complete false]).map fun s => s.chip.wire) =
      some [⟨ping.data, 0⟩] := by decide

end Tiny6410.Dm9000
