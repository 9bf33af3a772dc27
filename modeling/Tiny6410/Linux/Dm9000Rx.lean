import Mathlib
import Tiny6410.Lib.Memory

/-! The receive side of the driver dm9000.c: dm9000_rx with the block transfers that it
uses, against packets as the chip puts them into its memory. -/
namespace Tiny6410.Dm9000

open Memory (Byte Word)

/-- The widths of the data port that dm9000_set_io tells apart. -/
inductive Width where
  | bit8 | bit16 | bit32
  deriving DecidableEq

/-- The bytes that go through the port for a count: dm9000_inblk and dm9000_dumpblk round up. -/
def Width.moved : Width → Nat → Nat
  | .bit8, count => count
  | .bit16, count => 2 * ((count + 1) >>> 1)
  | .bit32, count => 4 * ((count + 3) >>> 2)

def DM9000_PKT_RDY : Byte := 0x01
def DM9000_PKT_ERR : Byte := 0x02

def RSR_FOE : Byte := 0x01
def RSR_CE : Byte := 0x02
def RSR_AE : Byte := 0x04
def RSR_PLE : Byte := 0x08
def RSR_RWTO : Byte := 0x10
def RSR_LCS : Byte := 0x20
def RSR_RF : Byte := 0x80

/-- What is a bad packet by its status. -/
def errors : Byte := RSR_FOE ||| RSR_CE ||| RSR_AE ||| RSR_PLE ||| RSR_RWTO ||| RSR_LCS ||| RSR_RF

def DM9000_RCR : Byte := 0x05
def DM9000_ISR : Byte := 0xfe
def IMR_PAR : Byte := 0x80

inductive Checksum where
  | none | unnecessary
  deriving DecidableEq

structure Skb where
  data : List Byte
  ip_summed : Checksum
  deriving DecidableEq

/-- Counters of dev->stats, unsigned longs. -/
structure Stats where
  rx_packets : Word
  rx_bytes : Word
  rx_fifo_errors : Word
  rx_crc_errors : Word
  rx_length_errors : Word
  deriving DecidableEq

/-- The memory of the chip from its read pointer on, what was given to netif_rx, the
statistics, the calls of dev_alloc_skb so far and the registers written. -/
structure Rx where
  memory : List Byte
  skbs : List Skb
  stats : Stats
  calls : Nat
  writes : List (Byte × Byte)
  deriving DecidableEq

/-- What dm9000_rx goes by: the port, db->rx_csum, and which calls of dev_alloc_skb succeed. -/
structure Setup where
  width : Width
  rx_csum : Bool
  alloc : Nat → Bool

def countErrors (status : Byte) (stats : Stats) : Stats :=
  { stats with
    rx_fifo_errors := stats.rx_fifo_errors + if status &&& RSR_FOE ≠ 0 then 1 else 0
    rx_crc_errors := stats.rx_crc_errors + if status &&& RSR_CE ≠ 0 then 1 else 0
    rx_length_errors := stats.rx_length_errors + if status &&& RSR_RF ≠ 0 then 1 else 0 }

def checksumOf (rx_csum : Bool) (rxbyte : Byte) : Checksum :=
  if rx_csum then if ((rxbyte &&& 0x1c) <<< 3) &&& rxbyte = 0 then .unnecessary else .none else .none

/-- The header and the packet behind it. The buffer takes RxLen bytes, its length leaves out
the last four. -/
def receive (x : Setup) (rxbyte : Byte) (r : Rx) : Rx :=
  let rxhdr := r.memory.take 4
  let r := { r with memory := r.memory.drop (x.width.moved 4) }
  let status := rxhdr.getD 1 0
  let RxLen := (rxhdr.getD 3 0 ++ rxhdr.getD 2 0).toNat
  let bad := status &&& errors ≠ 0
  let r := if bad then { r with stats := countErrors status r.stats } else r
  let GoodPacket := ¬ RxLen < 0x40 ∧ ¬ bad
  let behind := r.memory.drop (x.width.moved RxLen)
  if GoodPacket ∧ x.alloc r.calls then
    { r with
      memory := behind
      skbs := r.skbs ++ [⟨(r.memory.take RxLen).take (RxLen - 4), checksumOf x.rx_csum rxbyte⟩]
      stats.rx_packets := r.stats.rx_packets + 1
      stats.rx_bytes := r.stats.rx_bytes + BitVec.ofNat 32 RxLen
      calls := r.calls + 1 }
  else { r with memory := behind, calls := if GoodPacket then r.calls + 1 else r.calls }

/-- The byte at the read pointer is looked at first; it is zero where no packet was put. -/
def dm9000_rx (x : Setup) : Nat → Rx → Option Rx
  | 0, _ => none
  | fuel + 1, r =>
    let rxbyte := r.memory.headD 0
    if rxbyte &&& DM9000_PKT_ERR ≠ 0 then
      some { r with writes := r.writes ++ [(DM9000_RCR, 0), (DM9000_ISR, IMR_PAR)] }
    else if rxbyte &&& DM9000_PKT_RDY = 0 then some r
    else dm9000_rx x fuel (receive x rxbyte r)

/-- A packet as the chip has it: the byte that shows it, its status, its data with the
checksum at their end, and what fills the last access. -/
structure Arrival (width : Width) where
  ready : Byte
  status : Byte
  data : List Byte
  pad : List Byte
  shown : ready &&& DM9000_PKT_ERR = 0 ∧ ready &&& DM9000_PKT_RDY ≠ 0
  short : data.length < 2 ^ 16
  filled : data.length + pad.length = width.moved data.length

def Arrival.bytes {width : Width} (p : Arrival width) : List Byte :=
  let len := BitVec.ofNat 16 p.data.length
  p.ready :: p.status :: len.setWidth 8 :: (len >>> 8).setWidth 8 :: (p.data ++ p.pad)

def Arrival.good {width : Width} (p : Arrival width) : Bool :=
  decide (0x40 ≤ p.data.length) && decide (p.status &&& errors = 0)

def Arrival.skb {width : Width} (rx_csum : Bool) (p : Arrival width) : Skb :=
  ⟨p.data.take (p.data.length - 4), checksumOf rx_csum p.ready⟩

/-- The good packets for which there was a buffer. -/
def kept (x : Setup) (calls : Nat) (packets : List (Arrival x.width)) : List (Arrival x.width) :=
  (((packets.filter Arrival.good).zipIdx calls).filter fun p => x.alloc p.2).map Prod.fst

/-- How many packets show an error in their status. -/
def showing {width : Width} (bit : Byte) (packets : List (Arrival width)) : Nat :=
  packets.countP fun p => p.status &&& bit ≠ 0

section

variable {x : Setup}

theorem moved_four (width : Width) : width.moved 4 = 4 := by cases width <;> rfl

/-- What one packet changes. -/
def account (x : Setup) (r : Rx) (p : Arrival x.width) : Rx :=
  let stats := if p.status &&& errors ≠ 0 then countErrors p.status r.stats else r.stats
  if p.good ∧ x.alloc r.calls then
    { r with
      skbs := r.skbs ++ [p.skb x.rx_csum]
      stats := { stats with
        rx_packets := stats.rx_packets + 1
        rx_bytes := stats.rx_bytes + BitVec.ofNat 32 p.data.length }
      calls := r.calls + 1 }
  else { r with stats := stats, calls := if p.good then r.calls + 1 else r.calls }

theorem length_read {n : Nat} (small : n < 2 ^ 16) :
    (((BitVec.ofNat 16 n) >>> 8).setWidth 8 ++ (BitVec.ofNat 16 n).setWidth 8 : BitVec 16).toNat = n := by
  have cut : ((BitVec.ofNat 16 n) >>> 8).setWidth 8 ++ (BitVec.ofNat 16 n).setWidth 8 = BitVec.ofNat 16 n := by
    ext i hi
    simp only [BitVec.getElem_append, BitVec.getElem_setWidth, BitVec.getLsbD_ushiftRight]
    split
    · rw [BitVec.getLsbD_eq_getElem (by omega)]
    · rw [BitVec.getLsbD_eq_getElem (by omega)]
      congr 1
      omega
  rw [cut, BitVec.toNat_ofNat, Nat.mod_eq_of_lt small]

theorem receive_packet (r : Rx) (p : Arrival x.width) (rest : List Byte) :
    receive x p.ready { r with memory := p.bytes ++ rest } = { account x r p with memory := rest } := by
  have len := length_read p.short
  have behind : (p.data ++ (p.pad ++ rest)).drop (x.width.moved p.data.length) = rest := by
    rw [← p.filled, ← List.length_append, ← List.append_assoc, List.drop_left]
  have head : (p.bytes ++ rest).take 4 = [p.ready, p.status, (BitVec.ofNat 16 p.data.length).setWidth 8,
      ((BitVec.ofNat 16 p.data.length) >>> 8).setWidth 8] := rfl
  have back : (p.bytes ++ rest).drop (x.width.moved 4) = p.data ++ (p.pad ++ rest) := by
    rw [moved_four, ← List.append_assoc]
    rfl
  unfold receive account
  simp only [head, back, List.getD_cons_succ, List.getD_cons_zero, len]
  by_cases bad : p.status &&& errors = 0#8
  · by_cases long : 64 ≤ p.data.length
    · have good : p.good = true := by simp [Arrival.good, long, bad]
      by_cases room : x.alloc r.calls = true
      · simp [good, bad, room, long, behind, Arrival.skb]
      · simp [good, bad, room, long, behind]
    · have poor : p.good = false := by simp [Arrival.good, long]
      simp [poor, bad, long, behind]
  · have poor : p.good = false := by simp [Arrival.good, bad]
    simp [poor, bad, behind]

theorem rx_packets (packets : List (Arrival x.width)) (tail : List Byte) (fuel : Nat) (r : Rx) :
    dm9000_rx x (packets.length + fuel) { r with memory := packets.flatMap Arrival.bytes ++ tail } =
      dm9000_rx x fuel { packets.foldl (account x) r with memory := tail } := by
  induction packets generalizing r with
  | nil => simp
  | cons p packets ih =>
    have shown := p.shown
    have first : (p.bytes ++ (packets.flatMap Arrival.bytes ++ tail)).headD 0 = p.ready := rfl
    rw [List.length_cons, Nat.add_right_comm, List.flatMap_cons, List.append_assoc]
    simp only [dm9000_rx, first, shown.1, shown.2, receive_packet]
    exact ih (account x r p)

theorem kept_cons (calls : Nat) (p : Arrival x.width) (packets : List (Arrival x.width)) :
    kept x calls (p :: packets) =
      if p.good then (if x.alloc calls then [p] else []) ++ kept x (calls + 1) packets
      else kept x calls packets := by
  unfold kept
  by_cases good : p.good = true
  · by_cases room : x.alloc calls = true
    · simp [good, room]
    · simp [good, room]
  · simp [good]

theorem showing_cons (bit : Byte) (p : Arrival x.width) (packets : List (Arrival x.width)) :
    showing bit (p :: packets) = (if p.status &&& bit ≠ 0 then 1 else 0) + showing bit packets := by
  unfold showing
  rw [List.countP_cons, Nat.add_comm]
  simp

theorem errors_clear : ∀ status : Byte, status &&& errors = 0 →
    status &&& RSR_FOE = 0 ∧ status &&& RSR_CE = 0 ∧ status &&& RSR_RF = 0 := by
  decide

theorem counter_add (a : Word) (m n : Nat) :
    a + BitVec.ofNat 32 (m + n) = a + BitVec.ofNat 32 m + BitVec.ofNat 32 n := by
  rw [BitVec.ofNat_add, BitVec.add_assoc]

theorem counter_ite (c : Prop) [Decidable c] : BitVec.ofNat 32 (if c then 0 else 1) = if c then 0 else 1 :=
  apply_ite _ _ _ _

theorem account_packets (packets : List (Arrival x.width)) (r : Rx) :
    packets.foldl (account x) r =
      { r with
        skbs := r.skbs ++ (kept x r.calls packets).map (Arrival.skb x.rx_csum)
        stats :=
          { rx_packets := r.stats.rx_packets + BitVec.ofNat 32 (kept x r.calls packets).length
            rx_bytes :=
              r.stats.rx_bytes + BitVec.ofNat 32 ((kept x r.calls packets).map fun p => p.data.length).sum
            rx_fifo_errors := r.stats.rx_fifo_errors + BitVec.ofNat 32 (showing RSR_FOE packets)
            rx_crc_errors := r.stats.rx_crc_errors + BitVec.ofNat 32 (showing RSR_CE packets)
            rx_length_errors := r.stats.rx_length_errors + BitVec.ofNat 32 (showing RSR_RF packets) }
        calls := r.calls + packets.countP Arrival.good } := by
  induction packets generalizing r with
  | nil => simp [kept, showing]
  | cons p packets ih =>
    have counted : (if p.status &&& errors ≠ 0 then countErrors p.status r.stats else r.stats) =
        countErrors p.status r.stats := by
      split
      · rfl
      · rename_i clear
        obtain ⟨fifo, crc, length⟩ := errors_clear p.status (not_not.mp clear)
        simp [countErrors, fifo, crc, length]
    rw [List.foldl_cons, ih, account, counted]
    by_cases good : p.good = true
    · by_cases room : x.alloc r.calls = true
      · simp [good, room, kept_cons, showing_cons, countErrors, Nat.add_assoc, Nat.add_comm, counter_add, counter_ite]
      · simp [good, room, kept_cons, showing_cons, countErrors, Nat.add_assoc, Nat.add_comm, counter_add, counter_ite]
    · simp [good, kept_cons, showing_cons, countErrors, counter_add, counter_ite]

/-- Every packet in the memory is taken out whole whatever its port, length or status, so that
each is delivered or counted by what it says itself. -/
theorem dm9000_rx_delivers (packets : List (Arrival x.width)) (tail : List Byte) (fuel : Nat) (r : Rx)
    (enough : packets.length < fuel)
    (last : tail.headD 0 &&& DM9000_PKT_ERR ≠ 0 ∨ tail.headD 0 &&& DM9000_PKT_RDY = 0)
    (memory : r.memory = packets.flatMap Arrival.bytes ++ tail) :
    dm9000_rx x fuel r = some
      { memory := tail
        skbs := r.skbs ++ (kept x r.calls packets).map (Arrival.skb x.rx_csum)
        stats :=
          { rx_packets := r.stats.rx_packets + BitVec.ofNat 32 (kept x r.calls packets).length
            rx_bytes :=
              r.stats.rx_bytes + BitVec.ofNat 32 ((kept x r.calls packets).map fun p => p.data.length).sum
            rx_fifo_errors := r.stats.rx_fifo_errors + BitVec.ofNat 32 (showing RSR_FOE packets)
            rx_crc_errors := r.stats.rx_crc_errors + BitVec.ofNat 32 (showing RSR_CE packets)
            rx_length_errors := r.stats.rx_length_errors + BitVec.ofNat 32 (showing RSR_RF packets) }
        calls := r.calls + packets.countP Arrival.good
        writes := r.writes ++
          if tail.headD 0 &&& DM9000_PKT_ERR ≠ 0 then [(DM9000_RCR, 0), (DM9000_ISR, IMR_PAR)] else [] } := by
  obtain ⟨more, rfl⟩ : ∃ more, fuel = packets.length + (more + 1) := ⟨fuel - packets.length - 1, by omega⟩
  have start : r = { r with memory := packets.flatMap Arrival.bytes ++ tail } := by rw [← memory]
  rw [start, rx_packets, account_packets, dm9000_rx]
  by_cases stop : tail.headD 0 &&& DM9000_PKT_ERR = 0
  · have idle := last.resolve_left (not_not_intro stop)
    simp only [stop, idle, ne_eq, not_true_eq_false, if_true, if_false, List.append_nil]
  · simp only [stop, ne_eq, not_false_eq_true, if_true]

/-- A packet of 64 bytes and one with a wrong checksum. -/
theorem dm9000_rx_delivers_two :
    let x : Setup := ⟨.bit16, true, fun _ => true⟩
    let sound : Arrival .bit16 := ⟨1, 0, List.replicate 64 7, [], by decide, by decide, by decide⟩
    let wrong : Arrival .bit16 := ⟨1, RSR_CE, List.replicate 65 9, [0], by decide, by decide, by decide⟩
    dm9000_rx x 3 ⟨sound.bytes ++ wrong.bytes, [], ⟨0, 0, 0, 0, 0⟩, 0, []⟩ =
      some ⟨[], [⟨List.replicate 60 7, .unnecessary⟩], ⟨1, 64, 0, 1, 0⟩, 1, []⟩ := by
  intro x sound wrong
  have both : sound.bytes ++ wrong.bytes = [sound, wrong].flatMap Arrival.bytes ++ [] := by simp
  exact (@dm9000_rx_delivers x [sound, wrong] [] 3 ⟨sound.bytes ++ wrong.bytes, [], ⟨0, 0, 0, 0, 0⟩, 0, []⟩
    (by decide) (.inr rfl) both).trans (by decide +kernel)

end

end Tiny6410.Dm9000
