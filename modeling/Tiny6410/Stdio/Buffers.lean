import Tiny6410.Stdio.RoundTrip

/-! The buffers of printf and scanf. Neither is kept to its buffer: vsprintf passes the
largest int on for room, and scanf stores what is typed up to the end of the line. -/
namespace Tiny6410.Stdio

open Memory (Byte Word Bytes offset)

/-! printf -/

/-- printf stores nothing outside its buffer, sends the text or the first 1023 characters
of it, and returns the length of a text that fits. -/
structure PrintsText (mem : Bytes) (place : Place) (fmt : List Byte) (args : List Word) : Prop where
  inside : ∀ before x, OUTBUFSIZE ≤ offset place.addr x → (printf mem place fmt args before).mem x = before x
  sent : ∀ before, (printf mem place fmt args before).sent = formatted mem fmt args ∨
    (printf mem place fmt args before).sent = (formatted mem fmt args).take (OUTBUFSIZE - 1)
  result : (formatted mem fmt args).length < OUTBUFSIZE → ∀ before,
    (printf mem place fmt args before).result = (printf mem place fmt args before).sent.length

theorem string_eq_iff (text : List Byte) : Text.string 0 text = text ↔ (0 : Byte) ∉ text := by
  constructor
  · intro same
    rw [← same]
    exact Text.string_plain text
  · exact Text.string_eq_self

section

variable {mem : Bytes} {place : Place} {fmt : List Byte} {args : List Word}

/-- The place behind the buffer is below end: it takes the next character or the terminator. -/
theorem PrintsText.fits (prints : PrintsText mem place fmt args) : (formatted mem fmt args).length < OUTBUFSIZE := by
  by_contra longer
  have behind : offset place.addr (place.addr + BitVec.ofNat 32 OUTBUFSIZE) = OUTBUFSIZE :=
    Memory.offset_add _ (by decide)
  exact @vsnprintf_spoils mem _ 0x7fffffff fmt args rfl _ (Nat.le_of_not_lt longer) (place_below place le_rfl)
    fun before => prints.inside before _ behind.ge

theorem PrintsText.plain (prints : PrintsText mem place fmt args) : (0 : Byte) ∉ formatted mem fmt args := by
  have size : OUTBUFSIZE = 1024 := rfl
  have short := prints.fits
  have sent := prints.sent fun _ => 0
  rw [printf_short mem place fmt args _ short, List.take_of_length_le (by omega), or_self] at sent
  exact (string_eq_iff _).mp sent

end

/-- A buffer in the middle of the memory. -/
def middle : Place := ⟨0x50000000, by decide⟩

/-- A line as it is received: what comes before the first carriage return or line feed. -/
structure Line where
  bytes : List Byte
  plain : ∀ c ∈ bytes, c ≠ 0x0d ∧ c ≠ 0x0a

/-- scanf stores nothing outside its buffer and scans a terminated string there, the line
or the first 1023 bytes of it, whatever the buffer has held before. -/
def ScansLine (line : Line) : Prop :=
  ∀ (before : Nat → Byte) (stop : Byte) (rest fmt : List Byte) (args : List Word),
    stop = 0x0d ∨ stop = 0x0a →
    ∃ s, scanf before (line.bytes ++ stop :: rest) fmt args = some s ∧
      (∀ i, INBUFSIZE ≤ i → s.g_pcInBuf i = before i) ∧
      (∃ i < INBUFSIZE, s.g_pcInBuf i = 0) ∧
      ∃ scanned, (scanned = line.bytes ∨ scanned = line.bytes.take (INBUFSIZE - 1)) ∧
        stringAt s.g_pcInBuf = scanned ∧
        (⟨s.result, s.stores⟩ : Scan) = vsscanf scanned fmt args

theorem scanf_eq (line : Line) (before : Nat → Byte) {stop : Byte} (ends : stop = 0x0d ∨ stop = 0x0a)
    (rest fmt : List Byte) (args : List Word) :
    ∃ s, scanf before (line.bytes ++ stop :: rest) fmt args = some s ∧
      s.g_pcInBuf = written before (line.bytes ++ [0]) ∧
      (⟨s.result, s.stores⟩ : Scan) = vsscanf (stringAt s.g_pcInBuf) fmt args := by
  have typed := getLoop_line before [] line.bytes line.plain ends rest
  rw [List.nil_append, List.length_nil, written_nil] at typed
  refine ⟨_, by rw [scanf, typed, Option.map_some], rfl, rfl⟩

/-- A buffer that holds a text and its terminator, and no store above it. -/
theorem outside_kept_iff (text : List Byte) (size : Nat) :
    (∀ (before : Nat → Byte) i, size ≤ i → written before text i = before i) ↔ text.length ≤ size := by
  constructor
  · intro kept
    by_contra longer
    have inside : size < text.length := Nat.lt_of_not_le longer
    -- A store shows over a memory that holds another value there.
    have stored := kept (fun _ => text[size] + 1) size (Nat.le_refl size)
    rw [written, dif_pos inside] at stored
    have other : text[size] + 1 ≠ text[size] := by
      generalize text[size] = c
      revert c
      decide
    exact other stored.symm
  · intro fits before i above
    exact written_outside before text (Nat.le_trans fits above)

/-- The string is the text up to its first zero. -/
theorem stringAt_terminated (before : Nat → Byte) {text : List Byte} (short : text.length < 2 ^ 32) :
    stringAt (written before (text ++ [0])) = Text.string 0 text := by
  obtain ⟨rest, split⟩ : ∃ rest, text ++ [0] = Text.string 0 text ++ 0 :: rest :=
    Text.exists_string_append text
  have within : (Text.string 0 text).length ≤ text.length := (List.takeWhile_sublist _).length_le
  rw [split]
  exact stringAt_written before (Text.string_plain text) (Nat.lt_of_le_of_lt within short)

section

variable {line : Line} (scans : ScansLine line)
include scans

theorem ScansLine.fits : line.bytes.length < INBUFSIZE := by
  have stored := outside_kept_iff (line.bytes ++ [0]) INBUFSIZE
  rw [List.length_append, List.length_singleton] at stored
  apply stored.mp
  intro before i above
  obtain ⟨s, received, memory, -⟩ := scanf_eq line before (.inl rfl) [] [] []
  obtain ⟨t, received', inside, -⟩ := scans before 0x0d [] [] [] (.inl rfl)
  cases received.symm.trans received'
  rw [← memory]
  exact inside i above

theorem ScansLine.plain : (0 : Byte) ∉ line.bytes := by
  have size : INBUFSIZE = 1024 := rfl
  have short := scans.fits
  obtain ⟨s, received, memory, -⟩ := scanf_eq line (fun _ => 0) (.inl rfl) [] [] []
  obtain ⟨t, received', -, -, scanned, which, handed, -⟩ := scans (fun _ => 0) 0x0d [] [] [] (.inl rfl)
  cases received.symm.trans received'
  rw [memory, stringAt_terminated _ (by omega)] at handed
  have whole : scanned = line.bytes := by
    rcases which with whole | first
    · exact whole
    · rw [first, List.take_of_length_le (by omega)]
  rw [← string_eq_iff, handed, whole]

end

/-- scanf does so exactly for the lines that fit and have no zero. -/
theorem scanf_scans_line_iff (line : Line) :
    ScansLine line ↔ line.bytes.length < INBUFSIZE ∧ (0 : Byte) ∉ line.bytes := by
  have size : INBUFSIZE = 1024 := rfl
  constructor
  · exact fun scans => ⟨scans.fits, scans.plain⟩
  · rintro ⟨short, plain⟩ before stop rest fmt args ends
    obtain ⟨s, received, memory, scan⟩ := scanf_eq line before ends rest fmt args
    have handed : stringAt s.g_pcInBuf = line.bytes := by
      rw [memory]
      exact stringAt_written before plain (by omega)
    refine ⟨s, received, ?_, ⟨line.bytes.length, short, ?_⟩, line.bytes, .inl rfl, handed, ?_⟩
    · intro i above
      rw [memory]
      exact written_outside before _ (by simp only [List.length_append, List.length_singleton]; omega)
    · rw [memory, written, dif_pos (by simp)]
      simp
    · rw [← handed]
      exact scan

/-- The line of 1024 spaces is stored with its terminator behind the buffer. -/
theorem long_line_overruns :
    ¬ ScansLine ⟨List.replicate 1024 (ch ' '), fun c mem => by rw [List.eq_of_mem_replicate mem]; decide⟩ := by
  intro scans
  have fits := scans.fits
  rw [List.length_replicate] at fits
  exact absurd fits (by decide)

end Tiny6410.Stdio
