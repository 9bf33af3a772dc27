import Tiny6410.Lib.CString
import Tiny6410.Lib.Text
import Tiny6410.Stdio.Printf

/-! What vsnprintf leaves in memory. The text does not depend on the buffer. Where it does
not come to the end of the address space, the stores are the text as far as end allows, and
any address that is stored to has lost what it held. -/
namespace Tiny6410.Stdio

open Memory (Byte Word Bytes offset offset_lt offset_add offset_eq_iff store store_same store_of_ne overlay
  overlay_at overlay_outside overlay_congr overlay_store store_overlay)
open CString

/-! The characters that are put. -/

theorem puts_append (stop : Word) (o : Out) (cs ds : List Byte) :
    o.puts stop (cs ++ ds) = (o.puts stop cs).puts stop ds := List.foldl_append

theorem puts_text (stop : Word) (o : Out) (cs : List Byte) : (o.puts stop cs).text = o.text ++ cs := by
  induction cs generalizing o with
  | nil => exact (List.append_nil _).symm
  | cons c cs ih =>
    rw [Out.puts, List.foldl_cons, ← Out.puts, ih]
    exact List.append_assoc _ _ _

theorem puts_str (stop : Word) (o : Out) (cs : List Byte) :
    (o.puts stop cs).str = o.str + BitVec.ofNat 32 cs.length := by
  induction cs generalizing o with
  | nil => exact (BitVec.add_zero _).symm
  | cons c cs ih =>
    rw [Out.puts, List.foldl_cons, ← Out.puts, ih, List.length_cons]
    exact step_add o.str cs.length

theorem puts_stores (stop : Word) (o : Out) (stores : List Store) (cs : List Byte) :
    Out.puts stop { o with stores := stores } cs = { o.puts stop cs with stores := stores } := by
  induction cs generalizing o with
  | nil => rfl
  | cons c cs ih => exact ih (o.put stop c)

/-! The formatter puts out one text, whatever the buffer. -/

/-- A step that puts a text and leaves arguments, neither of which goes by the output. -/
def Emits (f : Word → Word → Out → Out × List Word) : Prop :=
  ∃ text args, ∀ buf stop o, ∃ stores, f buf stop o = ({ o.puts stop text with stores := stores }, args)

theorem emits_puts (text : List Byte) (args : List Word) : Emits fun _ stop o => (o.puts stop text, args) :=
  ⟨text, args, fun _ _ _ => ⟨_, rfl⟩⟩

theorem Emits.ite {f g : Word → Word → Out → Out × List Word} (p : Prop) [Decidable p] (first : Emits f)
    (second : Emits g) : Emits fun buf stop o => if p then f buf stop o else g buf stop o := by
  by_cases holds : p
  · simpa only [if_pos holds] using first
  · simpa only [if_neg holds] using second

theorem convert_emits (mem : Bytes) (spec : Spec) (c : Byte) (args : List Word) :
    Emits fun buf stop o => convert mem buf stop spec c args o := by
  have count : Emits fun buf _ o =>
      ({ o with stores := o.stores ++ [⟨(va_word args).1, objectBytes (o.str - buf)⟩] }, (va_word args).2) :=
    ⟨[], (va_word args).2, fun _ _ _ => ⟨_, rfl⟩⟩
  unfold convert
  exact .ite _ (emits_puts _ _) <| .ite _ (emits_puts _ _) <| .ite _ (emits_puts _ _) <| .ite _ count <|
    .ite _ (emits_puts [ch '%'] args) <| .ite _ (emits_puts _ _) <| .ite _ (emits_puts _ _) <|
    .ite _ (emits_puts _ _) <| .ite _ (emits_puts _ _) <| .ite _ (emits_puts _ _) (emits_puts _ _)

theorem formatLoop_emits (mem : Bytes) (fuel : Nat) (fmt : List Byte) (args : List Word) :
    ∃ text, ∀ buf stop o, ∃ stores,
      formatLoop mem buf stop fuel fmt args o = { o.puts stop text with stores := stores } := by
  induction fuel generalizing fmt args with
  | zero => exact ⟨[], fun _ _ o => ⟨o.stores, rfl⟩⟩
  | succ fuel ih =>
    by_cases ended : fmt.headD 0 = 0
    · exact ⟨[], fun _ _ o => ⟨o.stores, by rw [formatLoop, if_pos ended]; rfl⟩⟩
    · by_cases plain : fmt.headD 0 ≠ ch '%'
      · obtain ⟨text, later⟩ := ih fmt.tail args
        refine ⟨fmt.headD 0 :: text, fun buf stop o => ?_⟩
        obtain ⟨stores, equal⟩ := later buf stop (o.put stop (fmt.headD 0))
        exact ⟨stores, by rw [formatLoop, if_neg ended, if_pos plain, equal]; rfl⟩
      · by_cases short : (specOf fmt.tail args).2.1.headD 0 = 0
        · refine ⟨[ch '%'], fun buf stop o => ⟨(o.put stop (ch '%')).stores, ?_⟩⟩
          rw [formatLoop, if_neg ended, if_neg plain]
          simp only [if_pos short]
          rfl
        · obtain ⟨text, args', converted⟩ := convert_emits mem (specOf fmt.tail args).1
            ((specOf fmt.tail args).2.1.headD 0) (specOf fmt.tail args).2.2
          obtain ⟨more, later⟩ := ih (specOf fmt.tail args).2.1.tail args'
          refine ⟨text ++ more, fun buf stop o => ?_⟩
          obtain ⟨between, first⟩ := converted buf stop o
          obtain ⟨stores, second⟩ := later buf stop { o.puts stop text with stores := between }
          refine ⟨stores, ?_⟩
          rw [formatLoop, if_neg ended, if_neg plain]
          simp only [if_neg short, first, second, puts_stores, puts_append]

/-- The loop of vsnprintf puts the formatted text. -/
theorem formatLoop_formatted (mem : Bytes) (fmt : List Byte) (args : List Word) (buf stop : Word) (o : Out) :
    ∃ stores, formatLoop mem buf stop fmt.length fmt args o =
      { o.puts stop (formatted mem fmt args) with stores := stores } := by
  obtain ⟨text, puts⟩ := formatLoop_emits mem fmt.length fmt args
  have same : formatted mem fmt args = text := by
    obtain ⟨_, dry⟩ := puts 0 0 ⟨0, fun _ => 0, [], []⟩
    rw [formatted, dry]
    exact (puts_text 0 _ text).trans (List.nil_append text)
  rw [same]
  exact puts buf stop o

/-! The stores. -/

/-- Up to the end of the address space, the characters that are not above stop are stored. -/
theorem puts_mem (stop : Word) (o : Out) (cs : List Byte) (fits : o.str.toNat + cs.length ≤ 2 ^ 32) :
    (o.puts stop cs).mem =
      overlay o.mem o.str (min cs.length (stop.toNat + 1 - o.str.toNat)) (cs.getD · 0) := by
  induction cs generalizing o with
  | nil =>
    rw [List.length_nil, Nat.zero_min, Memory.overlay_zero]
    rfl
  | cons c cs ih =>
    rw [List.length_cons] at fits
    have next : cs.length = 0 ∨ (o.str + 1).toNat = o.str.toNat + 1 := by
      have one : (1 : Word).toNat = 1 := rfl
      rw [BitVec.toNat_add, one]
      omega
    have later := ih (o.put stop c) (by
      change (o.str + 1).toNat + cs.length ≤ 2 ^ 32
      have bound := (o.str + 1).isLt
      omega)
    have room : min cs.length (stop.toNat + 1 - (o.str + 1).toNat) = min cs.length (stop.toNat - o.str.toNat) := by
      omega
    rw [Out.puts, List.foldl_cons, ← Out.puts, later]
    change overlay (if o.str ≤ stop then store o.mem o.str c else o.mem) (o.str + 1)
      (min cs.length (stop.toNat + 1 - (o.str + 1).toNat)) (cs.getD · 0) = _
    rw [room, List.length_cons]
    by_cases below : o.str ≤ stop
    · have less : o.str.toNat ≤ stop.toNat := below
      have longer : min (cs.length + 1) (stop.toNat + 1 - o.str.toNat) =
          min cs.length (stop.toNat - o.str.toNat) + 1 := by omega
      rw [if_pos below, longer]
      exact overlay_store o.mem o.str ((c :: cs).getD · 0) (by omega)
    · have less : stop.toNat < o.str.toNat := Nat.lt_of_not_le below
      have none : min cs.length (stop.toNat - o.str.toNat) = 0 := by omega
      have none' : min (cs.length + 1) (stop.toNat + 1 - o.str.toNat) = 0 := by omega
      rw [if_neg below, none, none', Memory.overlay_zero, Memory.overlay_zero]

section Runs

variable {stop size x : Word} {o p : Out}

theorem put_agree (same : o.str = p.str) (agree : o.mem x = p.mem x) (c : Byte) :
    (o.put stop c).mem x = (p.put stop c).mem x := by
  simp only [Out.put, same]
  split
  · by_cases here : x = p.str
    · rw [here, store_same, store_same]
    · rw [store_of_ne _ _ here, store_of_ne _ _ here, agree]
  · exact agree

/-- Two outputs at one place that agree on an address go on to agree on it. -/
theorem puts_agree (same : o.str = p.str) (agree : o.mem x = p.mem x) (cs : List Byte) :
    (o.puts stop cs).mem x = (p.puts stop cs).mem x := by
  induction cs generalizing o p with
  | nil => exact agree
  | cons c cs ih =>
    have next : (o.put stop c).str = (p.put stop c).str := congrArg (· + 1) same
    exact ih next (put_agree same agree c)

theorem put_hits (same : o.str = p.str) (below : o.str ≤ stop) (c : Byte) :
    (o.put stop c).mem o.str = (p.put stop c).mem o.str := by
  simp only [Out.put, ← same, if_pos below, store_same]

/-- They agree on every address that a character is stored to. -/
theorem puts_hits (same : o.str = p.str) {cs : List Byte} {i : Nat} (inside : i < cs.length)
    (below : o.str + BitVec.ofNat 32 i ≤ stop) :
    (o.puts stop cs).mem (o.str + BitVec.ofNat 32 i) = (p.puts stop cs).mem (o.str + BitVec.ofNat 32 i) := by
  have split : cs = cs.take i ++ cs[i] :: cs.drop (i + 1) := by
    rw [← List.drop_eq_getElem_cons inside, List.take_append_drop]
  have length : (cs.take i).length = i := List.length_take_of_le (Nat.le_of_lt inside)
  rw [split, puts_append, puts_append]
  have here : (o.puts stop (cs.take i)).str = o.str + BitVec.ofNat 32 i := by rw [puts_str, length]
  have here' : (p.puts stop (cs.take i)).str = o.str + BitVec.ofNat 32 i := by rw [puts_str, length, same]
  have level : ((o.puts stop (cs.take i)).put stop cs[i]).str = ((p.puts stop (cs.take i)).put stop cs[i]).str :=
    congrArg (· + 1) (here.trans here'.symm)
  have first := put_hits (here.trans here'.symm) (by rwa [here]) cs[i]
  rw [here] at first
  exact puts_agree level first (cs.drop (i + 1))

theorem terminate_agree (same : o.str = p.str) (agree : o.mem x = p.mem x) :
    (o.terminate stop size).mem x = (p.terminate stop size).mem x := by
  have stored (a : Word) : store o.mem a 0 x = store p.mem a 0 x := by
    by_cases here : x = a
    · rw [here, store_same, store_same]
    · rw [store_of_ne _ _ here, store_of_ne _ _ here, agree]
  simp only [Out.terminate, same]
  split
  · exact stored _
  · split
    · exact stored _
    · exact agree

theorem terminate_hits (same : o.str = p.str) (below : o.str ≤ stop) :
    (o.terminate stop size).mem o.str = (p.terminate stop size).mem o.str := by
  simp only [Out.terminate, ← same, if_pos below, store_same]

theorem terminate_str (stop size : Word) (o : Out) : (o.terminate stop size).str = o.str := by
  unfold Out.terminate
  split_ifs <;> rfl

end Runs

/-! vsnprintf -/

section

variable {mem : Bytes} {buf size : Word} {fmt : List Byte} {args : List Word}

theorem vsnprintf_eq (positive : size.slt 0 = false) (before : Bytes) :
    ∃ stores, vsnprintf mem buf size fmt args before =
      ({ Out.puts (limit buf size).1 ⟨buf, before, [], []⟩ (formatted mem fmt args) with
        stores := stores } : Out).terminate (limit buf size).1 (limit buf size).2 := by
  obtain ⟨stores, loop⟩ := formatLoop_formatted mem fmt args buf (limit buf size).1 ⟨buf, before, [], []⟩
  refine ⟨stores, ?_⟩
  rw [vsnprintf, if_neg (by rw [positive]; exact Bool.false_ne_true), loop]

theorem vsnprintf_str (positive : size.slt 0 = false) (before : Bytes) :
    (vsnprintf mem buf size fmt args before).str = buf + BitVec.ofNat 32 (formatted mem fmt args).length := by
  obtain ⟨stores, out⟩ := @vsnprintf_eq mem buf size fmt args positive before
  rw [out, terminate_str]
  exact puts_str _ _ _

theorem vsnprintf_result (positive : size.slt 0 = false) (before : Bytes) :
    (vsnprintf mem buf size fmt args before).result buf =
      (BitVec.ofNat 32 (formatted mem fmt args).length).toInt := by
  rw [Out.result, vsnprintf_str positive, BitVec.add_comm, BitVec.add_sub_cancel]

/-- An address that a character or the terminator is stored to. -/
theorem vsnprintf_hits (positive : size.slt 0 = false) {i : Nat} (inside : i ≤ (formatted mem fmt args).length)
    (below : buf + BitVec.ofNat 32 i ≤ (limit buf size).1) (before before' : Bytes) :
    (vsnprintf mem buf size fmt args before).mem (buf + BitVec.ofNat 32 i) =
      (vsnprintf mem buf size fmt args before').mem (buf + BitVec.ofNat 32 i) := by
  obtain ⟨stores, out⟩ := @vsnprintf_eq mem buf size fmt args positive before
  obtain ⟨stores', out'⟩ := @vsnprintf_eq mem buf size fmt args positive before'
  rw [out, out']
  have here (before : Bytes) : (Out.puts (limit buf size).1 ⟨buf, before, [], []⟩ (formatted mem fmt args)).str =
      buf + BitVec.ofNat 32 (formatted mem fmt args).length := puts_str _ _ _
  rcases Nat.lt_or_eq_of_le inside with less | last
  · refine terminate_agree ((here before).trans (here before').symm) ?_
    exact puts_hits (o := ⟨buf, before, [], []⟩) (p := ⟨buf, before', [], []⟩) rfl less below
  · subst last
    have hits := @terminate_hits (limit buf size).1 (limit buf size).2
      { Out.puts (limit buf size).1 ⟨buf, before, [], []⟩ (formatted mem fmt args) with stores := stores }
      { Out.puts (limit buf size).1 ⟨buf, before', [], []⟩ (formatted mem fmt args) with stores := stores' }
      ((here before).trans (here before').symm) (by simpa only [here] using below)
    simpa only [here] using hits

/-- Such an address is not kept. -/
theorem vsnprintf_spoils (positive : size.slt 0 = false) {i : Nat} (inside : i ≤ (formatted mem fmt args).length)
    (below : buf + BitVec.ofNat 32 i ≤ (limit buf size).1) :
    ¬ ∀ before, (vsnprintf mem buf size fmt args before).mem (buf + BitVec.ofNat 32 i) =
      before (buf + BitVec.ofNat 32 i) := by
  intro kept
  have same := vsnprintf_hits positive inside below (fun _ => 0) fun _ => 1
  rw [kept, kept] at same
  exact absurd same (by decide)

/-- A text that ends in time, with its terminator behind it. -/
theorem vsnprintf_whole (positive : size.slt 0 = false) (fits : buf.toNat + (formatted mem fmt args).length < 2 ^ 32)
    (room : buf.toNat + (formatted mem fmt args).length ≤ (limit buf size).1.toNat) (before : Bytes) :
    (vsnprintf mem buf size fmt args before).mem =
      overlay before buf ((formatted mem fmt args).length + 1) ((formatted mem fmt args).getD · 0) := by
  obtain ⟨stores, out⟩ := @vsnprintf_eq mem buf size fmt args positive before
  have start := puts_mem (limit buf size).1 ⟨buf, before, [], []⟩ (formatted mem fmt args) (Nat.le_of_lt fits)
  have here := puts_str (limit buf size).1 ⟨buf, before, [], []⟩ (formatted mem fmt args)
  simp only at start here
  have all : min (formatted mem fmt args).length ((limit buf size).1.toNat + 1 - buf.toNat) =
      (formatted mem fmt args).length := by omega
  have end_ : (buf + BitVec.ofNat 32 (formatted mem fmt args).length).toNat =
      buf.toNat + (formatted mem fmt args).length := by
    rw [BitVec.toNat_add, BitVec.toNat_ofNat]
    omega
  have below : buf + BitVec.ofNat 32 (formatted mem fmt args).length ≤ (limit buf size).1 := by
    rw [BitVec.le_def, end_]
    exact room
  have zero : (formatted mem fmt args).getD (formatted mem fmt args).length 0 = 0 :=
    List.getD_eq_default _ _ le_rfl
  rw [out, Out.terminate]
  simp only [here, if_pos below, start, all]
  rw [← store_overlay before buf _ (by omega), zero]

end

/-! The string in memory. -/

theorem strlenLoop_found (s : Nat → Byte) {n : Nat} (zero : s n = 0) (before : ∀ i < n, s i ≠ 0)
    {fuel i : Nat} (here : i ≤ n) (enough : n < i + fuel) : strlenLoop s fuel i = n := by
  induction fuel generalizing i with
  | zero => omega
  | succ fuel ih =>
    rw [strlenLoop]
    by_cases found : i = n
    · rw [if_pos (by rw [found]; exact zero), found]
    · rw [if_neg (before i (by omega)), ih (by omega) (by omega)]

/-- The string ends at the first zero, whatever is behind it. -/
theorem stringAt_eq {s : Nat → Byte} {text : List Byte} (plain : (0 : Byte) ∉ text) (short : text.length < 2 ^ 32)
    (bytes : ∀ i ≤ text.length, s i = text.getD i 0) : stringAt s = text := by
  have last : s text.length = 0 := by rw [bytes _ le_rfl, List.getD_eq_default _ _ le_rfl]
  have inside : ∀ i (low : i < text.length), s i = text[i] := by
    intro i low
    rw [bytes i (Nat.le_of_lt low), List.getD_eq_getElem _ _ low]
  have found : strlen s = text.length := by
    refine strlenLoop_found _ last (fun i low zero => ?_) (Nat.zero_le _) (by omega)
    rw [inside i low] at zero
    exact plain (zero ▸ List.getElem_mem low)
  unfold stringAt
  rw [found]
  apply List.ext_getElem
  · simp
  · intro i _ low
    rw [List.getElem_map, List.getElem_range, inside i low]

/-- What is found of a text that was stored with its terminator: it ends at its first zero. -/
theorem stringAt_overlay (before : Bytes) (a : Word) {text : List Byte} (short : text.length < 2 ^ 32) :
    stringAt (window (overlay before a (text.length + 1) (text.getD · 0)) a) = Text.string 0 text := by
  obtain ⟨rest, split⟩ : ∃ rest, text ++ [0] = Text.string 0 text ++ 0 :: rest := Text.exists_string_append text
  have within : (Text.string 0 text).length ≤ text.length := (List.takeWhile_sublist _).length_le
  refine stringAt_eq (Text.string_plain text) (by omega) fun i low => ?_
  have byte : (text ++ [0]).getD i 0 = text.getD i 0 := by
    rcases Nat.lt_or_ge i text.length with inside | last
    · exact List.getD_append _ _ _ _ inside
    · rw [List.getD_append_right _ _ _ _ last, List.getD_eq_default text 0 last]
      have first : i - text.length = 0 := by omega
      rw [first]
      rfl
  rw [window, overlay_at before a _ (by omega) (by omega), ← byte, split]
  rcases Nat.lt_or_eq_of_le low with inside | rfl
  · exact List.getD_append _ _ _ _ inside
  · rw [List.getD_append_right _ _ _ _ le_rfl, List.getD_eq_default _ _ le_rfl, Nat.sub_self]
    rfl

end Tiny6410.Stdio
