import Tiny6410.Nand.Protocol

/-! Chip select between calls. Every function of the driver that selects the part
deselects it again before it returns, but for nand_readID. -/
namespace Tiny6410.Nand

open Memory

/-- The part is deselected and the controller on, and the other bits of NFCONT are as
they were. -/
structure Deselected (before : Word) (s : State) : Prop where
  chip : s.nfcont.getLsbD 1 = true
  controller : s.nfcont.getLsbD 0 = true
  others : ∀ i, 2 ≤ i → s.nfcont.getLsbD i = before.getLsbD i

def Call.isReadID : Call → Bool
  | .nand_readID _ => true
  | _ => false

theorem nand_init_deselected (p : Part) (s : State) : Deselected s.nfcont (nand_init p s) := by
  have on : (s.nfcont ||| (0x3 : Word) <<< 0).getLsbD 1 = true := by simp
  obtain ⟨issued, closed⟩ := nand_reset_issues p { s with
    nfconf := NFCONF_MLCCLKCTRL <<< 30 ||| NFCONF_MSGLENGTH <<< 25 ||| NFCONF_ECC_TYPE <<< 23 |||
      NFCONF_TACLS <<< 12 ||| NFCONF_TWRPH0 <<< 8 ||| NFCONF_TWRPH1 <<< 4
    nfcont := s.nfcont ||| (0x3 : Word) <<< 0 }
  refine ⟨closed on, (nand_init_ready p s).enabled, fun i hi => ?_⟩
  have high : ((0x3 : Word) <<< 0).getLsbD i = false := by
    rw [getLsbD_pattern (P := fun j => j < 2) (by decide) (fun _ _ => by omega) i]
    exact decide_eq_false (by omega)
  refine (issued.others i (by omega)).trans ?_
  rw [BitVec.getLsbD_or, high, Bool.or_false]

theorem call_deselects (p : Part) (s : State) (c : Call) (init : c ≠ .nand_init) (ident : c.isReadID = false) :
    ∃ t, c.run p s = some t ∧ Deselects s t ∧ ∀ i ≠ 1, t.nfcont.getLsbD i = s.nfcont.getLsbD i := by
  cases c with
  | nand_init => exact absurd rfl init
  | nand_readID => cases ident
  | nand_reset =>
    obtain ⟨issued, closed⟩ := nand_reset_issues p s
    exact ⟨_, rfl, closed, issued.others⟩
  | nand_read_page buffer start_addr size =>
    obtain ⟨t, run, issued, closed⟩ := nand_read_page_issues p buffer start_addr size s
    exact ⟨t, run, closed, issued.others⟩
  | nand_write_page buffer size start_addr =>
    obtain ⟨t, run, issued, closed⟩ := nand_write_page_issues p buffer size start_addr s
    exact ⟨t, run, closed, issued.others⟩
  | nand_read_in_page buffer srcAddr size =>
    by_cases other : OtherPage srcAddr size
    · exact ⟨s, congrArg some (nand_read_in_page_other p buffer s other), fun was => was, fun _ _ => rfl⟩
    · obtain ⟨issued, closed⟩ := nand_read_in_page_issues p buffer s other
      exact ⟨_, rfl, closed, issued.others⟩
  | copy2addr srcAddr aim size =>
    obtain ⟨t, run, closed, clean, broken⟩ := copy2addr_issues p srcAddr aim size s
    refine ⟨t, run, closed, ?_⟩
    by_cases whole : (Call.copy2addr srcAddr aim size).Clean
    · exact (clean whole).others
    · exact (broken whole).others

/-- One call keeps the part deselected unless it is nand_readID. -/
theorem call_deselected_iff (p : Part) {before : Word} {s : State} (h : Deselected before s) (c : Call) :
    ∃ t, c.run p s = some t ∧ (Deselected before t ↔ c.isReadID = false) := by
  by_cases init : c = .nand_init
  · subst init
    have again := nand_init_deselected p s
    refine ⟨_, rfl, fun _ => rfl, fun _ => ⟨again.chip, again.controller, fun i hi => ?_⟩⟩
    rw [again.others i hi, h.others i hi]
  · cases ident : c.isReadID with
    | false =>
      obtain ⟨t, run, closed, others⟩ := call_deselects p s c init ident
      refine ⟨t, run, fun _ => rfl, fun _ => ⟨closed h.chip, ?_, fun i hi => ?_⟩⟩
      · rw [others 0 (by decide), h.controller]
      · rw [others i (by omega), h.others i hi]
    | true =>
      cases c with
      | nand_readID buffer =>
        refine ⟨_, rfl, fun selected => ?_, fun impossible => by cases impossible⟩
        have chip := selected.chip
        rw [nand_readID_selects p buffer s] at chip
        cases chip
      | _ => cases ident

theorem runCalls_keep_deselected_iff (p : Part) {before : Word} {s : State} (h : Deselected before s)
    (calls : List Call) :
    (∀ reached, reached <+: calls → ∃ s', runCalls p s reached = some s' ∧ Deselected before s') ↔
      ∀ c ∈ calls, c.isReadID = false := by
  induction calls generalizing s with
  | nil =>
    refine ⟨fun _ c mem => absurd mem List.not_mem_nil, fun _ reached short => ?_⟩
    rw [List.prefix_nil.mp short]
    exact ⟨s, rfl, h⟩
  | cons c rest ih =>
    obtain ⟨t, run, kept⟩ := call_deselected_iff p h c
    constructor
    · intro always
      obtain ⟨s', same, here⟩ := always [c] ⟨rest, rfl⟩
      rw [runCalls_cons run] at same
      obtain rfl := Option.some.inj same
      have later := (ih here).mp fun reached short => by
        have long := always (c :: reached) (List.cons_prefix_cons.mpr ⟨rfl, short⟩)
        rwa [runCalls_cons run] at long
      exact List.forall_mem_cons.mpr ⟨kept.mp here, later⟩
    · intro other reached short
      obtain ⟨first, later⟩ := List.forall_mem_cons.mp other
      rcases List.prefix_cons_iff.mp short with rfl | ⟨tail, rfl, inner⟩
      · exact ⟨s, rfl, h⟩
      · rw [runCalls_cons run]
        exact (ih (kept.mpr first)).mpr later tail inner

/-- After nand_init, the part is deselected between any two calls exactly if none of them
is nand_readID. -/
theorem deselected_between_calls_iff (p : Part) (s : State) (calls : List Call) :
    (∀ reached, reached <+: calls →
      ∃ s', runCalls p s (.nand_init :: reached) = some s' ∧ Deselected s.nfcont s') ↔
      ∀ c ∈ calls, c.isReadID = false :=
  runCalls_keep_deselected_iff p (nand_init_deselected p s) calls

theorem nand_readID_leaves_selected : ∃ s', runCalls onePart zeroState [.nand_init, .nand_readID 0x50000000] = some s' ∧
    s'.nfcont.getLsbD 1 = false :=
  ⟨_, rfl, nand_readID_selects onePart 0x50000000 (nand_init onePart zeroState)⟩

end Tiny6410.Nand
