import OpenIDP.Userspace.Strings
import OpenIDP.Userspace.TermResize

/-!
# The arrays of the escape parser

`term_write` of `src/userspace/terminal/term.c` keeps the numbers of an escape sequence in an array
of four, and the text of a command in an array of 128 bytes. Neither is initialised by `term_init`:
each number is when its part of the sequence begins, and the text when the command does. A sequence
may be cut anywhere and go on in the next call.

The parser is described with its arrays, and with what it does to their elements.

## Main definitions

* `Parser` — the fields of the parser, and the accesses so far
* `Parser.step`, `Parser.run` — a byte, and some bytes
* `SoundLog` — accesses in the arrays, and no number is read that was not initialised
* `Parser.Bounded` — what holds at every moment
* `Parser.Represents` — the parser of a terminal

## Main results

* `Inv.step` — what a byte keeps
* `parser_bounded` — the bounds hold after every part of every sequence of calls
* `Represents.writeByte` — a terminal parses as its parser does
* `Represents.readString` — the file name of a command
-/

namespace OpenIDP.Userspace

/-- What `term_write` does: a sequence begins, or an element of an array is accessed. A number is
set to zero, changed, or read, and `apply` is the read in `term_process_ansi_end`. -/
inductive ParserAccess
  | start
  | reset (i : ℤ)
  | store (i : ℤ)
  | load (i : ℤ)
  | apply (i : ℤ)
  | oscStore (i : ℤ)
deriving DecidableEq

/-- A number was set to zero since its sequence began. The last access is the first of the list. -/
def ResetSince (i : ℤ) : List ParserAccess → Prop
  | [] => False
  | access :: log => access = .reset i ∨ access ≠ .start ∧ ResetSince i log

/-- The access is in its array, and does not read a number that was not initialised. -/
def ParserAccess.Sound (log : List ParserAccess) : ParserAccess → Prop
  | .start => True
  | .reset i | .store i => 0 ≤ i ∧ i ≤ 3
  | .load i | .apply i => (0 ≤ i ∧ i ≤ 3) ∧ ResetSince i log
  | .oscStore i => 0 ≤ i ∧ i < 128

/-- All accesses were sound. -/
def SoundLog : List ParserAccess → Prop
  | [] => True
  | access :: log => access.Sound log ∧ SoundLog log

/-- The fields of `term_t` that belong to the parser, and the accesses so far. -/
structure Parser where
  ansiState : AnsiState
  ansiParams : ℤ → ℤ
  ansiParamCount : ℤ
  oscBuffer : ℤ → BitVec 8
  oscIdx : ℤ
  log : List ParserAccess

namespace Parser

variable (p : Parser)

/-- What `term_init` does to the parser. -/
def init : Parser := { p with ansiState := .normal, ansiParamCount := 0, log := [] }

/-- `term_process_ansi_end` -/
def processAnsiEnd (terminator : BitVec 8) : Parser :=
  let applied :=
    if terminator = 0x6d#8 then
      (List.range p.ansiParamCount.toNat).foldl (fun log (i : ℕ) => .apply i :: log) p.log
    else p.log
  { p with
    ansiState := .normal
    ansiParamCount := 0
    ansiParams := Function.update p.ansiParams 0 0
    log := .reset 0 :: applied }

/-- Before the last byte of a sequence is processed, `term_write` counts the current number. The
first one is looked at, as it may be missing. -/
def countLast : Parser :=
  let p₁ := if p.ansiParamCount = 0 then { p with log := .load 0 :: p.log } else p
  if p.ansiParamCount = 0 ∧ p.ansiParams 0 = 0 then p₁
  else { p₁ with ansiParamCount := p.ansiParamCount + 1 }

/-- The body of the loop of `term_write`. -/
def step (c : BitVec 8) : Parser :=
  match p.ansiState with
  | .esc =>
    if c = 0x5b#8 then
      { p with
        ansiState := .csi
        ansiParamCount := 0
        ansiParams := Function.update p.ansiParams 0 0
        log := .reset 0 :: .start :: p.log }
    else if c = 0x5d#8 then
      { p with
        ansiState := .osc
        oscIdx := 0
        oscBuffer := fun k => if 0 ≤ k ∧ k < 128 then 0 else p.oscBuffer k }
    else { p with ansiState := .normal }
  | .osc =>
    if c = 0x07#8 then { p with ansiState := .normal }
    else if p.oscIdx < 127 then
      { p with
        oscBuffer := Function.update p.oscBuffer p.oscIdx c
        oscIdx := p.oscIdx + 1
        log := .oscStore p.oscIdx :: p.log }
    else p
  | .csi =>
    if 0x30 ≤ c.toInt ∧ c.toInt ≤ 0x39 then
      { p with
        ansiParams := Function.update p.ansiParams p.ansiParamCount
          (wrapInt (p.ansiParams p.ansiParamCount * 10 + (c.toInt - 0x30)))
        log := .store p.ansiParamCount :: .load p.ansiParamCount :: p.log }
    else if c = 0x3b#8 then
      if p.ansiParamCount < 3 then
        { p with
          ansiParamCount := p.ansiParamCount + 1
          ansiParams := Function.update p.ansiParams (p.ansiParamCount + 1) 0
          log := .reset (p.ansiParamCount + 1) :: p.log }
      else p
    else p.countLast.processAnsiEnd c
  | .normal => if c = 0x1b#8 then { p with ansiState := .esc } else p

/-- Some bytes, one after the other. -/
def run (bytes : List (BitVec 8)) : Parser := bytes.foldl step p

/-- The bytes that calls of `term_write` look at. -/
def written (calls : List (List (BitVec 8))) : List (BitVec 8) :=
  calls.flatMap fun str => str.takeWhile fun c => c ≠ 0#8

/-- What holds at every moment. -/
structure Bounded : Prop where
  count_nonneg : 0 ≤ p.ansiParamCount
  count_le : p.ansiParamCount ≤ 3
  osc_le : p.ansiState = .osc → p.oscIdx ≤ 127
  osc_end : p.ansiState = .osc → ∃ k, 0 ≤ k ∧ k < 128 ∧ p.oscBuffer k = 0
  log : SoundLog p.log

/-- What every byte keeps: in a sequence, all numbers up to the current one were initialised; and
the last byte of the text of a command is zero. -/
structure Inv : Prop where
  count_nonneg : 0 ≤ p.ansiParamCount
  count_le : p.ansiParamCount ≤ 3
  fresh : p.ansiState = .csi → ∀ i, 0 ≤ i → i ≤ p.ansiParamCount → ResetSince i p.log
  osc_nonneg : p.ansiState = .osc → 0 ≤ p.oscIdx
  osc_le : p.ansiState = .osc → p.oscIdx ≤ 127
  osc_end : p.ansiState = .osc → p.oscBuffer 127 = 0
  log : SoundLog p.log

section Bounds

variable {p : Parser} {log : List ParserAccess} {i : ℤ} {n : ℕ} {c : BitVec 8}

theorem Inv.bounded (h : p.Inv) : p.Bounded where
  count_nonneg := h.count_nonneg
  count_le := h.count_le
  osc_le := h.osc_le
  osc_end hosc := ⟨127, by decide, by decide, h.osc_end hosc⟩
  log := h.log

/-- Outside of a sequence and of a command only the counter and the accesses matter. -/
theorem Inv.of_outside (hnonneg : 0 ≤ p.ansiParamCount) (hle : p.ansiParamCount ≤ 3)
    (hcsi : p.ansiState ≠ .csi) (hosc : p.ansiState ≠ .osc) (hlog : SoundLog p.log) : p.Inv where
  count_nonneg := hnonneg
  count_le := hle
  fresh h := absurd h hcsi
  osc_nonneg h := absurd h hosc
  osc_le h := absurd h hosc
  osc_end h := absurd h hosc
  log := hlog

theorem inv_init (p : Parser) : p.init.Inv :=
  .of_outside le_rfl (by decide : (0 : ℤ) ≤ 3) nofun nofun trivial

/-- The reads of `term_process_ansi_end` leave what was initialised. -/
theorem apply_sound (hlog : SoundLog log) (hn : n ≤ 4)
    (hfresh : ∀ i : ℤ, 0 ≤ i → i < n → ResetSince i log) :
    SoundLog ((List.range n).foldl (fun log (i : ℕ) => .apply i :: log) log) ∧
      ∀ i : ℤ, ResetSince i log →
        ResetSince i ((List.range n).foldl (fun log (i : ℕ) => .apply i :: log) log) := by
  induction n with
  | zero => exact ⟨hlog, fun i h => h⟩
  | succ n ih =>
    obtain ⟨hsound, hkept⟩ := ih (by omega) fun i hi hlt => hfresh i hi (by omega)
    rw [List.range_succ, List.foldl_append, List.foldl_cons, List.foldl_nil]
    refine ⟨⟨⟨⟨by omega, by omega⟩, hkept _ (hfresh n (by omega) (by omega))⟩, hsound⟩, ?_⟩
    exact fun i h => Or.inr ⟨nofun, hkept i h⟩

/-- The end of a sequence, with numbers that were all initialised. -/
theorem processAnsiEnd_inv (hlog : SoundLog p.log) (hcount : p.ansiParamCount ≤ 4)
    (hfresh : ∀ i, 0 ≤ i → i < p.ansiParamCount → ResetSince i p.log) :
    (p.processAnsiEnd c).Inv := by
  refine .of_outside le_rfl (by decide : (0 : ℤ) ≤ 3) nofun nofun ⟨⟨by decide, by decide⟩, ?_⟩
  split_ifs
  · exact (apply_sound hlog (by omega) fun i hi hlt => hfresh i hi (by omega)).1
  · exact hlog

/-- What `term_process_ansi_end` gets. -/
theorem countLast_sound (hlog : SoundLog p.log) (hnonneg : 0 ≤ p.ansiParamCount)
    (hle : p.ansiParamCount ≤ 3)
    (hfresh : ∀ i, 0 ≤ i → i ≤ p.ansiParamCount → ResetSince i p.log) :
    SoundLog p.countLast.log ∧ p.countLast.ansiParamCount ≤ 4 ∧
      ∀ i, 0 ≤ i → i < p.countLast.ansiParamCount → ResetSince i p.countLast.log := by
  have hfirst : p.ansiParamCount = 0 → SoundLog (.load 0 :: p.log) := fun _ =>
    ⟨⟨by decide, hfresh 0 le_rfl hnonneg⟩, hlog⟩
  have hstill : ∀ i, 0 ≤ i → i ≤ p.ansiParamCount → ResetSince i (.load 0 :: p.log) :=
    fun i hi hlast => Or.inr ⟨nofun, hfresh i hi hlast⟩
  rw [countLast]
  by_cases hzero : p.ansiParamCount = 0
  · rw [if_pos hzero]
    split_ifs
    · exact ⟨hfirst hzero, hle.trans (by decide), fun i hi hlt => hstill i hi hlt.le⟩
    · exact ⟨hfirst hzero, Int.add_le_add_right hle 1, fun i hi hlt =>
        hstill i hi (Int.lt_add_one_iff.mp hlt)⟩
  · rw [if_neg hzero, if_neg fun h => hzero h.1]
    exact ⟨hlog, Int.add_le_add_right hle 1, fun i hi hlt =>
      hfresh i hi (Int.lt_add_one_iff.mp hlt)⟩

/-- A byte keeps the bounds. -/
theorem Inv.step (h : p.Inv) (c : BitVec 8) : (p.step c).Inv := by
  have hnonneg := h.count_nonneg
  have hle := h.count_le
  rw [Parser.step]
  cases hstate : p.ansiState with
  | normal =>
    dsimp only
    split_ifs
    · exact .of_outside hnonneg hle nofun nofun h.log
    · exact h
  | esc =>
    dsimp only
    split_ifs
    · refine ⟨le_rfl, (by decide : (0 : ℤ) ≤ 3), fun _ i hi hlast => ?_, nofun, nofun, nofun, ?_⟩
      · exact Or.inl (by rw [le_antisymm hlast hi])
      · exact ⟨⟨by decide, by decide⟩, trivial, h.log⟩
    · exact ⟨hnonneg, hle, nofun, fun _ => le_rfl, fun _ => (by decide : (0 : ℤ) ≤ 127),
        fun _ => rfl, h.log⟩
    · exact .of_outside hnonneg hle nofun nofun h.log
  | osc =>
    have hidx := h.osc_nonneg hstate
    have hend := h.osc_end hstate
    dsimp only
    split_ifs with hbell hroom
    · exact .of_outside hnonneg hle nofun nofun h.log
    · refine ⟨hnonneg, hle, nofun, fun _ => ?_, fun _ => ?_, fun _ => ?_, ?_⟩
      · exact Int.add_nonneg hidx (by decide)
      · exact hroom
      · exact (Function.update_of_ne hroom.ne' c _).trans hend
      · exact ⟨⟨hidx, hroom.trans (by decide)⟩, h.log⟩
    · exact h
  | csi =>
    have hfresh := h.fresh hstate
    have hlast := hfresh p.ansiParamCount hnonneg le_rfl
    dsimp only
    by_cases hdigit : 0x30 ≤ c.toInt ∧ c.toInt ≤ 0x39
    · -- a digit changes the current number
      rw [if_pos hdigit]
      refine ⟨hnonneg, hle, fun _ i hi hlt => ?_, nofun, nofun, nofun, ?_⟩
      · exact Or.inr ⟨nofun, Or.inr ⟨nofun, hfresh i hi hlt⟩⟩
      · exact ⟨⟨hnonneg, hle⟩, ⟨⟨hnonneg, hle⟩, hlast⟩, h.log⟩
    · rw [if_neg hdigit]
      by_cases hsep : c = 0x3b#8
      · rw [if_pos hsep]
        split_ifs with hroom
        · -- the next number is initialised
          have hnext : 0 ≤ p.ansiParamCount + 1 := Int.add_nonneg hnonneg (by decide)
          refine ⟨hnext, hroom, fun _ i hi hlt => ?_, nofun, nofun, nofun, ⟨hnext, hroom⟩, h.log⟩
          rcases hlt.eq_or_lt with rfl | hold
          · exact Or.inl rfl
          · exact Or.inr ⟨nofun, hfresh i hi (Int.lt_add_one_iff.mp hold)⟩
        · exact h
      · -- the sequence ends, and the current number may count
        rw [if_neg hsep]
        obtain ⟨hlog, hcount, hnumbers⟩ := countLast_sound h.log hnonneg hle hfresh
        exact processAnsiEnd_inv hlog hcount hnumbers

/-- **Bounds of the parser.** After `term_init`, and after every part of every sequence of calls of
`term_write`, the counters are in their bounds, a text has its end, and all accesses were in the
arrays, to numbers that were initialised. -/
theorem parser_bounded (p : Parser) (calls : List (List (BitVec 8))) (n : ℕ) :
    (p.init.run ((written calls).take n)).Bounded := by
  have hrun : ∀ (bytes : List (BitVec 8)) (q : Parser), q.Inv → (q.run bytes).Inv := by
    intro bytes
    induction bytes with
    | nil => exact fun q h => h
    | cons c bytes ih => exact fun q h => ih (q.step c) (h.step c)
  exact (hrun _ _ (inv_init p)).bounded

end Bounds

end Parser

namespace Term

/-- The fields of the parser. -/
def parserFields (t : Term) : AnsiState × (ℕ → ℤ) × ℕ × List (BitVec 8) :=
  (t.ansiState, t.ansiParams, t.ansiParamCount, t.oscBuffer)

variable {t t' : Term}

theorem Redrawn.parserFields (h : t.Redrawn t') : t'.parserFields = t.parserFields := by
  rw [Redrawn] at h
  rw [h]
  rfl

theorem advance_parserFields (t : Term) (c : BitVec 8) :
    (t.advance c).parserFields = t.parserFields := by
  rw [advance]
  split_ifs
  · rfl
  · rw [erase]
    split_ifs <;> rfl
  · rw [put]
    split_ifs <;> rfl

theorem scroll_parserFields (t : Term) : t.scroll.parserFields = t.parserFields := by
  rw [scroll]
  split_ifs
  · rfl
  all_goals exact (redrawFull_redrawn _).parserFields

/-- A character that is shown does not change the parser. -/
theorem putChar_parserFields (t : Term) (c : BitVec 8) :
    (t.putChar c).parserFields = t.parserFields := by
  rw [putChar]
  split_ifs
  · exact (scroll_parserFields _).trans (advance_parserFields t c)
  · exact ((drawCell_redrawn _ _ _).trans (drawCell_redrawn _ _ _)).parserFields.trans
      (advance_parserFields t c)

theorem applyAnsiCode_parserFields (t : Term) (code : ℤ) :
    (t.applyAnsiCode code).parserFields = t.parserFields := by
  rw [applyAnsiCode]
  split_ifs <;> rfl

theorem processAnsiEnd_params (t : Term) (c : BitVec 8) :
    (t.processAnsiEnd c).ansiParams = Function.update t.ansiParams 0 0 := by
  have happlied : ((List.range t.ansiParamCount).foldl
      (fun t i => t.applyAnsiCode (t.ansiParams i)) t).parserFields = t.parserFields :=
    List.foldlRecOn (motive := fun u : Term => u.parserFields = t.parserFields) _ _ rfl
      fun u hu i _ => (applyAnsiCode_parserFields u _).trans hu
  have hparams : ∀ u : Term, u.parserFields = t.parserFields → u.ansiParams = t.ansiParams :=
    fun u hu => congrArg (fun fields => fields.2.1) hu
  rw [processAnsiEnd]
  split_ifs
  · exact congrArg (Function.update · 0 0) (hparams _ (applyAnsiCode_parserFields t 0))
  · exact congrArg (Function.update · 0 0) (hparams _ happlied)
  · rfl

end Term

namespace Parser

/-- The fields of the parser of a terminal. The text of a command is there without the zeros of the
array behind it. -/
structure Represents (p : Parser) (t : Term) : Prop where
  state : t.ansiState = p.ansiState
  count : p.ansiParamCount = t.ansiParamCount
  params : ∀ i : ℕ, p.ansiParams i = t.ansiParams i
  idx : t.ansiState = .osc → p.oscIdx = t.oscBuffer.length
  text : t.ansiState = .osc → ∀ k : ℕ, k < 128 → p.oscBuffer k = t.oscBuffer.getD k 0
  ne_zero : t.ansiState = .osc → ∀ c ∈ t.oscBuffer, c ≠ 0

section Terminal

variable {p : Parser} {t t' : Term}

theorem Represents.of_fields (h : p.Represents t) (hfields : t'.parserFields = t.parserFields) :
    p.Represents t' := by
  obtain ⟨hstate, hparams, hcount, htext⟩ : t'.ansiState = t.ansiState ∧
      t'.ansiParams = t.ansiParams ∧ t'.ansiParamCount = t.ansiParamCount ∧
        t'.oscBuffer = t.oscBuffer := by
    simpa only [Term.parserFields, Prod.mk.injEq] using hfields
  obtain ⟨h₁, h₂, h₃, h₄, h₅, h₆⟩ := h
  constructor
  · rw [hstate, h₁]
  · rw [hcount, h₂]
  · rwa [hparams]
  · rwa [hstate, htext]
  · rwa [hstate, htext]
  · rwa [hstate, htext]

/-- Outside of a command only the numbers matter. -/
theorem Represents.of_outside (hstate : t.ansiState = p.ansiState) (hosc : t.ansiState ≠ .osc)
    (hcount : p.ansiParamCount = t.ansiParamCount)
    (hparams : ∀ i : ℕ, p.ansiParams i = t.ansiParams i) : p.Represents t where
  state := hstate
  count := hcount
  params := hparams
  idx h := absurd h hosc
  text h := absurd h hosc
  ne_zero h := absurd h hosc

/-- A number that is written. -/
theorem update_params (hparams : ∀ i : ℕ, p.ansiParams i = t.ansiParams i) (n : ℕ) (value : ℤ)
    (i : ℕ) :
    Function.update p.ansiParams n value i = Function.update t.ansiParams n value i := by
  rcases eq_or_ne i n with rfl | hne
  · rw [Function.update_self, Function.update_self]
  · rw [Function.update_of_ne hne, Function.update_of_ne (Nat.cast_injective.ne hne), hparams]

theorem represents_processAnsiEnd (hparams : ∀ i : ℕ, p.ansiParams i = t.ansiParams i)
    (c : BitVec 8) : (p.processAnsiEnd c).Represents (t.processAnsiEnd c) :=
  .of_outside rfl nofun rfl fun i => by
    rw [Term.processAnsiEnd_params]
    exact update_params hparams 0 0 i

/-- The start of a command. -/
theorem represents_oscStart (h : p.Represents t) :
    { p with
      ansiState := .osc
      oscIdx := 0
      oscBuffer := fun k => if 0 ≤ k ∧ k < 128 then 0 else p.oscBuffer k : Parser }.Represents
        { t with ansiState := .osc, oscBuffer := [] } := by
  refine ⟨rfl, h.count, h.params, fun _ => rfl, fun _ k hk => ?_, fun _ b hb => ?_⟩
  · dsimp only
    rw [if_pos ⟨Int.natCast_nonneg k, Int.ofNat_lt.mpr hk⟩, List.getD_nil]
  · exact absurd hb List.not_mem_nil

/-- A byte of the text of a command. -/
theorem represents_oscStore (h : p.Represents t) (hosc : t.ansiState = .osc) {c : BitVec 8}
    (hc : c ≠ 0) :
    { p with
      ansiState := .osc
      oscBuffer := Function.update p.oscBuffer t.oscBuffer.length c
      oscIdx := t.oscBuffer.length + 1
      log := .oscStore t.oscBuffer.length :: p.log : Parser }.Represents
        { t with ansiState := .osc, oscBuffer := t.oscBuffer ++ [c] } := by
  refine ⟨rfl, h.count, h.params, fun _ => ?_, fun _ k hk => ?_, fun _ b hb => ?_⟩
  · rw [List.length_append, List.length_singleton, Nat.cast_succ]
  · dsimp only
    rcases lt_trichotomy k t.oscBuffer.length with hlt | rfl | hgt
    · rw [Function.update_of_ne (Nat.cast_injective.ne hlt.ne), List.getD_append _ _ _ _ hlt]
      exact h.text hosc k hk
    · rw [Function.update_self, List.getD_append_right _ _ _ _ le_rfl, Nat.sub_self,
        List.getD_cons_zero]
    · have hbehind := h.text hosc k hk
      rw [List.getD_eq_default _ _ hgt.le] at hbehind
      rw [Function.update_of_ne (Nat.cast_injective.ne hgt.ne'), hbehind,
        List.getD_eq_default _ _ (by rw [List.length_append, List.length_singleton]; exact hgt)]
  · rcases List.mem_append.mp hb with hb | hb
    · exact h.ne_zero hosc b hb
    · rwa [List.mem_singleton.mp hb]

theorem countLast_params (p : Parser) : p.countLast.ansiParams = p.ansiParams := by
  rw [countLast]
  split_ifs <;> rfl

/-- A terminal parses a byte as its parser does. -/
theorem Represents.writeByte (h : p.Represents t) (files : List (BitVec 8) → Option Image)
    {c : BitVec 8} (hc : c ≠ 0) : (p.step c).Represents (t.writeByte files c) := by
  have hcount := h.count
  have hparams := h.params
  have hsame := h.state
  have hnormal : AnsiState.normal ≠ .osc := by decide
  have hesc : AnsiState.esc ≠ .osc := by decide
  have hcsi : AnsiState.csi ≠ .osc := by decide
  rw [Parser.step, Term.writeByte]
  cases hstate : p.ansiState with
  | normal =>
    rw [hstate] at hsame
    rw [hsame]
    dsimp only
    split_ifs
    · exact .of_outside rfl hesc hcount hparams
    · exact h.of_fields (Term.putChar_parserFields t c)
  | esc =>
    rw [hstate] at hsame
    rw [hsame]
    dsimp only
    split_ifs
    · exact .of_outside rfl hcsi rfl fun i => update_params hparams 0 0 i
    · exact represents_oscStart h
    · refine Represents.of_fields ?_ (Term.putChar_parserFields _ c)
      exact .of_outside rfl hnormal hcount hparams
  | osc =>
    rw [hstate] at hsame
    have hidx := h.idx hsame
    rw [hsame]
    dsimp only
    rw [hidx]
    split_ifs with hbell hroom hroom' hroom'
    · have hdrawn := Term.drawOsc_drawn t files
      rw [Term.Drawn] at hdrawn
      rw [hdrawn]
      exact .of_outside rfl hnormal hcount hparams
    · exact represents_oscStore h hsame hc
    · exact absurd (Int.ofNat_lt.mp hroom) hroom'
    · exact absurd (Int.ofNat_lt.mpr hroom') hroom
    · exact h
  | csi =>
    rw [hstate] at hsame
    rw [hsame]
    dsimp only
    by_cases hdigit : 0x30 ≤ c.toInt ∧ c.toInt ≤ 0x39
    · rw [if_pos hdigit, if_pos hdigit, hcount, hparams]
      exact .of_outside rfl hcsi rfl fun i => update_params hparams _ _ i
    · rw [if_neg hdigit, if_neg hdigit]
      split_ifs with hsep hroom hroom' hroom'
      · rw [hcount]
        exact .of_outside rfl hcsi rfl fun i => update_params hparams (t.ansiParamCount + 1) 0 i
      · exact absurd (Int.ofNat_lt.mp (hcount ▸ hroom)) hroom'
      · exact absurd (hcount ▸ Int.ofNat_lt.mpr hroom') hroom
      · exact h
      all_goals
        refine represents_processAnsiEnd (fun i => ?_) c
        rw [countLast_params]
        exact hparams i

/-- The file name is the text behind the number of the command. -/
theorem Represents.readString (h : p.Represents t) (hp : p.Inv) (hosc : t.ansiState = .osc)
    (hnumber : 3 ≤ t.oscBuffer.length) :
    readString 128 (fun k => p.oscBuffer k) 3 = some (t.oscBuffer.drop 3) := by
  have hidx := h.idx hosc
  have hbound := hp.osc_le (h.state ▸ hosc)
  have hlength : t.oscBuffer.length ≤ 127 := by omega
  have htext := h.text hosc
  have hname : 3 + (t.oscBuffer.drop 3).length = t.oscBuffer.length := by
    rw [List.length_drop, Nat.add_sub_cancel' hnumber]
  have hstring : StringAt (fun k => p.oscBuffer k) 3 (t.oscBuffer.drop 3) := by
    refine ⟨textAt_of_byte (fun c hc => h.ne_zero hosc c (List.mem_of_mem_drop hc)) ?_, ?_⟩
    · intro k hk
      have hlt : 3 + k < t.oscBuffer.length := by omega
      rw [htext _ (by omega), List.getD_eq_getElem _ _ hlt, List.getElem_drop]
    · rw [hname]
      exact (htext _ (by omega)).trans (List.getD_eq_default _ _ le_rfl)
  exact hstring.readString_eq (by omega)

end Terminal

end Parser

end OpenIDP.Userspace
