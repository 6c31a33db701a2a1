import OpenIDP.Exec.CopyOut
import Mathlib.Data.Nat.Digits.Defs

/-!
# Text for the serial port

`sys_write` of `src/syscall/sys_io.c` passes the text of a process to `serial_printf` of
`src/drivers/com1.c` as the format, and no arguments. The formatter sends the bytes of its format to
the port, and looks for conversions in it.

What it sends is described together with what it reads: bytes at addresses, and arguments, which
are read from the places where a caller would have left them. When a string has no end it never
returns; `fuel` bounds the bytes it looks at.

## Main definitions

* `SerialOutput` — what is sent and what is read
* `serialPrintf`, `sysWrite` — the functions
* `HoldsString` — a string with its end in memory
* `PrintsVerbatim` — the text is sent as it is, and nothing else is read

## Main results

* `serialPrintf_plain` — a text without `%`
* `percent_not_mem_of_sent` — what is sent for a text with `%` is never that text, unless arguments
  are read
* `prints_verbatim_iff` — the texts that are printed as they are
-/

namespace OpenIDP.Drivers

open OpenIDP.Math OpenIDP.Exec

/-- A place that is read. -/
inductive SerialRead
  | byte (addr : BitVec 64)
  | arg (index : ℕ)
deriving DecidableEq

/-- The bytes sent to the port, and the places that are read. -/
structure SerialOutput where
  sent : List (BitVec 8)
  reads : List SerialRead

/-- Something is sent and read, and then more. -/
def SerialOutput.before (first rest : SerialOutput) : SerialOutput :=
  ⟨first.sent ++ rest.sent, first.reads ++ rest.reads⟩

/-- The bytes of a text. -/
def asciiBytes (text : List Char) : List (BitVec 8) := text.map fun c => BitVec.ofNat 8 c.toNat

/-- `serial_write_uint` -/
def serialWriteUint (value base : ℕ) : List (BitVec 8) :=
  if value = 0 then [48]
  else
    ((Nat.digits base value).map fun digit =>
      BitVec.ofNat 8 (if digit < 10 then 48 + digit else 97 + digit - 10)).reverse

/-- `serial_write_int` -/
def serialWriteInt (value : ℤ) : List (BitVec 8) :=
  if value < 0 then 45 :: serialWriteUint value.natAbs 10 else serialWriteUint value.natAbs 10

section Formatter

variable (mem : BitVec 64 → BitVec 8) (args : ℕ → BitVec 64)

/-- `serial_write_string` -/
def serialWriteString : ℕ → BitVec 64 → Option SerialOutput
  | 0, _ => none
  | fuel + 1, str =>
    if mem str = 0 then some ⟨[], [.byte str]⟩
    else
      (serialWriteString fuel (str + 1)).map
        (SerialOutput.before ⟨if mem str = 10 then [13, 10] else [mem str], [.byte str]⟩)

/-- What is sent for the conversion `d`, with the argument `index`. -/
def serialConversion (fuel : ℕ) (d : BitVec 8) (index : ℕ) : Option SerialOutput :=
  if d = 115 then
    if args index ≠ 0 then
      (serialWriteString mem fuel (args index)).map (SerialOutput.before ⟨[], [.arg index]⟩)
    else some ⟨asciiBytes ['(', 'n', 'u', 'l', 'l', ')'], [.arg index]⟩
  else if d = 99 then some ⟨[(args index).setWidth 8], [.arg index]⟩
  else if d = 100 then some ⟨serialWriteInt (toInt32 (args index).toNat), [.arg index]⟩
  else if d = 117 then some ⟨serialWriteUint ((args index).toNat % 2 ^ 32) 10, [.arg index]⟩
  else if d = 120 then some ⟨serialWriteUint ((args index).toNat % 2 ^ 32) 16, [.arg index]⟩
  else if d = 37 then some ⟨[37], []⟩
  else some ⟨asciiBytes ['[', '?', ']'], []⟩

/-- The conversion takes an argument. -/
def TakesArg (d : BitVec 8) : Prop := d ∈ [115, 99, 100, 117, 120]

instance (d : BitVec 8) : Decidable (TakesArg d) := inferInstanceAs (Decidable (_ ∈ _))

/-- The loop of `serial_printf`, with `index` arguments taken. The byte behind a `%` is skipped
even if it is the end of the format. -/
def serialPrintf : ℕ → ℕ → BitVec 64 → Option SerialOutput
  | 0, _, _ => none
  | fuel + 1, index, fmt =>
    if mem fmt = 0 then some ⟨[], [.byte fmt]⟩
    else if mem fmt ≠ 37 then
      (serialPrintf fuel index (fmt + 1)).map (SerialOutput.before ⟨[mem fmt], [.byte fmt]⟩)
    else do
      let d := mem (fmt + 1)
      let conversion ← serialConversion mem args fuel d index
      let rest ← serialPrintf fuel (if TakesArg d then index + 1 else index) (fmt + 2)
      some ((SerialOutput.mk [] [.byte fmt, .byte (fmt + 1)]).before (conversion.before rest))

/-- `sys_write` -/
def sysWrite (fuel : ℕ) (_fd : ℤ) (buf : BitVec 64) : Option SerialOutput :=
  serialPrintf mem args fuel 0 buf

/-- The case of `syscall_dispatcher` for `SYS_WRITE`: what is sent to the port. -/
def syscallWrite (fuel : ℕ) (regs : Registers) : Option SerialOutput :=
  sysWrite mem args fuel (toInt32 regs.rdi.toNat) regs.rsi

/-- The bytes of a string and its end are in memory. -/
def HoldsString : BitVec 64 → List (BitVec 8) → Prop
  | addr, [] => mem addr = 0
  | addr, c :: text => c ≠ 0 ∧ mem addr = c ∧ HoldsString (addr + 1) text

/-- The call returns after sending the text, and it has read the bytes of the text and its end,
and nothing else. -/
def PrintsVerbatim (regs : Registers) (text : List (BitVec 8)) : Prop :=
  ∃ fuel out, syscallWrite mem args fuel regs = some out ∧ out.sent = text ∧
    ∀ r ∈ out.reads, ∃ i ≤ text.length, r = .byte (regs.rsi + BitVec.ofNat 64 i)

end Formatter

section Results

variable {mem : BitVec 64 → BitVec 8} {args : ℕ → BitVec 64} {text : List (BitVec 8)}
  {fmt : BitVec 64} {fuel index : ℕ} {out : SerialOutput}

/-- A text without `%` is sent as it is. -/
theorem serialPrintf_plain (hstring : HoldsString mem fmt text) (hplain : 37 ∉ text) :
    serialPrintf mem args (text.length + 1) index fmt = some ⟨text,
      (List.range (text.length + 1)).map fun i => .byte (fmt + BitVec.ofNat 64 i)⟩ := by
  induction text generalizing fmt with
  | nil =>
    have hend : mem fmt = 0 := hstring
    rw [serialPrintf, if_pos hend, List.length_nil, List.range_one, List.map_singleton,
      BitVec.add_zero]
  | cons c text ih =>
    obtain ⟨hc, hmem, hrest⟩ := hstring
    obtain ⟨hne, hlater⟩ := not_or.mp (List.mem_cons.not.mp hplain)
    rw [List.length_cons, serialPrintf, hmem, if_neg hc, if_pos (Ne.symm hne), ih hrest hlater,
      Option.map_some, SerialOutput.before, List.range_succ_eq_map (n := text.length + 1),
      List.map_cons, List.map_map]
    congr 2
    refine congrArg₂ List.cons ?_ (List.map_congr_left fun i _ => ?_)
    · rw [BitVec.add_zero]
    · rw [Function.comp_apply, Nat.succ_eq_add_one, Nat.add_comm i 1, BitVec.ofNat_add,
        ← BitVec.add_assoc]
      rfl

/-- A conversion that takes an argument reads it. -/
theorem serialConversion_reads {d : BitVec 8} (htakes : TakesArg d)
    (h : serialConversion mem args fuel d index = some out) : .arg index ∈ out.reads := by
  rw [serialConversion] at h
  split_ifs at h with h₁ _ h₂ h₃ h₄ h₅ h₆
  · obtain ⟨rest, -, rfl⟩ := Option.map_eq_some_iff.mp h
    exact List.mem_cons_self
  all_goals try (obtain rfl := Option.some_inj.mp h; exact List.mem_cons_self)
  · exact absurd htakes (by rw [h₆]; decide)
  · simp only [TakesArg, List.mem_cons, List.not_mem_nil, or_false] at htakes
    tauto

/-- What is sent for the other conversions. -/
theorem serialConversion_sent {d : BitVec 8} (htakes : ¬ TakesArg d)
    (h : serialConversion mem args fuel d index = some out) :
    out.sent = if d = 37 then [37] else [91, 63, 93] := by
  simp only [TakesArg, List.mem_cons, List.not_mem_nil, or_false, not_or] at htakes
  obtain ⟨h₁, h₂, h₃, h₄, h₅⟩ := htakes
  rw [serialConversion, if_neg h₁, if_neg h₂, if_neg h₃, if_neg h₄, if_neg h₅] at h
  split_ifs at h ⊢
  · obtain rfl := Option.some_inj.mp h
    rfl
  · obtain rfl := Option.some_inj.mp h
    rfl

/-- If no argument is read and a text is sent, perhaps behind some `%`, then the text has no `%`
and there are none in front of it. Each `%` of the format that is sent uses up two of it. -/
theorem percent_not_mem_of_sent {ahead : ℕ} (hstring : HoldsString mem fmt text)
    (h : serialPrintf mem args fuel index fmt = some out)
    (hargs : ∀ i, .arg i ∉ out.reads) (hsent : out.sent = List.replicate ahead 37 ++ text) :
    ahead = 0 ∧ 37 ∉ text := by
  induction fuel generalizing fmt text index ahead out with
  | zero => exact absurd h (Option.some_ne_none out).symm
  | succ fuel ih =>
    rw [serialPrintf] at h
    cases text with
    | nil =>
      have hend : mem fmt = 0 := hstring
      rw [if_pos hend] at h
      obtain rfl := Option.some_inj.mp h
      rw [List.append_nil] at hsent
      exact ⟨(List.replicate_eq_nil_iff 37).mp hsent.symm, List.not_mem_nil⟩
    | cons c text =>
      obtain ⟨hc, hmem, hrest⟩ := hstring
      rw [hmem, if_neg hc] at h
      by_cases hpercent : c = 37
      · -- the text begins with a conversion
        subst hpercent
        rw [if_neg (not_not.mpr rfl)] at h
        obtain ⟨conversion, hconversion, h⟩ := Option.bind_eq_some_iff.mp h
        obtain ⟨rest, hlater, h⟩ := Option.bind_eq_some_iff.mp h
        obtain rfl := Option.some_inj.mp h
        have htakes : ¬ TakesArg (mem (fmt + 1)) := fun htakes =>
          hargs index (List.mem_append_right _
            (List.mem_append_left _ (serialConversion_reads htakes hconversion)))
        have hhead : List.replicate ahead 37 ++ 37 :: text =
            37 :: (List.replicate ahead 37 ++ text) := by
          rw [← List.cons_append, ← List.replicate_succ, List.replicate_succ', List.append_assoc,
            List.singleton_append]
        have hall : conversion.sent ++ rest.sent = 37 :: (List.replicate ahead 37 ++ text) :=
          hsent.trans hhead
        rw [serialConversion_sent htakes hconversion] at hall
        split_ifs at hall with htwice
        · -- the second `%` belongs to the conversion, so one more is owed
          cases text with
          | nil =>
            have hend : mem (fmt + 1) = 0 := hrest
            rw [hend] at htwice
            exact absurd htwice (by decide)
          | cons d text =>
            obtain ⟨-, hd, hbehind⟩ := hrest
            obtain rfl : d = 37 := hd.symm.trans htwice
            rw [BitVec.add_assoc] at hbehind
            have htail : rest.sent = List.replicate (ahead + 1) 37 ++ text := by
              rw [List.replicate_succ', List.append_assoc, List.singleton_append]
              exact (List.cons.inj hall).2
            have hnone := ih hbehind hlater
              (fun i hi => hargs i (List.mem_append_right _ (List.mem_append_right _ hi))) htail
            exact absurd hnone.1 (Nat.succ_ne_zero ahead)
        · exact absurd (List.cons.inj hall).1 (by decide)
      · -- another byte is sent, which is no `%` that is owed
        rw [if_pos hpercent] at h
        obtain ⟨rest, hlater, rfl⟩ := Option.map_eq_some_iff.mp h
        cases ahead with
        | zero =>
          have htail : rest.sent = List.replicate 0 37 ++ text := (List.cons.inj hsent).2
          have hnone := ih hrest hlater
            (fun i hi => hargs i (List.mem_append_right _ hi)) htail
          exact ⟨rfl, List.mem_cons.not.mpr (not_or.mpr ⟨Ne.symm hpercent, hnone.2⟩)⟩
        | succ ahead => exact absurd (List.cons.inj hsent).1 hpercent

/-- A text that is printed as it is has no `%`. -/
theorem PrintsVerbatim.not_mem {regs : Registers} (hstring : HoldsString mem regs.rsi text)
    (h : PrintsVerbatim mem args regs text) : 37 ∉ text := by
  obtain ⟨fuel, out, hout, hsent, hreads⟩ := h
  have hargs : ∀ i, SerialRead.arg i ∉ out.reads := by
    intro i hi
    obtain ⟨j, -, hj⟩ := hreads _ hi
    exact SerialRead.noConfusion hj
  have hahead : out.sent = List.replicate 0 37 ++ text := hsent
  exact (percent_not_mem_of_sent hstring hout hargs hahead).2

/-- A text is printed as it is if and only if it has no `%`. -/
theorem prints_verbatim_iff {regs : Registers} (hstring : HoldsString mem regs.rsi text) :
    PrintsVerbatim mem args regs text ↔ 37 ∉ text := by
  constructor
  · exact fun h => h.not_mem hstring
  · intro hplain
    refine ⟨text.length + 1, _, serialPrintf_plain hstring hplain, rfl, fun r hr => ?_⟩
    obtain ⟨i, hi, rfl⟩ := List.mem_map.mp hr
    exact ⟨i, Nat.lt_succ_iff.mp (List.mem_range.mp hi), rfl⟩

/-- The text `100%` at an address, and zeros. -/
def sampleText (addr : BitVec 64) : BitVec 8 :=
  (asciiBytes ['1', '0', '0', '%']).getD (addr.toNat - 0x400000) 0

/-- Registers of a process that writes a text. -/
def sampleWrite : Registers := ⟨0, 1, 0x400000, 0, 0, 0⟩

theorem sampleText_holds :
    HoldsString sampleText sampleWrite.rsi (asciiBytes ['1', '0', '0', '%']) :=
  ⟨by decide, by decide, by decide, by decide, by decide, by decide, by decide, by decide,
    (by decide : sampleText 0x400004 = 0)⟩

theorem prints_verbatim_iff_sampleText :
    PrintsVerbatim sampleText (fun _ => 0) sampleWrite (asciiBytes ['1', '0', '0', '%']) ↔
      37 ∉ asciiBytes ['1', '0', '0', '%'] :=
  prints_verbatim_iff sampleText_holds

/-- The text `100%` is not printed as it is. -/
theorem not_prints_verbatim_sampleText :
    ¬ PrintsVerbatim sampleText (fun _ => 0) sampleWrite (asciiBytes ['1', '0', '0', '%']) :=
  fun h => absurd (h.not_mem sampleText_holds) (by decide)

end Results

end OpenIDP.Drivers
