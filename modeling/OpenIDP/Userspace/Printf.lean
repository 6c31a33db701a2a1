import OpenIDP.Drivers.Format
import OpenIDP.Userspace.Stdout

/-!
# Where the two formatters read their formats

`printf` of `src/userspace/libc/stdio.c` knows `%s` only, and prints nothing for another byte behind
a `%`. Its loop is that of `serial_printf`, and both go on behind the end of a format that ends with
a `%` of its own.

## Main definitions

* `printfTakes`, `printfConvert` — the conversions of `printf`

## Main results

* `printf_printed` — what `printf` prints
* `formats_stay_inside_iff` — the formats that the two functions read up to their end
-/

namespace OpenIDP.Userspace

open OpenIDP.Drivers

/-- The conversions of `printf` that use up an argument. -/
def printfTakes (d : BitVec 8) : Bool := d = 115

/-- What `printf` prints for a conversion. A string at `NULL` is a page fault. -/
def printfConvert (mem : BitVec 64 → BitVec 8) (args : ℕ → BitVec 64) (fuel : ℕ) (d : BitVec 8)
    (index : ℕ) : Option (List (BitVec 8)) :=
  if d = 115 then
    if args index = 0 then none else readText mem fuel (args index)
  else some []

/-- `printf`, with what it gives to `putchar`. -/
def printf (mem : BitVec 64 → BitVec 8) (args : ℕ → BitVec 64) (fuel : ℕ) (fmt : BitVec 64) :
    Option Formatted :=
  format mem printfTakes (printfConvert mem args) fuel 0 fmt

section Printf

variable {mem : BitVec 64 → BitVec 8} {args : ℕ → BitVec 64} {text bytes : List (BitVec 8)}
  {strings : List (List (BitVec 8))} {fmt : BitVec 64} {fuel index n : ℕ} {d : BitVec 8}

/-- An argument for `%s` is a string. -/
def PrintfString (mem : BitVec 64 → BitVec 8) (a : BitVec 64) : Prop :=
  a ≠ 0 ∧ ∃ s, HoldsString mem a s

/-- What the loop prints, from the argument `index` on. -/
theorem format_printed (hstring : HoldsString mem fmt text)
    (hargs : ∀ i s, strings[i]? = some s →
      args (index + i) ≠ 0 ∧ HoldsString mem (args (index + i)) s)
    (h : printfBytes text strings = some bytes) :
    ∃ n, ∀ fuel ≥ n, ∃ out,
      format mem printfTakes (printfConvert mem args) fuel index fmt = some out ∧
        out.printed = bytes := by
  fun_induction printfBytes text strings generalizing index fmt bytes with
  | case1 strings =>
    refine ⟨1, fun fuel hfuel => ?_⟩
    obtain ⟨fuel, rfl⟩ := Nat.exists_eq_add_of_le' hfuel
    exact ⟨_, format_end hstring, Option.some_inj.mp h⟩
  | case2 strings => cases h
  | case3 text => cases h
  | case4 text s strings ih =>
    obtain ⟨-, hmem, -, hd, hrest⟩ := hstring
    rw [add_two] at hrest
    obtain ⟨bytes, hbytes, rfl⟩ := Option.map_eq_some_iff.mp h
    have hfirst := hargs 0 s rfl
    rw [Nat.add_zero] at hfirst
    obtain ⟨hne, hs⟩ := hfirst
    have hargs' : ∀ i s, strings[i]? = some s →
        args (index + 1 + i) ≠ 0 ∧ HoldsString mem (args (index + 1 + i)) s := by
      intro i s hi
      rw [Nat.add_right_comm, Nat.add_assoc]
      exact hargs (i + 1) s hi
    obtain ⟨n, hn⟩ := ih hrest hargs' hbytes
    refine ⟨n + (s.length + 1) + 1, fun fuel hfuel => ?_⟩
    obtain ⟨fuel, rfl⟩ := Nat.exists_eq_add_of_le' (Nat.le_of_add_left_le hfuel)
    obtain ⟨out, hout, hprinted⟩ := hn fuel (by omega)
    have hconvert : printfConvert mem args fuel 115 index = some s := by
      rw [printfConvert, if_pos rfl, if_neg hne]
      exact hs.readText_eq (by omega)
    have hbyte : mem (fmt + 1) = 115 := hd
    have htakes : printfTakes 115 = true := rfl
    rw [format_conversion hmem, hbyte, hconvert, Option.bind_some, if_pos htakes, hout]
    exact ⟨_, rfl, congrArg (s ++ ·) hprinted⟩
  | case5 strings d text hd ih =>
    obtain ⟨-, hmem, -, hmemd, hrest⟩ := hstring
    rw [add_two] at hrest
    obtain ⟨n, hn⟩ := ih hrest hargs h
    refine ⟨n + 1, fun fuel hfuel => ?_⟩
    obtain ⟨fuel, rfl⟩ := Nat.exists_eq_add_of_le' (Nat.le_of_add_left_le hfuel)
    obtain ⟨out, hout, hprinted⟩ := hn fuel (by omega)
    have hconvert : printfConvert mem args fuel d index = some [] := if_neg hd
    have htakes : ¬ printfTakes d = true := fun h => hd (of_decide_eq_true h)
    rw [format_conversion hmem, hmemd, hconvert, Option.bind_some, if_neg htakes, hout]
    exact ⟨_, rfl, hprinted⟩
  | case6 c text strings hc ih =>
    obtain ⟨hnonzero, hmem, hrest⟩ := hstring
    obtain ⟨bytes, hbytes, rfl⟩ := Option.map_eq_some_iff.mp h
    obtain ⟨n, hn⟩ := ih hrest hargs hbytes
    refine ⟨n + 1, fun fuel hfuel => ?_⟩
    obtain ⟨fuel, rfl⟩ := Nat.exists_eq_add_of_le' (Nat.le_of_add_left_le hfuel)
    obtain ⟨out, hout, hprinted⟩ := hn fuel (by omega)
    rw [format_plain (hmem ▸ hnonzero) (hmem ▸ hc), hout, hmem]
    exact ⟨_, rfl, congrArg (c :: ·) hprinted⟩

/-- `printf` gives the bytes of its format and of its strings to `putchar`. -/
theorem printf_printed (hstring : HoldsString mem fmt text)
    (hargs : ∀ i s, strings[i]? = some s → args i ≠ 0 ∧ HoldsString mem (args i) s)
    (h : printfBytes text strings = some bytes) :
    ∃ fuel out, printf mem args fuel fmt = some out ∧ out.printed = bytes := by
  have hargs' : ∀ i s, strings[i]? = some s →
      args (0 + i) ≠ 0 ∧ HoldsString mem (args (0 + i)) s := by
    intro i s hi
    rw [Nat.zero_add]
    exact hargs i s hi
  obtain ⟨n, hn⟩ := format_printed hstring hargs' h
  obtain ⟨out, hout, hprinted⟩ := hn n le_rfl
  exact ⟨n, out, hout, hprinted⟩

theorem printfConvert_isSome_iff :
    (printfConvert mem args fuel d index).isSome ↔
      (d = 115 → args index ≠ 0 ∧ (readText mem fuel (args index)).isSome) := by
  rw [printfConvert]
  by_cases hs : d = 115
  · rw [if_pos hs]
    by_cases hnull : args index = 0
    · rw [if_pos hnull]
      exact iff_of_false Bool.false_ne_true fun h => (h hs).1 hnull
    · rw [if_neg hnull]
      exact ⟨fun h _ => ⟨hnull, h⟩, fun h => (h hs).2⟩
  · rw [if_neg hs]
    exact iff_of_true rfl fun h => absurd h hs

/-- The formats for which `printf` ends at the end of the format. -/
theorem printf_staysInside_iff (hstring : HoldsString mem fmt text) :
    StaysInside mem printfTakes (printfConvert mem args) fmt text ↔
      Paired text ∧
        ∀ x ∈ conversions printfTakes 0 text, x.1 = 115 → PrintfString mem (args x.2) := by
  refine (staysInside_string_iff hstring (fun _ _ _ => printfConvert_isSome_iff) ?_).trans ?_
  · exact fun n index h fuel hfuel => h.imp_right fun h => readText_isSome_of_le h hfuel
  · simp only [PrintfString, ← readText_ends_iff, exists_and_left]

/-- **Where the formatters stop.** The two formatters end at the end of a format and read nothing of
it behind its end if and only if each `%` is followed by a byte that it is taken together with, and
each `%s` has a string. -/
theorem formats_stay_inside_iff (hstring : HoldsString mem fmt text) :
    (StaysInside mem serialTakes (serialConvert mem args) fmt text ↔
        Paired text ∧
          ∀ x ∈ conversions serialTakes 0 text, x.1 = 115 → SerialString mem (args x.2)) ∧
      (StaysInside mem printfTakes (printfConvert mem args) fmt text ↔
        Paired text ∧
          ∀ x ∈ conversions printfTakes 0 text, x.1 = 115 → PrintfString mem (args x.2)) :=
  ⟨serial_staysInside_iff hstring, printf_staysInside_iff hstring⟩

/-- The format `5%%` at an address, and zeros. -/
def sampleFormat (addr : BitVec 64) : BitVec 8 :=
  (asciiBytes ['5', '%', '%']).getD (addr.toNat - 0x400000) 0

/-- Both functions stop at the end of the format `5%%`. -/
theorem formats_stay_inside_iff_sampleFormat :
    StaysInside sampleFormat serialTakes (serialConvert sampleFormat fun _ => 0) 0x400000
        (asciiBytes ['5', '%', '%']) ∧
      StaysInside sampleFormat printfTakes (printfConvert sampleFormat fun _ => 0) 0x400000
        (asciiBytes ['5', '%', '%']) := by
  have hstring : HoldsString sampleFormat 0x400000 (asciiBytes ['5', '%', '%']) :=
    ⟨by decide, by decide, by decide, by decide, by decide, by decide,
      (by decide : sampleFormat 0x400003 = 0)⟩
  have hpaired : Paired (asciiBytes ['5', '%', '%']) := by simp [asciiBytes, Paired]
  obtain ⟨hserial, hprintf⟩ := @formats_stay_inside_iff _ (fun _ => 0) _ _ hstring
  have hnone : ∀ takes, ∀ x ∈ conversions takes 0 (asciiBytes ['5', '%', '%']), x.1 ≠ 115 := by
    simp [asciiBytes, conversions]
  exact ⟨hserial.mpr ⟨hpaired, fun x hx hs => absurd hs (hnone _ x hx)⟩,
    hprintf.mpr ⟨hpaired, fun x hx hs => absurd hs (hnone _ x hx)⟩⟩

/-- Neither function stops at the end of the format `100%`. -/
theorem formats_not_inside_sampleText :
    ¬ StaysInside sampleText serialTakes (serialConvert sampleText fun _ => 0) 0x400000
        (asciiBytes ['1', '0', '0', '%']) ∧
      ¬ StaysInside sampleText printfTakes (printfConvert sampleText fun _ => 0) 0x400000
        (asciiBytes ['1', '0', '0', '%']) := by
  have hpaired : ¬ Paired (asciiBytes ['1', '0', '0', '%']) := by simp [asciiBytes, Paired]
  exact ⟨fun h => hpaired ((serial_staysInside_iff sampleText_holds).mp h).1,
    fun h => hpaired ((printf_staysInside_iff sampleText_holds).mp h).1⟩

end Printf

end OpenIDP.Userspace
