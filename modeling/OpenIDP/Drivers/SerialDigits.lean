import OpenIDP.Drivers.Serial
import Mathlib.Data.Nat.Digits.Lemmas

/-!
# Numbers on the serial port

`serial_write_uint` of `src/drivers/com1.c` puts the digits of a number into an array, from the
lowest one on, and sends them in reverse. It takes 64 bits, but `serial_printf` fetches the argument
of `%u` and `%x` as an `unsigned`. The addresses that the fault handlers report and the page counts
of the frame allocator are passed as 64 bits.

## Main definitions

* `digitLoop`, `writeUint` — the loop with its array
* `Numeral` — a text that is a number in some base, without leading zeros
* `PrintsWhole` — a conversion prints the number that was passed

## Main results

* `writeUint_eq` — the digits of a number of 64 bits fit into the array
* `serialWriteUint_numeral` — what is sent is the number
* `prints_whole_iff` — the numbers that are printed as they are
-/

namespace OpenIDP.Drivers

/-- The character for a digit. -/
def digitChar (digit : ℕ) : BitVec 8 :=
  BitVec.ofNat 8 (if digit < 10 then 48 + digit else 97 + digit - 10)

/-- The loop that fills `buffer`, of which `buffer[0]` to `buffer[i - 1]` were written. A store
behind the array has no result. -/
def digitLoop (base : ℕ) : ℕ → ℕ → List (BitVec 8) → Option (List (BitVec 8))
  | 0, _, _ => none
  | fuel + 1, value, buffer =>
    if value > 0 then
      if buffer.length < 32 then
        digitLoop base fuel (value / base) (buffer ++ [digitChar (value % base)])
      else none
    else some buffer

/-- `serial_write_uint`, with its array. -/
def writeUint (fuel value base : ℕ) : Option (List (BitVec 8)) :=
  if value = 0 then some [48] else (digitLoop base fuel value []).map List.reverse

/-- The digit that a character stands for. -/
def digitOf (c : BitVec 8) : ℕ := if c.toNat < 58 then c.toNat - 48 else c.toNat - 87

/-- The number that a text stands for. -/
def decode (base : ℕ) (text : List (BitVec 8)) : ℕ :=
  text.foldl (fun value c => value * base + digitOf c) 0

/-- The text is the number `v`: it has digits of the base only, and no zeros in front. -/
structure Numeral (base v : ℕ) (text : List (BitVec 8)) : Prop where
  digits : ∀ c ∈ text, (48 ≤ c ∧ c ≤ 57 ∨ 97 ≤ c ∧ c ≤ 102) ∧ digitOf c < base
  decode_eq : decode base text = v
  ne_nil : text ≠ []
  no_zeros : text.head? = some 48 → text = [48]

/-- The conversion `d` fits the digits into the array, and sends the whole argument as a number. -/
def PrintsWhole (mem : BitVec 64 → BitVec 8) (args : ℕ → BitVec 64) (fuel : ℕ) (d : BitVec 8)
    (base index : ℕ) : Prop :=
  ∃ out rounds, serialConversion mem args fuel d index = some out ∧
    writeUint rounds ((args index).toNat % 2 ^ 32) base = some out.sent ∧
    Numeral base (args index).toNat out.sent

section Results

variable {base value v fuel index : ℕ} {buffer text : List (BitVec 8)}

theorem digitChar_spec : ∀ digit < 16, (48 ≤ digitChar digit ∧ digitChar digit ≤ 57 ∨
    97 ≤ digitChar digit ∧ digitChar digit ≤ 102) ∧ digitOf (digitChar digit) = digit ∧
      (digitChar digit = 48 → digit = 0) := by
  decide

theorem serialWriteUint_of_ne_zero (h : value ≠ 0) :
    serialWriteUint value base = ((Nat.digits base value).map digitChar).reverse := if_neg h

/-- The loop writes the digits that are left. -/
theorem digitLoop_eq (hbase : 1 < base) (hfuel : (Nat.digits base value).length < fuel)
    (hroom : buffer.length + (Nat.digits base value).length ≤ 32) :
    digitLoop base fuel value buffer = some (buffer ++ (Nat.digits base value).map digitChar) := by
  induction fuel generalizing value buffer with
  | zero => exact absurd hfuel (Nat.not_lt_zero _)
  | succ fuel ih =>
    rw [digitLoop]
    by_cases hvalue : value > 0
    · rw [Nat.digits_def' hbase hvalue, List.length_cons] at hfuel hroom
      rw [if_pos hvalue, if_pos (by omega), ih (by omega) ?_, Nat.digits_def' hbase hvalue,
        List.map_cons, List.append_assoc, List.singleton_append]
      rw [List.length_append, List.length_singleton]
      omega
    · obtain rfl := Nat.eq_zero_of_not_pos hvalue
      rw [if_neg hvalue, Nat.digits_zero, List.map_nil, List.append_nil]

/-- The digits of 64 bits fit into the array. -/
theorem writeUint_eq (hbase : 4 ≤ base) (hvalue : value < 2 ^ 64) :
    writeUint 33 value base = some (serialWriteUint value base) := by
  have hlength : (Nat.digits base value).length ≤ 32 := by
    rw [Nat.digits_length_le_iff (by omega)]
    exact hvalue.trans_le (Nat.pow_le_pow_left hbase 32)
  by_cases hzero : value = 0
  · rw [writeUint, serialWriteUint, if_pos hzero, if_pos hzero]
  · rw [writeUint, if_neg hzero, serialWriteUint_of_ne_zero hzero,
      digitLoop_eq (by omega) (by omega) (by rwa [List.length_nil, Nat.zero_add]), Option.map_some,
      List.nil_append]

theorem decode_digits (hle : base ≤ 16) (ds : List ℕ) (hds : ∀ d ∈ ds, d < base) :
    decode base (ds.map digitChar).reverse = Nat.ofDigits base ds := by
  induction ds with
  | nil => rfl
  | cons d ds ih =>
    obtain ⟨hd, hrest⟩ := List.forall_mem_cons.mp hds
    rw [List.map_cons, List.reverse_cons, decode, List.foldl_append, ← decode, ih hrest,
      List.foldl_cons, List.foldl_nil, (digitChar_spec d (hd.trans_le hle)).2.1, Nat.ofDigits_cons,
      Nat.mul_comm, Nat.add_comm]

/-- What is sent for a number is the number. -/
theorem serialWriteUint_numeral (hbase : 1 < base) (hle : base ≤ 16) (value : ℕ) :
    Numeral base value (serialWriteUint value base) := by
  by_cases hzero : value = 0
  · subst hzero
    have hsent : serialWriteUint 0 base = [48] := if_pos rfl
    rw [hsent]
    refine ⟨fun c hc => ?_, by simp [decode, digitOf], List.cons_ne_nil _ _, fun _ => rfl⟩
    rw [List.mem_singleton.mp hc]
    exact ⟨by decide, Nat.zero_lt_of_lt hbase⟩
  · have hlt : ∀ d ∈ Nat.digits base value, d < base := fun d hd => Nat.digits_lt_base hbase hd
    rw [serialWriteUint_of_ne_zero hzero]
    refine ⟨fun c hc => ?_, ?_, ?_, fun hhead => ?_⟩
    · obtain ⟨d, hd, rfl⟩ := List.mem_map.mp (List.mem_reverse.mp hc)
      obtain ⟨hrange, hdigit, -⟩ := digitChar_spec d ((hlt d hd).trans_le hle)
      exact ⟨hrange, hdigit.trans_lt (hlt d hd)⟩
    · rw [decode_digits hle _ hlt, Nat.ofDigits_digits]
    · rw [ne_eq, List.reverse_eq_nil_iff, List.map_eq_nil_iff]
      exact Nat.digits_ne_nil_iff_ne_zero.mpr hzero
    · -- the first character stands for the highest digit, which is not zero
      have hne : Nat.digits base value ≠ [] := Nat.digits_ne_nil_iff_ne_zero.mpr hzero
      rw [List.head?_reverse, List.getLast?_map, List.getLast?_eq_some_getLast hne] at hhead
      have hlast := List.getLast_mem hne
      exact absurd ((digitChar_spec _ ((hlt _ hlast).trans_le hle)).2.2 (Option.some_inj.mp hhead))
        (Nat.getLast_digit_ne_zero base hzero)

theorem prints_iff {mem : BitVec 64 → BitVec 8} {args : ℕ → BitVec 64} {d : BitVec 8}
    (hbase : 4 ≤ base) (hle : base ≤ 16)
    (hsent : serialConversion mem args fuel d index =
      some ⟨serialWriteUint ((args index).toNat % 2 ^ 32) base, [.arg index]⟩) :
    PrintsWhole mem args fuel d base index ↔ (args index).toNat < 2 ^ 32 := by
  have hnumeral := serialWriteUint_numeral (by omega) hle ((args index).toNat % 2 ^ 32)
  constructor
  · rintro ⟨out, rounds, hout, -, hwhole⟩
    rw [hsent] at hout
    obtain rfl := Option.some_inj.mp hout
    have heq := hnumeral.decode_eq.symm.trans hwhole.decode_eq
    omega
  · intro hlt
    rw [Nat.mod_eq_of_lt hlt] at hsent hnumeral
    refine ⟨_, 33, hsent, ?_, hnumeral⟩
    rw [Nat.mod_eq_of_lt hlt]
    exact writeUint_eq hbase (hlt.trans (by decide))

/-- **Whole numbers.** `%u` and `%x` print the number that was passed if and only if it has at most
32 bits. -/
theorem prints_whole_iff (mem : BitVec 64 → BitVec 8) (args : ℕ → BitVec 64) (fuel index : ℕ) :
    (PrintsWhole mem args fuel 117 10 index ↔ (args index).toNat < 2 ^ 32) ∧
      (PrintsWhole mem args fuel 120 16 index ↔ (args index).toNat < 2 ^ 32) :=
  ⟨prints_iff (by decide) (by decide) rfl, prints_iff (by decide) (by decide) rfl⟩

/-- The first address of the kernel heap is printed as zero. -/
theorem not_prints_whole_kheapStart :
    ¬ PrintsWhole (fun _ => 0) (fun _ => 0xFFFF800000000000) 0 120 16 0 := by
  intro h
  have hlt := (prints_iff (by decide) (by decide) rfl).mp h
  exact absurd hlt (by decide)

end Results

end OpenIDP.Drivers
