import OpenIDP.Drivers.Serial

/-!
# Where a formatter reads its format

`serial_printf` of `src/drivers/com1.c` and `printf` of `src/userspace/libc/stdio.c` have the same
loop: a byte that is no `%` is printed, and behind a `%` the next byte chooses a conversion. The
pointer is moved twice for a conversion, and only the top of the loop looks for the end.

The loop is described once, for any conversions, with the places of the format that it reads and
the place where it stops.

## Main definitions

* `format` — the loop
* `Paired` — each `%` has a byte behind it
* `conversions` — the conversions of a format, with the numbers of their arguments
* `StaysInside` — the loop ends at the end of the format, and reads nothing behind it
* `readText` — the loop over an argument that is a string
* `serialTakes`, `serialConvert` — the conversions of `serial_printf`

## Main results

* `format_paired` — the loop over a format whose `%` are paired
* `format_behind` — the loop over another format goes on behind its end
* `staysInside_iff` — the formats that are read up to their end and no further
* `serialPrintf_eq_format` — `serial_printf` is this loop
-/

namespace OpenIDP.Drivers

/-- Where the loop ended, the places of the format that it read, and what it printed. -/
structure Formatted where
  stop : BitVec 64
  reads : List (BitVec 64)
  printed : List (BitVec 8)

/-- Places are read and bytes are printed before the rest of the loop. -/
def Formatted.after (out : Formatted) (reads : List (BitVec 64)) (printed : List (BitVec 8)) :
    Formatted :=
  ⟨out.stop, reads ++ out.reads, printed ++ out.printed⟩

section Loop

variable (mem : BitVec 64 → BitVec 8) (takes : BitVec 8 → Bool)
  (convert : ℕ → BitVec 8 → ℕ → Option (List (BitVec 8)))

/-- The loop of a formatter. What `convert` prints may take steps of its own; `takes` says which
conversions use up an argument. -/
def format : ℕ → ℕ → BitVec 64 → Option Formatted
  | 0, _, _ => none
  | fuel + 1, index, fmt =>
    if mem fmt = 0 then some ⟨fmt, [fmt], []⟩
    else if mem fmt ≠ 37 then
      (format fuel index (fmt + 1)).map fun out => out.after [fmt] [mem fmt]
    else
      (convert fuel (mem (fmt + 1)) index).bind fun printed =>
        (format fuel (if takes (mem (fmt + 1)) then index + 1 else index) (fmt + 2)).map
          fun out => out.after [fmt, fmt + 1] printed

/-- Each `%` has a byte behind it that it is taken together with. -/
def Paired : List (BitVec 8) → Prop
  | [] => True
  | c :: text =>
    if c ≠ 37 then Paired text
    else
      match text with
      | [] => False
      | _ :: text => Paired text

/-- The conversions of a format, with the number of the argument that each would take. -/
def conversions : ℕ → List (BitVec 8) → List (BitVec 8 × ℕ)
  | _, [] => []
  | index, c :: text =>
    if c ≠ 37 then conversions index text
    else
      match text with
      | [] => []
      | d :: text => (d, index) :: conversions (if takes d then index + 1 else index) text

/-- The places are bytes of a format of some length, or its end. -/
def Inside (fmt : BitVec 64) (n : ℕ) (reads : List (BitVec 64)) : Prop :=
  ∀ r ∈ reads, ∃ i ≤ n, r = fmt + BitVec.ofNat 64 i

/-- The loop ends at the end of the format, and what it reads of the format is not behind it. -/
def StaysInside (fmt : BitVec 64) (text : List (BitVec 8)) : Prop :=
  ∃ fuel out, format mem takes convert fuel 0 fmt = some out ∧
    out.stop = fmt + BitVec.ofNat 64 text.length ∧ Inside fmt text.length out.reads

end Loop

section Results

variable {mem : BitVec 64 → BitVec 8} {takes : BitVec 8 → Bool}
  {convert : ℕ → BitVec 8 → ℕ → Option (List (BitVec 8))} {text : List (BitVec 8)}
  {a fmt : BitVec 64} {fuel index k n : ℕ} {out : Formatted} {reads : List (BitVec 64)}

theorem add_ofNat_add (a : BitVec 64) (k n : ℕ) :
    a + BitVec.ofNat 64 k + BitVec.ofNat 64 n = a + BitVec.ofNat 64 (n + k) := by
  rw [BitVec.add_assoc, Nat.add_comm n k, BitVec.ofNat_add]

theorem add_ofNat_succ (a : BitVec 64) (n : ℕ) :
    a + 1 + BitVec.ofNat 64 n = a + BitVec.ofNat 64 (n + 1) := add_ofNat_add a 1 n

theorem add_two (a : BitVec 64) : a + 1 + 1 = a + 2 := add_ofNat_succ a 1

/-- What is inside the rest of a format is inside the format. -/
theorem Inside.shift (h : Inside (fmt + BitVec.ofNat 64 k) n reads) : Inside fmt (n + k) reads := by
  intro r hr
  obtain ⟨i, hi, rfl⟩ := h r hr
  exact ⟨i + k, Nat.add_le_add_right hi k, add_ofNat_add fmt k i⟩

theorem Inside.cons (hk : k ≤ n) (h : Inside fmt n reads) :
    Inside fmt n ((fmt + BitVec.ofNat 64 k) :: reads) :=
  List.forall_mem_cons.mpr ⟨⟨k, hk, rfl⟩, h⟩

theorem HoldsString.ne_zero (h : HoldsString mem a text) :
    ∀ i < text.length, mem (a + BitVec.ofNat 64 i) ≠ 0 := by
  induction text generalizing a with
  | nil => exact fun i hi => absurd hi (Nat.not_lt_zero i)
  | cons c text ih =>
    obtain ⟨hc, hmem, hrest⟩ := h
    intro i hi
    cases i with
    | zero =>
      rw [BitVec.add_zero, hmem]
      exact hc
    | succ i =>
      rw [← add_ofNat_succ]
      exact ih hrest i (Nat.lt_of_succ_lt_succ hi)

theorem HoldsString.end_eq (h : HoldsString mem a text) :
    mem (a + BitVec.ofNat 64 text.length) = 0 := by
  induction text generalizing a with
  | nil =>
    rw [List.length_nil, BitVec.add_zero]
    exact h
  | cons c text ih =>
    rw [List.length_cons, ← add_ofNat_succ]
    exact ih h.2.2

/-- A string is shorter than the memory. -/
theorem HoldsString.length_lt (h : HoldsString mem a text) : text.length < 2 ^ 64 := by
  by_contra hle
  have hwrap : BitVec.ofNat 64 (text.length - 2 ^ 64) = BitVec.ofNat 64 text.length := by
    apply BitVec.eq_of_toNat_eq
    rw [BitVec.toNat_ofNat, BitVec.toNat_ofNat]
    omega
  have hnonzero := h.ne_zero (text.length - 2 ^ 64) (by omega)
  rw [hwrap] at hnonzero
  exact hnonzero h.end_eq

theorem conversions_plain {c : BitVec 8} (hc : c ≠ 37) :
    conversions takes index (c :: text) = conversions takes index text := by
  cases text with
  | nil => exact if_pos hc
  | cons d text => rw [conversions, if_pos hc]

theorem conversions_percent (d : BitVec 8) :
    conversions takes index (37 :: d :: text) =
      (d, index) :: conversions takes (if takes d then index + 1 else index) text := by
  rw [conversions, if_neg (not_not.mpr rfl)]

/-! ### One round -/

theorem format_end (h : mem fmt = 0) :
    format mem takes convert (fuel + 1) index fmt = some ⟨fmt, [fmt], []⟩ := by
  rw [format, if_pos h]

theorem format_plain (hend : mem fmt ≠ 0) (h : mem fmt ≠ 37) :
    format mem takes convert (fuel + 1) index fmt =
      (format mem takes convert fuel index (fmt + 1)).map fun out =>
        out.after [fmt] [mem fmt] := by
  rw [format, if_neg hend, if_pos h]

theorem format_conversion (h : mem fmt = 37) :
    format mem takes convert (fuel + 1) index fmt =
      (convert fuel (mem (fmt + 1)) index).bind fun printed =>
        (format mem takes convert fuel (if takes (mem (fmt + 1)) then index + 1 else index)
          (fmt + 2)).map fun out => out.after [fmt, fmt + 1] printed := by
  rw [format, h, if_neg (by decide), if_neg (not_not.mpr rfl)]

/-- The loop reads the byte that it begins with. -/
theorem format_mem_reads (h : format mem takes convert fuel index fmt = some out) :
    fmt ∈ out.reads := by
  cases fuel with
  | zero => cases h
  | succ fuel =>
    by_cases hend : mem fmt = 0
    · rw [format_end hend] at h
      rw [← Option.some_inj.mp h]
      exact List.mem_cons_self
    · by_cases hplain : mem fmt = 37
      · rw [format_conversion hplain] at h
        obtain ⟨printed, -, h⟩ := Option.bind_eq_some_iff.mp h
        obtain ⟨rest, -, rfl⟩ := Option.map_eq_some_iff.mp h
        exact List.mem_cons_self
      · rw [format_plain hend hplain] at h
        obtain ⟨rest, -, rfl⟩ := Option.map_eq_some_iff.mp h
        exact List.mem_cons_self

/-! ### All rounds -/

/-- A format whose `%` are paired is read up to its end, as soon as its conversions end. -/
theorem format_paired (hstring : HoldsString mem fmt text) (hpaired : Paired text)
    (hends : ∀ x ∈ conversions takes index text, ∃ n, ∀ fuel ≥ n,
      (convert fuel x.1 x.2).isSome) :
    ∃ n, ∀ fuel ≥ n, ∃ out, format mem takes convert fuel index fmt = some out ∧
      out.stop = fmt + BitVec.ofNat 64 text.length ∧ Inside fmt text.length out.reads := by
  fun_induction Paired text generalizing index fmt with
  | case1 =>
    refine ⟨1, fun fuel hfuel => ?_⟩
    obtain ⟨fuel, rfl⟩ := Nat.exists_eq_add_of_le' hfuel
    refine ⟨_, format_end hstring, (BitVec.add_zero fmt).symm, fun r hr => ?_⟩
    rw [List.mem_singleton.mp hr]
    exact ⟨0, le_rfl, (BitVec.add_zero fmt).symm⟩
  | case2 c text hc ih =>
    obtain ⟨hnonzero, hmem, hrest⟩ := hstring
    have hends' : ∀ x ∈ conversions takes index text, ∃ n, ∀ fuel ≥ n,
        (convert fuel x.1 x.2).isSome := by
      rwa [conversions_plain hc] at hends
    obtain ⟨n, hn⟩ := ih hrest hpaired hends'
    refine ⟨n + 1, fun fuel hfuel => ?_⟩
    obtain ⟨fuel, rfl⟩ := Nat.exists_eq_add_of_le' (Nat.le_of_add_left_le hfuel)
    obtain ⟨out, hout, hstop, hinside⟩ := hn fuel (by omega)
    rw [format_plain (hmem ▸ hnonzero) (hmem ▸ hc), hout]
    refine ⟨_, rfl, hstop.trans (add_ofNat_succ fmt _), ?_⟩
    have hcons := hinside.shift.cons (Nat.zero_le _)
    rwa [BitVec.add_zero] at hcons
  | case3 => exact absurd hpaired id
  | case4 c hc d text ih =>
    obtain rfl := not_not.mp hc
    obtain ⟨-, hmem, -, hd, hrest⟩ := hstring
    rw [add_two] at hrest
    rw [conversions_percent] at hends
    obtain ⟨hfirst, hlater⟩ := List.forall_mem_cons.mp hends
    obtain ⟨n, hn⟩ := ih hrest hpaired hlater
    obtain ⟨m, hm⟩ := hfirst
    refine ⟨n + m + 1, fun fuel hfuel => ?_⟩
    obtain ⟨fuel, rfl⟩ := Nat.exists_eq_add_of_le' (Nat.le_of_add_left_le hfuel)
    obtain ⟨printed, hprinted⟩ := Option.isSome_iff_exists.mp (hm fuel (by omega))
    obtain ⟨out, hout, hstop, hinside⟩ := hn fuel (by omega)
    rw [format_conversion hmem, hd, hprinted, Option.bind_some, hout]
    refine ⟨_, rfl, hstop.trans (add_ofNat_add fmt 2 _), ?_⟩
    have hrest : Inside fmt (text.length + 2) out.reads := hinside.shift
    have hcons := (hrest.cons (Nat.le_add_left 1 (text.length + 1))).cons (Nat.zero_le _)
    rwa [BitVec.add_zero] at hcons

/-- When the loop ends, the conversions of a format did. -/
theorem convert_of_format (hstring : HoldsString mem fmt text)
    (h : format mem takes convert fuel index fmt = some out) :
    ∀ x ∈ conversions takes index text, ∃ n, (convert n x.1 x.2).isSome := by
  fun_induction conversions takes index text generalizing fuel fmt out with
  | case1 => exact fun x hx => absurd hx List.not_mem_nil
  | case2 index c text hc ih =>
    obtain ⟨hnonzero, hmem, hrest⟩ := hstring
    cases fuel with
    | zero => cases h
    | succ fuel =>
      rw [format_plain (hmem ▸ hnonzero) (hmem ▸ hc)] at h
      obtain ⟨rest, hrun, -⟩ := Option.map_eq_some_iff.mp h
      exact ih hrest hrun
  | case3 index c hc => exact fun x hx => absurd hx List.not_mem_nil
  | case4 index c hc d text ih =>
    obtain rfl := not_not.mp hc
    obtain ⟨-, hmem, -, hd, hrest⟩ := hstring
    rw [add_two] at hrest
    cases fuel with
    | zero => cases h
    | succ fuel =>
      rw [format_conversion hmem, hd] at h
      obtain ⟨printed, hprinted, h⟩ := Option.bind_eq_some_iff.mp h
      obtain ⟨rest, hrun, -⟩ := Option.map_eq_some_iff.mp h
      exact List.forall_mem_cons.mpr ⟨⟨fuel, Option.isSome_of_eq_some hprinted⟩, ih hrest hrun⟩

/-- The loop over a format with a `%` at its end goes on behind the end. -/
theorem format_behind (hstring : HoldsString mem fmt text) (hpaired : ¬ Paired text)
    (h : format mem takes convert fuel index fmt = some out) :
    ∃ fuel' < fuel, ∃ index' rest, format mem takes convert fuel' index'
      (fmt + BitVec.ofNat 64 (text.length + 1)) = some rest ∧
      (∀ r ∈ rest.reads, r ∈ out.reads) ∧ rest.stop = out.stop := by
  fun_induction Paired text generalizing fuel index fmt out with
  | case1 => exact absurd trivial hpaired
  | case2 c text hc ih =>
    obtain ⟨hnonzero, hmem, hrest⟩ := hstring
    cases fuel with
    | zero => cases h
    | succ fuel =>
      rw [format_plain (hmem ▸ hnonzero) (hmem ▸ hc)] at h
      obtain ⟨out, hrun, rfl⟩ := Option.map_eq_some_iff.mp h
      obtain ⟨fuel', hlt, index', rest, hbehind, hreads, hstop⟩ := ih hrest hpaired hrun
      rw [add_ofNat_succ] at hbehind
      exact ⟨fuel', Nat.lt_succ_of_lt hlt, index', rest, hbehind,
        fun r hr => List.mem_cons_of_mem _ (hreads r hr), hstop⟩
  | case3 c hc =>
    -- the end of the format is taken for a conversion
    obtain rfl := not_not.mp hc
    obtain ⟨-, hmem, hend⟩ := hstring
    cases fuel with
    | zero => cases h
    | succ fuel =>
      rw [format_conversion hmem] at h
      obtain ⟨printed, -, h⟩ := Option.bind_eq_some_iff.mp h
      obtain ⟨rest, hrun, rfl⟩ := Option.map_eq_some_iff.mp h
      exact ⟨fuel, Nat.lt_succ_self fuel, _, rest, hrun,
        fun r hr => List.mem_append_right _ hr, rfl⟩
  | case4 c hc d text ih =>
    obtain rfl := not_not.mp hc
    obtain ⟨-, hmem, -, hd, hrest⟩ := hstring
    rw [add_two] at hrest
    cases fuel with
    | zero => cases h
    | succ fuel =>
      rw [format_conversion hmem] at h
      obtain ⟨printed, -, h⟩ := Option.bind_eq_some_iff.mp h
      obtain ⟨out, hrun, rfl⟩ := Option.map_eq_some_iff.mp h
      obtain ⟨fuel', hlt, index', rest, hbehind, hreads, hstop⟩ := ih hrest hpaired hrun
      have hshift : fmt + 2 + BitVec.ofNat 64 (text.length + 1) =
          fmt + BitVec.ofNat 64 (text.length + 1 + 2) := add_ofNat_add fmt 2 _
      rw [hshift] at hbehind
      exact ⟨fuel', Nat.lt_succ_of_lt hlt, index', rest, hbehind,
        fun r hr => List.mem_append_right _ (hreads r hr), hstop⟩

/-- Only a format whose `%` are paired is read up to its end and no further. -/
theorem Paired.of_inside (hstring : HoldsString mem fmt text)
    (h : format mem takes convert fuel index fmt = some out)
    (hinside : Inside fmt text.length out.reads) : Paired text := by
  induction fuel using Nat.strongRecOn generalizing index out with
  | ind fuel ih =>
    by_contra hpaired
    obtain ⟨fuel', hlt, index', rest, hrest, hreads, -⟩ := format_behind hstring hpaired h
    -- the place behind the end can only be inside if the addresses wrap, to the same format
    obtain ⟨i, hi, heq⟩ := hinside _ (hreads _ (format_mem_reads hrest))
    have hlength := hstring.length_lt
    have hwrap : text.length + 1 = 2 ^ 64 := by
      have hoffset := (BitVec.add_right_inj fmt).mp heq
      have hnat := congrArg BitVec.toNat hoffset
      rw [BitVec.toNat_ofNat, BitVec.toNat_ofNat] at hnat
      omega
    have hsame : fmt + BitVec.ofNat 64 (text.length + 1) = fmt := by
      rw [hwrap]
      exact BitVec.add_zero fmt
    rw [hsame] at hrest
    exact hpaired (ih fuel' hlt hrest fun r hr => hinside r (hreads r hr))

/-- The formats that are read up to their end and no further. -/
theorem staysInside_iff (hstring : HoldsString mem fmt text)
    (hmono : ∀ d i n, (convert n d i).isSome → ∀ fuel ≥ n, (convert fuel d i).isSome) :
    StaysInside mem takes convert fmt text ↔
      Paired text ∧ ∀ x ∈ conversions takes 0 text, ∃ n, (convert n x.1 x.2).isSome := by
  constructor
  · rintro ⟨fuel, out, hout, -, hinside⟩
    exact ⟨.of_inside hstring hout hinside, convert_of_format hstring hout⟩
  · rintro ⟨hpaired, hends⟩
    obtain ⟨n, hn⟩ := format_paired hstring hpaired fun x hx => by
      obtain ⟨m, hm⟩ := hends x hx
      exact ⟨m, hmono _ _ _ hm⟩
    obtain ⟨out, hout⟩ := hn n le_rfl
    exact ⟨n, out, hout⟩

/-- The same, where only `%s` has a loop: `ends` says that it ends within some rounds. -/
theorem staysInside_string_iff {ends : ℕ → ℕ → Prop} (hstring : HoldsString mem fmt text)
    (hconvert : ∀ fuel d index, (convert fuel d index).isSome ↔ (d = 115 → ends fuel index))
    (hmono : ∀ n index, ends n index → ∀ fuel ≥ n, ends fuel index) :
    StaysInside mem takes convert fmt text ↔
      Paired text ∧ ∀ x ∈ conversions takes 0 text, x.1 = 115 → ∃ n, ends n x.2 := by
  rw [staysInside_iff hstring]
  · refine and_congr_right' (forall₂_congr fun x _ => ?_)
    simp only [hconvert]
    constructor
    · rintro ⟨n, hn⟩ hd
      exact ⟨n, hn hd⟩
    · intro h
      by_cases hd : x.1 = 115
      · obtain ⟨n, hn⟩ := h hd
        exact ⟨n, fun _ => hn⟩
      · exact ⟨0, fun hs => absurd hs hd⟩
  · intro d i n hn fuel hfuel
    rw [hconvert] at hn ⊢
    exact fun hd => hmono n i (hn hd) fuel hfuel

end Results

/-! ## Strings as arguments -/

/-- The bytes of a string, up to its end. -/
def readText (mem : BitVec 64 → BitVec 8) : ℕ → BitVec 64 → Option (List (BitVec 8))
  | 0, _ => none
  | fuel + 1, s => if mem s = 0 then some [] else (readText mem fuel (s + 1)).map (mem s :: ·)

section Strings

variable {mem : BitVec 64 → BitVec 8} {args : ℕ → BitVec 64} {text s : List (BitVec 8)}
  {a fmt : BitVec 64} {fuel index n : ℕ} {d : BitVec 8}

/-- What is read is the string at the address. -/
theorem holdsString_of_readText (h : readText mem fuel a = some s) : HoldsString mem a s := by
  induction fuel generalizing a s with
  | zero => cases h
  | succ fuel ih =>
    rw [readText] at h
    split_ifs at h with hend
    · rw [← Option.some_inj.mp h]
      exact hend
    · obtain ⟨rest, hrest, rfl⟩ := Option.map_eq_some_iff.mp h
      exact ⟨hend, rfl, ih hrest⟩

theorem HoldsString.readText_eq (h : HoldsString mem a s) (hfuel : s.length < fuel) :
    readText mem fuel a = some s := by
  induction s generalizing a fuel with
  | nil =>
    obtain ⟨fuel, rfl⟩ := Nat.exists_eq_add_of_lt hfuel
    exact if_pos h
  | cons c s ih =>
    obtain ⟨hc, hmem, hrest⟩ := h
    cases fuel with
    | zero => exact absurd hfuel (Nat.not_lt_zero _)
    | succ fuel =>
      rw [readText, hmem, if_neg hc, ih hrest (Nat.lt_of_succ_lt_succ hfuel)]
      rfl

theorem readText_isSome_of_le (h : (readText mem n a).isSome) (hle : n ≤ fuel) :
    (readText mem fuel a).isSome := by
  induction n generalizing a fuel with
  | zero => cases h
  | succ n ih =>
    obtain ⟨fuel, rfl⟩ := Nat.exists_eq_add_of_le' (Nat.le_of_add_left_le hle)
    rw [readText] at h ⊢
    split_ifs at h ⊢ with hend
    · rfl
    · rw [Option.isSome_map] at h ⊢
      exact ih h (Nat.le_of_succ_le_succ hle)

/-- The loop over a string ends if there is one at the address. -/
theorem readText_ends_iff :
    (∃ n, (readText mem n a).isSome) ↔ ∃ s, HoldsString mem a s := by
  constructor
  · rintro ⟨n, hn⟩
    obtain ⟨s, hs⟩ := Option.isSome_iff_exists.mp hn
    exact ⟨s, holdsString_of_readText hs⟩
  · rintro ⟨s, hs⟩
    exact ⟨s.length + 1, Option.isSome_of_eq_some (hs.readText_eq (Nat.lt_succ_self _))⟩

theorem serialWriteString_isSome :
    (serialWriteString mem fuel a).isSome = (readText mem fuel a).isSome := by
  induction fuel generalizing a with
  | zero => rfl
  | succ fuel ih =>
    rw [serialWriteString, readText]
    by_cases hend : mem a = 0
    · rw [if_pos hend, if_pos hend]
      rfl
    · rw [if_neg hend, if_neg hend, Option.isSome_map, Option.isSome_map, ih]

end Strings

/-! ## The formatter of the kernel -/

/-- The conversions of `serial_printf` that use up an argument. -/
def serialTakes (d : BitVec 8) : Bool := decide (TakesArg d)

/-- What `serial_printf` prints for a conversion. -/
def serialConvert (mem : BitVec 64 → BitVec 8) (args : ℕ → BitVec 64) (fuel : ℕ) (d : BitVec 8)
    (index : ℕ) : Option (List (BitVec 8)) :=
  (serialConversion mem args fuel d index).map SerialOutput.sent

section Serial

variable {mem : BitVec 64 → BitVec 8} {args : ℕ → BitVec 64} {fmt : BitVec 64}
  {fuel index n : ℕ} {d : BitVec 8}

/-- `serial_printf` sends what the loop prints, and what the loop reads of the format is read. -/
theorem serialPrintf_eq_format (fuel index : ℕ) (fmt : BitVec 64) :
    Option.Rel (fun out formatted => formatted.printed = out.sent ∧
        ∀ r ∈ formatted.reads, SerialRead.byte r ∈ out.reads)
      (serialPrintf mem args fuel index fmt)
      (format mem serialTakes (serialConvert mem args) fuel index fmt) := by
  induction fuel generalizing index fmt with
  | zero => exact .none
  | succ fuel ih =>
    rw [serialPrintf]
    by_cases hend : mem fmt = 0
    · rw [if_pos hend, format_end hend]
      exact .some ⟨rfl, fun r hr => by rw [List.mem_singleton.mp hr]; exact List.mem_cons_self⟩
    · rw [if_neg hend]
      by_cases hplain : mem fmt = 37
      · rw [if_neg (not_not.mpr hplain), format_conversion hplain, serialConvert]
        simp only [Option.bind_eq_bind, serialTakes, decide_eq_true_eq]
        cases serialConversion mem args fuel (mem (fmt + 1)) index with
        | none => exact .none
        | some conversion =>
          rw [Option.bind_some, Option.map_some, Option.bind_some]
          have hrest := ih (if TakesArg (mem (fmt + 1)) then index + 1 else index) (fmt + 2)
          revert hrest
          generalize serialPrintf mem args fuel _ (fmt + 2) = out
          generalize format mem _ _ fuel _ (fmt + 2) = formatted
          intro hrest
          cases hrest with
          | none => exact .none
          | some h =>
            obtain ⟨hprinted, hreads⟩ := h
            refine .some ⟨congrArg (conversion.sent ++ ·) hprinted, ?_⟩
            refine List.forall_mem_cons.mpr ⟨List.mem_cons_self, List.forall_mem_cons.mpr ⟨?_, ?_⟩⟩
            · exact List.mem_cons_of_mem _ List.mem_cons_self
            · exact fun r hr => List.mem_append_right _ (List.mem_append_right _ (hreads r hr))
      · rw [if_pos hplain, format_plain hend hplain]
        have hrest := ih index (fmt + 1)
        revert hrest
        generalize serialPrintf mem args fuel index (fmt + 1) = out
        generalize format mem _ _ fuel index (fmt + 1) = formatted
        intro hrest
        cases hrest with
        | none => exact .none
        | some h =>
          obtain ⟨hprinted, hreads⟩ := h
          refine .some ⟨congrArg (mem fmt :: ·) hprinted, ?_⟩
          refine List.forall_mem_cons.mpr ⟨List.mem_cons_self, fun r hr => ?_⟩
          exact List.mem_append_right _ (hreads r hr)

/-- An argument for `%s` is `NULL`, or a string. -/
def SerialString (mem : BitVec 64 → BitVec 8) (a : BitVec 64) : Prop :=
  a = 0 ∨ ∃ s, HoldsString mem a s

theorem serialConvert_isSome_iff :
    (serialConvert mem args fuel d index).isSome ↔
      (d = 115 → args index = 0 ∨ (readText mem fuel (args index)).isSome) := by
  rw [serialConvert, Option.isSome_map, serialConversion]
  by_cases hs : d = 115
  · rw [if_pos hs]
    by_cases hnull : args index = 0
    · rw [if_neg (not_not.mpr hnull)]
      exact iff_of_true rfl fun _ => Or.inl hnull
    · rw [if_pos hnull, Option.isSome_map, serialWriteString_isSome]
      exact ⟨fun h _ => Or.inr h, fun h => (h hs).resolve_left hnull⟩
  · rw [if_neg hs]
    simp only [hs, false_imp_iff, iff_true]
    split_ifs <;> rfl

/-- The formats for which `serial_printf` ends at the end of the format. -/
theorem serial_staysInside_iff {text : List (BitVec 8)} (hstring : HoldsString mem fmt text) :
    StaysInside mem serialTakes (serialConvert mem args) fmt text ↔
      Paired text ∧
        ∀ x ∈ conversions serialTakes 0 text, x.1 = 115 → SerialString mem (args x.2) := by
  refine (staysInside_string_iff hstring (fun _ _ _ => serialConvert_isSome_iff) ?_).trans ?_
  · exact fun n index h fuel hfuel => h.imp_right fun h => readText_isSome_of_le h hfuel
  · simp only [SerialString, ← readText_ends_iff, exists_or, exists_const]

end Serial

end OpenIDP.Drivers
