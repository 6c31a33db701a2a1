import Mathlib.Data.List.GetD
import Mathlib.Data.Nat.Basic
import Mathlib.Logic.Function.Basic
import OpenIDP.Math.Segments

/-!
# Strings in arrays

The string functions of `src/userspace/libc/string.h` work on arrays of characters. A string is a
sequence of bytes that are not zero, with a zero behind it. A read or a store outside of the array
has no result.

`strtok` puts a zero behind each token that it finds, and remembers where to go on.

## Main definitions

* `TextAt`, `StringAt` — what an array holds
* `store`, `copyString`, `strlen`, `strcat`, `readString`, `strtok` — the functions
* `PendingTokens` — the tokens that `strtok` will find

## Main results

* `copyString_spec`, `strcat_spec` — copying and appending
* `strtok_nil`, `strtok_cons` — the next token
-/

namespace OpenIDP.Userspace

open OpenIDP.Math

/-- An array of characters. Its size is not part of it. -/
abbrev CharArray := ℕ → BitVec 8

/-- The bytes of a string are in an array. -/
def TextAt (buf : CharArray) : ℕ → List (BitVec 8) → Prop
  | _, [] => True
  | i, c :: s => c ≠ 0 ∧ buf i = c ∧ TextAt buf (i + 1) s

/-- A string is in an array. -/
def StringAt (buf : CharArray) (i : ℕ) (s : List (BitVec 8)) : Prop :=
  TextAt buf i s ∧ buf (i + s.length) = 0

/-- Stores into an array of some size. -/
def store (size : ℕ) (buf : CharArray) (i : ℕ) (c : BitVec 8) : Option CharArray :=
  if i < size then some (Function.update buf i c) else none

/-- The loop of `strcpy` and `strcat`: copies a string and its end. -/
def copyString (size : ℕ) : CharArray → ℕ → List (BitVec 8) → Option CharArray
  | buf, i, [] => store size buf i 0
  | buf, i, c :: s => (store size buf i c).bind fun buf => copyString size buf (i + 1) s

/-- The first index from `i` on whose byte does not satisfy `p`, among the next `n`. -/
def scan (p : BitVec 8 → Bool) (buf : CharArray) : ℕ → ℕ → Option ℕ
  | 0, _ => none
  | n + 1, i => if p (buf i) then scan p buf n (i + 1) else some i

/-- `strlen` of the string at the front. -/
def strlen (size : ℕ) (buf : CharArray) : Option ℕ := scan (fun c => c ≠ 0) buf size 0

/-- `strcat` to the string at the front. -/
def strcat (size : ℕ) (buf : CharArray) (s : List (BitVec 8)) : Option CharArray :=
  (strlen size buf).bind fun len => copyString size buf len s

/-- Reads the string at an index. -/
def readString (size : ℕ) (buf : CharArray) (i : ℕ) : Option (List (BitVec 8)) :=
  (scan (fun c => c ≠ 0) buf (size - i) i).map fun stop =>
    (List.range (stop - i)).map fun k => buf (i + k)

/-- What `strtok` returns, the array, and where it goes on. -/
structure Token where
  start : Option ℕ
  buf : CharArray
  next : Option ℕ

/-- `strtok` in an array of some size, going on at `next`, where `isDelim` says which bytes are
delimiters. -/
def strtokBy (isDelim : BitVec 8 → Bool) (size : ℕ) (buf : CharArray) : Option ℕ → Option Token
  | none => some ⟨none, buf, none⟩
  | some next =>
    (scan (fun c => c ≠ 0 ∧ isDelim c) buf (size - next) next).bind fun start =>
      if buf start = 0 then some ⟨none, buf, none⟩
      else
        (scan (fun c => c ≠ 0 ∧ ¬isDelim c) buf (size - start) start).bind fun stop =>
          if buf stop ≠ 0 then
            (store size buf stop 0).map fun buf => ⟨some start, buf, some (stop + 1)⟩
          else some ⟨some start, buf, none⟩

/-- `strtok` with one delimiter, in an array of some size, going on at `next`. -/
def strtok (delim : BitVec 8) : ℕ → CharArray → Option ℕ → Option Token :=
  strtokBy fun c => c = delim

section Text

variable {buf buf' : CharArray} {size i n : ℕ} {s t : List (BitVec 8)} {c : BitVec 8}

theorem textAt_append :
    TextAt buf i (s ++ t) ↔ TextAt buf i s ∧ TextAt buf (i + s.length) t := by
  induction s generalizing i with
  | nil => simp [TextAt]
  | cons c s ih =>
    rw [List.cons_append, TextAt, TextAt, ih, List.length_cons, Nat.add_assoc, Nat.add_comm 1,
      and_assoc, and_assoc]

theorem TextAt.congr (h : TextAt buf i s)
    (hsame : ∀ j, i ≤ j → j < i + s.length → buf' j = buf j) : TextAt buf' i s := by
  induction s generalizing i with
  | nil => trivial
  | cons c s ih =>
    obtain ⟨hc, hbyte, hrest⟩ := h
    rw [List.length_cons] at hsame
    refine ⟨hc, (hsame i le_rfl (by omega)).trans hbyte, ih hrest fun j hle hlt => ?_⟩
    exact hsame j (by omega) (by omega)

theorem StringAt.congr (h : StringAt buf i s)
    (hsame : ∀ j, i ≤ j → j ≤ i + s.length → buf' j = buf j) : StringAt buf' i s :=
  ⟨h.1.congr fun j hle hlt => hsame j hle (Nat.le_of_lt hlt),
    (hsame _ (Nat.le_add_right _ _) le_rfl).trans h.2⟩

theorem TextAt.byte (h : TextAt buf i s) {k : ℕ} (hk : k < s.length) : buf (i + k) = s[k] := by
  induction s generalizing i k with
  | nil => exact absurd hk (Nat.not_lt_zero k)
  | cons c s ih =>
    obtain ⟨-, hbyte, hrest⟩ := h
    cases k with
    | zero => exact hbyte
    | succ k =>
      have hlater := ih hrest (Nat.lt_of_succ_lt_succ hk)
      rw [Nat.add_right_comm, Nat.add_assoc] at hlater
      exact hlater

theorem TextAt.ne_zero (h : TextAt buf i s) : ∀ c ∈ s, c ≠ 0 := by
  induction s generalizing i with
  | nil => exact fun c hc => absurd hc List.not_mem_nil
  | cons c s ih => exact List.forall_mem_cons.mpr ⟨h.1, ih h.2.2⟩

/-- An array that holds a string at its front, and zeros. -/
def listArray (s : List (BitVec 8)) : CharArray := fun i => s.getD i 0

theorem textAt_of_byte (hs : ∀ c ∈ s, c ≠ 0) (h : ∀ k (hk : k < s.length), buf (i + k) = s[k]) :
    TextAt buf i s := by
  induction s generalizing i with
  | nil => trivial
  | cons c s ih =>
    obtain ⟨hc, hrest⟩ := List.forall_mem_cons.mp hs
    refine ⟨hc, h 0 (Nat.zero_lt_succ _), ih hrest fun k hk => ?_⟩
    have hlater := h (k + 1) (Nat.succ_lt_succ hk)
    rwa [← Nat.add_assoc, Nat.add_right_comm] at hlater

theorem stringAt_listArray (hs : ∀ c ∈ s, c ≠ 0) : StringAt (listArray s) 0 s := by
  refine ⟨textAt_of_byte hs fun k hk => ?_, ?_⟩
  · rw [Nat.zero_add, listArray, List.getD_eq_getElem s 0 hk]
  · rw [Nat.zero_add, listArray, List.getD_eq_default s 0 le_rfl]

/-- A scan goes over bytes with the property. -/
theorem scan_eq {p : BitVec 8 → Bool} (h : TextAt buf i s) (hp : ∀ c ∈ s, p c = true)
    (hstop : p (buf (i + s.length)) = false) (hn : s.length < n) :
    scan p buf n i = some (i + s.length) := by
  induction s generalizing i n with
  | nil =>
    cases n with
    | zero => exact absurd hn (Nat.not_lt_zero _)
    | succ n =>
      rw [List.length_nil, Nat.add_zero] at hstop
      rw [scan, hstop]
      rfl
  | cons c s ih =>
    cases n with
    | zero => exact absurd hn (Nat.not_lt_zero _)
    | succ n =>
      obtain ⟨-, hbyte, hrest⟩ := h
      obtain ⟨hc, hlater⟩ := List.forall_mem_cons.mp hp
      rw [List.length_cons] at hstop hn ⊢
      have hshift : i + (s.length + 1) = i + 1 + s.length := by omega
      rw [hshift] at hstop ⊢
      rw [scan, hbyte, if_pos hc, ih hrest hlater hstop (by omega)]

/-- A scan stops at the first byte without the property. -/
theorem scan_of_forall {p : BitVec 8 → Bool} {stop : ℕ} (hle : i ≤ stop)
    (hp : ∀ k, i ≤ k → k < stop → p (buf k) = true) (hstop : p (buf stop) = false)
    (hn : stop < i + n) : scan p buf n i = some stop := by
  induction n generalizing i with
  | zero => omega
  | succ n ih =>
    rw [scan]
    rcases hle.eq_or_lt with rfl | hlt
    · rw [hstop]
      rfl
    · rw [if_pos (hp i le_rfl hlt)]
      exact ih hlt (fun k hk => hp k (by omega)) (by omega)

theorem StringAt.scan_end (h : StringAt buf i s) (hn : s.length < n) :
    scan (fun c => c ≠ 0) buf n i = some (i + s.length) :=
  scan_eq h.1 (fun c hc => decide_eq_true (h.1.ne_zero c hc))
    (decide_eq_false (not_not.mpr h.2)) hn

theorem StringAt.strlen_eq (h : StringAt buf 0 s) (hsize : s.length < size) :
    strlen size buf = some s.length := by
  rw [strlen, h.scan_end hsize, Nat.zero_add]

theorem StringAt.readString_eq (h : StringAt buf i s) (hsize : i + s.length < size) :
    readString size buf i = some s := by
  rw [readString, h.scan_end (by omega), Option.map_some, Nat.add_sub_cancel_left]
  refine congrArg some (List.ext_getElem (by rw [List.length_map, List.length_range]) ?_)
  intro k hk hk'
  rw [List.getElem_map, List.getElem_range]
  exact h.1.byte hk'

/-- A string and its end are copied if there is room for them. -/
theorem copyString_spec (size : ℕ) (buf : CharArray) (i : ℕ) (hs : ∀ c ∈ s, c ≠ 0) :
    if i + s.length < size then
      ∃ buf', copyString size buf i s = some buf' ∧ StringAt buf' i s ∧
        ∀ j, (j < i ∨ i + s.length < j) → buf' j = buf j
    else copyString size buf i s = none := by
  induction s generalizing buf i with
  | nil =>
    rw [List.length_nil, Nat.add_zero, copyString, store]
    split_ifs
    · refine ⟨_, rfl, ⟨trivial, Function.update_self _ _ _⟩, fun j hj => ?_⟩
      exact Function.update_of_ne (by omega) _ _
    · rfl
  | cons c s ih =>
    obtain ⟨hc, hrest⟩ := List.forall_mem_cons.mp hs
    have hlater := ih (Function.update buf i c) (i + 1) hrest
    have hshift : i + (c :: s).length = i + 1 + s.length := by
      rw [List.length_cons]
      omega
    rw [hshift, copyString, store]
    by_cases hroom : i + 1 + s.length < size
    · -- what is copied later lies behind the first byte
      rw [if_pos hroom] at hlater ⊢
      obtain ⟨buf', hcopy, hstring, hsame⟩ := hlater
      have hi : i < size := by omega
      refine ⟨buf', ?_, ⟨⟨hc, ?_, hstring.1⟩, ?_⟩, fun j hj => ?_⟩
      · rw [if_pos hi]
        exact hcopy
      · rw [hsame i (by omega), Function.update_self]
      · rw [hshift]
        exact hstring.2
      · rw [hsame j (by omega), Function.update_of_ne (by omega)]
    · rw [if_neg hroom] at hlater ⊢
      by_cases hi : i < size
      · rw [if_pos hi]
        exact hlater
      · rw [if_neg hi]
        rfl

/-- A string is appended if there is room for it. -/
theorem strcat_spec (size : ℕ) (h : StringAt buf 0 s) (hsize : s.length < size)
    (ht : ∀ c ∈ t, c ≠ 0) :
    if s.length + t.length < size then
      ∃ buf', strcat size buf t = some buf' ∧ StringAt buf' 0 (s ++ t)
    else strcat size buf t = none := by
  have hcopy := copyString_spec size buf s.length ht
  rw [strcat, h.strlen_eq hsize, Option.bind_some]
  split_ifs at hcopy ⊢ with hroom
  · obtain ⟨buf', heq, hstring, hsame⟩ := hcopy
    refine ⟨buf', heq, textAt_append.mpr ⟨?_, ?_⟩, ?_⟩
    · exact h.1.congr fun j _ hlt => hsame j (by omega)
    · rw [Nat.zero_add]
      exact hstring.1
    · rw [Nat.zero_add, List.length_append]
      exact hstring.2
  · exact hcopy

end Text

/-! ## Tokens -/

section Calls

variable {isDelim : BitVec 8 → Bool} {buf : CharArray} {size next start stop : ℕ}

/-- Only delimiters are left. -/
theorem strtokBy_none (hle : next ≤ stop) (hsize : stop < size)
    (hskip : ∀ k, next ≤ k → k < stop → buf k ≠ 0 ∧ isDelim (buf k)) (hend : buf stop = 0) :
    strtokBy isDelim size buf (some next) = some ⟨none, buf, none⟩ := by
  have hscan : scan (fun c => c ≠ 0 ∧ isDelim c) buf (size - next) next = some stop :=
    scan_of_forall hle (fun k hk hlt => decide_eq_true (hskip k hk hlt))
      (decide_eq_false fun h => h.1 hend) (by omega)
  rw [strtokBy, hscan, Option.bind_some, if_pos hend]

/-- A token is found behind some delimiters, and ended by a zero. -/
theorem strtokBy_some (hle : next ≤ start) (hlt : start < stop) (hsize : stop < size)
    (hskip : ∀ k, next ≤ k → k < start → buf k ≠ 0 ∧ isDelim (buf k))
    (hplain : ∀ k, start ≤ k → k < stop → buf k ≠ 0 ∧ ¬isDelim (buf k))
    (hend : buf stop = 0 ∨ isDelim (buf stop)) :
    strtokBy isDelim size buf (some next) = some
      (if buf stop = 0 then ⟨some start, buf, none⟩
      else ⟨some start, Function.update buf stop 0, some (stop + 1)⟩) := by
  have hfirst := hplain start le_rfl hlt
  have hskipped : scan (fun c => c ≠ 0 ∧ isDelim c) buf (size - next) next = some start :=
    scan_of_forall hle (fun k hk hlt => decide_eq_true (hskip k hk hlt))
      (decide_eq_false fun h => hfirst.2 h.2) (by omega)
  have hstopped : scan (fun c => c ≠ 0 ∧ ¬isDelim c) buf (size - start) start = some stop :=
    scan_of_forall hlt.le (fun k hk hlt => decide_eq_true (hplain k hk hlt))
      (decide_eq_false fun h => hend.elim h.1 h.2) (by omega)
  rw [strtokBy, hskipped, Option.bind_some, if_neg hfirst.1, hstopped, Option.bind_some]
  by_cases hzero : buf stop = 0
  · rw [if_neg (not_not.mpr hzero), if_pos hzero]
  · rw [if_pos hzero, if_neg hzero, store, if_pos hsize, Option.map_some]

/-- With one delimiter, a byte is compared with it. -/
theorem strtok_some (delim : BitVec 8) (size : ℕ) (buf : CharArray) (next : ℕ) :
    strtok delim size buf (some next) =
      (scan (fun c => c ≠ 0 ∧ c = delim) buf (size - next) next).bind fun start =>
        if buf start = 0 then some ⟨none, buf, none⟩
        else
          (scan (fun c => c ≠ 0 ∧ c ≠ delim) buf (size - start) start).bind fun stop =>
            if buf stop ≠ 0 then
              (store size buf stop 0).map fun buf => ⟨some start, buf, some (stop + 1)⟩
            else some ⟨some start, buf, none⟩ := by
  simp only [strtok, strtokBy, decide_eq_true_eq, ne_eq]

end Calls

section Tokens

variable {buf : CharArray} {size first : ℕ} {next : Option ℕ} {delim : BitVec 8}
  {w : List (BitVec 8)} {ws : List (List (BitVec 8))}

/-- `strtok` will find the tokens `ws`, at index `first` or behind it. -/
def PendingTokens (delim : BitVec 8) (size : ℕ) (buf : CharArray) (first : ℕ) (next : Option ℕ)
    (ws : List (List (BitVec 8))) : Prop :=
  match next with
  | none => ws = []
  | some i => first ≤ i ∧ ∃ s, StringAt buf i s ∧ i + s.length < size ∧
    segments (fun c => c = delim) s = ws

/-- A string that was just given to `strtok`. -/
theorem PendingTokens.start {s : List (BitVec 8)} (h : StringAt buf 0 s) (hsize : s.length < size) :
    PendingTokens delim size buf 0 (some 0) (segments (fun c => c = delim) s) :=
  ⟨le_rfl, s, h, by rwa [Nat.zero_add], rfl⟩

/-- There are no more tokens. -/
theorem strtok_nil (h : PendingTokens delim size buf first next []) :
    strtok delim size buf next = some ⟨none, buf, none⟩ := by
  cases next with
  | none => rfl
  | some i =>
    obtain ⟨-, s, hstring, hsize, hnone⟩ := h
    rcases exists_first_segment (fun c => decide (c = delim)) s with ⟨-, hall⟩ |
      ⟨_, _, _, _, _, _, _, ⟨-, hsome⟩ | ⟨_, _, _, _, hsome⟩⟩
    · have hskip : scan (fun c => c ≠ 0 ∧ c = delim) buf (size - i) i = some (i + s.length) := by
        refine scan_eq hstring.1 (fun c hc => ?_) ?_ (by omega)
        · exact decide_eq_true ⟨hstring.1.ne_zero c hc, of_decide_eq_true (hall c hc)⟩
        · exact decide_eq_false fun h => h.1 hstring.2
      rw [strtok_some, hskip, Option.bind_some, if_pos hstring.2]
    · rw [hnone] at hsome
      exact absurd hsome.symm (List.cons_ne_nil _ _)
    · rw [hnone] at hsome
      exact absurd hsome.symm (List.cons_ne_nil _ _)

/-- The next token is found, ended by a zero, and the array is as it was in front of its end. -/
theorem strtok_cons (h : PendingTokens delim size buf first next (w :: ws)) :
    ∃ start buf' next', strtok delim size buf next = some ⟨some start, buf', next'⟩ ∧
      first ≤ start ∧ start + w.length < size ∧ StringAt buf' start w ∧
      (∀ j < start + w.length, buf' j = buf j) ∧
      PendingTokens delim size buf' (start + w.length + 1) next' ws := by
  cases next with
  | none => exact absurd h (List.cons_ne_nil w ws)
  | some i =>
    obtain ⟨hfirst, s, hstring, hsize, hsegments⟩ := h
    rcases exists_first_segment (fun c => decide (c = delim)) s with ⟨hnone, -⟩ |
      ⟨before, w', rest, rfl, hbefore, hne, hplain, hrest⟩
    · rw [hnone] at hsegments
      exact absurd hsegments.symm (List.cons_ne_nil w ws)
    -- the first token of the string is the one that is expected
    obtain rfl : w' = w := by
      rcases hrest with ⟨-, hall⟩ | ⟨c, later, -, -, hall⟩
      · rw [hall] at hsegments
        exact (List.cons.inj hsegments).1
      · rw [hall] at hsegments
        exact (List.cons.inj hsegments).1
    obtain ⟨htext, hend⟩ := hstring
    rw [List.length_append, List.length_append] at hsize hend
    obtain ⟨hskipped, htext'⟩ := textAt_append.mp htext
    obtain ⟨hword, hbehind⟩ := textAt_append.mp htext'
    obtain ⟨start, hstart⟩ : ∃ start, start = i + before.length := ⟨_, rfl⟩
    rw [← hstart] at hword hbehind htext'
    have hbyte : buf start ≠ 0 ∧ buf start ≠ delim := by
      obtain ⟨c, w, rfl⟩ := List.exists_cons_of_ne_nil hne
      rw [hword.2.1]
      exact ⟨hword.1, of_decide_eq_false (hplain c List.mem_cons_self)⟩
    -- delimiters are skipped up to the token, which is read up to its end
    have hskip : scan (fun c => c ≠ 0 ∧ c = delim) buf (size - i) i = some start := by
      rw [hstart]
      refine scan_eq hskipped (fun c hc => ?_) ?_ (by omega)
      · exact decide_eq_true ⟨hskipped.ne_zero c hc, of_decide_eq_true (hbefore c hc)⟩
      · rw [← hstart]
        exact decide_eq_false fun h => hbyte.2 h.2
    have hstop : buf (start + w'.length) = 0 ∨ buf (start + w'.length) = delim := by
      rcases hrest with ⟨rfl, -⟩ | ⟨c, later, rfl, hc, -⟩
      · left
        rw [List.length_nil] at hend
        rw [hstart, ← hend]
        congr 1
        omega
      · right
        rw [hbehind.2.1]
        exact of_decide_eq_true hc
    have hscan : scan (fun c => c ≠ 0 ∧ c ≠ delim) buf (size - start) start =
        some (start + w'.length) := by
      refine scan_eq hword (fun c hc => ?_) ?_ (by omega)
      · exact decide_eq_true ⟨hword.ne_zero c hc, of_decide_eq_false (hplain c hc)⟩
      · exact decide_eq_false fun h => hstop.elim h.1 h.2
    have hlt : start + w'.length < size := by omega
    rw [strtok_some, hskip, Option.bind_some, if_neg hbyte.1, hscan, Option.bind_some]
    rcases hrest with ⟨rfl, hall⟩ | ⟨c, later, rfl, hc, hall⟩
    · -- the last token ends with the string
      have hzero : buf (start + w'.length) = 0 := by
        rw [List.length_nil] at hend
        rw [hstart, ← hend]
        congr 1
        omega
      rw [hall] at hsegments
      refine ⟨start, buf, none, if_neg (not_not.mpr hzero), by omega, hlt, ⟨hword, hzero⟩,
        fun j _ => rfl, ?_⟩
      exact (List.cons.inj hsegments).2.symm
    · -- the delimiter behind the token is overwritten, and the rest stays
      obtain ⟨hc₀, hbytec, hlater⟩ := hbehind
      rw [hall] at hsegments
      have hnonzero : buf (start + w'.length) ≠ 0 := by
        rw [hbytec]
        exact hc₀
      obtain ⟨buf', hbuf'⟩ : ∃ buf', buf' = Function.update buf (start + w'.length) 0 := ⟨_, rfl⟩
      have hsame : ∀ j, j ≠ start + w'.length → buf' j = buf j := fun j hj => by
        rw [hbuf', Function.update_of_ne hj]
      refine ⟨start, buf', some (start + w'.length + 1), ?_, by omega, hlt, ⟨?_, ?_⟩, ?_,
        le_rfl, later, ⟨?_, ?_⟩, ?_, (List.cons.inj hsegments).2⟩
      · rw [if_pos hnonzero, store, if_pos hlt, hbuf']
        rfl
      · exact hword.congr fun j _ hj => hsame j (Nat.ne_of_lt hj)
      · rw [hbuf', Function.update_self]
      · exact fun j hj => hsame j (Nat.ne_of_lt hj)
      · exact hlater.congr fun j hj _ => hsame j (by omega)
      · rw [List.length_cons] at hend
        rw [hsame _ (by omega), ← hend, hstart]
        congr 1
        omega
      · rw [List.length_cons] at hsize
        omega

end Tokens

end OpenIDP.Userspace
