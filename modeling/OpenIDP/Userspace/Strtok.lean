import OpenIDP.Userspace.Strings

/-!
# All tokens of a string

`strtok` of `src/userspace/libc/string.h` takes a string of delimiters, which it searches with
`strchr`. It remembers where to go on in a static pointer, so that a call with `NULL` finds the next
token of the string of an earlier call.

## Main definitions

* `strchr`, `Strtok.strtok` — the functions
* `Strtok.calls` — a call with a string, and then calls with `NULL`
* `Strtok.cutBuf` — a string with a zero behind some of its tokens

## Main results

* `Strtok.strtok_singleton` — a string of one delimiter
* `Strtok.callsNull_spec` — the calls return the tokens in order, and then `NULL`
* `Strtok.strtok_splits` — the tokens are the longest runs without a delimiter
-/

namespace OpenIDP.Userspace

open OpenIDP.Math

/-- `strchr` in a string: the index of the first `c`, or of the end of the string for a zero. -/
def strchr : List (BitVec 8) → BitVec 8 → Option ℕ
  | [], c => if c = 0 then some 0 else none
  | d :: s, c => if d = c then some 0 else (strchr s c).map (· + 1)

namespace Strtok

/-- The condition of both loops of `strtok`. -/
def isDelim (delim : List (BitVec 8)) (c : BitVec 8) : Bool := (strchr delim c).isSome

/-- `strtok` of a string, or of `NULL`, when the static pointer is `next`. -/
def strtok (str : Option ℕ) (delim : List (BitVec 8)) (size : ℕ) (buf : CharArray)
    (next : Option ℕ) : Option Token :=
  strtokBy (isDelim delim) size buf (if str.isSome then str else next)

/-- Calls with `NULL`, one after the other: what they return, and the array behind the last. -/
def callsNull (delim : List (BitVec 8)) (size : ℕ) :
    ℕ → CharArray → Option ℕ → Option (List (Option ℕ) × CharArray)
  | 0, buf, _ => some ([], buf)
  | n + 1, buf, next =>
    (strtok none delim size buf next).bind fun t =>
      (callsNull delim size n t.buf t.next).map fun r => (t.start :: r.1, r.2)

/-- A call with a string and `n` calls with `NULL`. -/
def calls (str : ℕ) (delim : List (BitVec 8)) (size n : ℕ) (buf : CharArray) (next : Option ℕ) :
    Option (List (Option ℕ) × CharArray) :=
  (strtok (some str) delim size buf next).bind fun t =>
    (callsNull delim size n t.buf t.next).map fun r => (t.start :: r.1, r.2)

/-- The array with a zero at the end of each of these parts of the string, unless the string ends
there, too. -/
def cutBuf (str length : ℕ) (parts : List (ℕ × ℕ)) (buf : CharArray) : CharArray := fun m =>
  if ∃ x ∈ parts, x.2 < length ∧ m = str + x.2 then 0 else buf m

section Results

variable {delim s : List (BitVec 8)} {buf : CharArray} {size str n j : ℕ} {next : Option ℕ}
  {parts : List (ℕ × ℕ)}

theorem isDelim_iff {c : BitVec 8} (hc : c ≠ 0) : isDelim delim c = true ↔ c ∈ delim := by
  rw [isDelim]
  induction delim with
  | nil =>
    rw [strchr, if_neg hc]
    exact iff_of_false Bool.false_ne_true List.not_mem_nil
  | cons d delim ih =>
    rw [strchr]
    by_cases hd : d = c
    · rw [if_pos hd]
      exact iff_of_true rfl (hd ▸ List.mem_cons_self)
    · rw [if_neg hd, Option.isSome_map, ih, List.mem_cons, or_iff_right (Ne.symm hd)]

/-- A string of one delimiter. -/
theorem strtok_singleton (c : BitVec 8) (str : Option ℕ) :
    strtok str [c] size buf next =
      Userspace.strtok c size buf (if str.isSome then str else next) := by
  have hdelim : ∀ d : BitVec 8, d ≠ 0 → (isDelim [c] d ↔ d = c) := fun d hd =>
    (isDelim_iff hd).trans List.mem_singleton
  have hskip : (fun d : BitVec 8 => decide (d ≠ 0 ∧ isDelim [c] d)) =
      fun d => decide (d ≠ 0 ∧ decide (d = c)) := by
    funext d
    exact decide_eq_decide.mpr (and_congr_right fun hd => by rw [hdelim d hd, decide_eq_true_eq])
  have hplain : (fun d : BitVec 8 => decide (d ≠ 0 ∧ ¬isDelim [c] d)) =
      fun d => decide (d ≠ 0 ∧ ¬decide (d = c)) := by
    funext d
    exact decide_eq_decide.mpr (and_congr_right fun hd => by rw [hdelim d hd, decide_eq_true_eq])
  rw [Userspace.strtok, strtok]
  cases if str.isSome then str else next with
  | none => rfl
  | some next => rw [strtokBy, strtokBy, hskip, hplain]

/-- No token is left once the static pointer is `NULL`. -/
theorem callsNull_none (n : ℕ) :
    callsNull delim size n buf none = some (List.replicate n none, buf) := by
  induction n with
  | zero => rfl
  | succ n ih =>
    have hcall : strtok none delim size buf none = some ⟨none, buf, none⟩ := rfl
    rw [callsNull, hcall, Option.bind_some, ih, List.replicate_succ]
    rfl

/-- A call with a string is one with `NULL` when the static pointer is at the string. -/
theorem calls_eq : calls str delim size n buf next = callsNull delim size (n + 1) buf (some str) :=
  rfl

@[simp] theorem cutBuf_nil (str length : ℕ) (buf : CharArray) : cutBuf str length [] buf = buf := by
  funext m
  exact if_neg fun ⟨_, hx, _⟩ => List.not_mem_nil hx

/-- The first zero is stored before the others. -/
theorem cutBuf_update {a b length : ℕ} (hb : b < length) :
    cutBuf str length parts (Function.update buf (str + b) 0) =
      cutBuf str length ((a, b) :: parts) buf := by
  funext m
  simp only [cutBuf, List.exists_mem_cons_iff]
  by_cases hlater : ∃ x ∈ parts, x.2 < length ∧ m = str + x.2
  · rw [if_pos hlater, if_pos (Or.inr hlater)]
  · rw [if_neg hlater]
    by_cases hm : m = str + b
    · rw [if_pos (Or.inl ⟨hb, hm⟩), hm, Function.update_self]
    · rw [if_neg (not_or.mpr ⟨fun h => hm h.2, hlater⟩), Function.update_of_ne hm]

/-- A part that ends with the string is not cut off. -/
theorem cutBuf_last {a length : ℕ} : cutBuf str length [(a, length)] buf = buf := by
  funext m
  refine if_neg fun ⟨x, hx, hlt, _⟩ => ?_
  rw [List.mem_singleton.mp hx] at hlt
  exact Nat.lt_irrefl length hlt

/-- A byte of the string in the array. -/
theorem byte_of_map {k : ℕ} {v : Bool} (hbytes : ∀ k (hk : k < s.length), j ≤ k →
      buf (str + k) = s[k]) (hne : ∀ c ∈ s, c ≠ 0) (hj : str + j ≤ k)
    (h : s[k - str]?.map (isDelim delim) = some v) :
    buf k ≠ 0 ∧ isDelim delim (buf k) = v := by
  obtain ⟨c, hc, hv⟩ := Option.map_eq_some_iff.mp h
  obtain ⟨hk, rfl⟩ := List.getElem?_eq_some_iff.mp hc
  have hbyte := hbytes (k - str) hk (by omega)
  rw [Nat.add_sub_cancel' (by omega)] at hbyte
  rw [hbyte]
  exact ⟨hne _ (List.getElem_mem hk), hv⟩

/-- From a place on, the calls return the parts from there, and cut them off. -/
theorem callsNull_spec (hparts : SegmentsFrom (isDelim delim) s j parts)
    (hbytes : ∀ k (hk : k < s.length), j ≤ k → buf (str + k) = s[k]) (hne : ∀ c ∈ s, c ≠ 0)
    (hend : buf (str + s.length) = 0) (hsize : str + s.length < size) (hj : j ≤ s.length) (n : ℕ) :
    callsNull delim size n buf (some (str + j)) = some
      (((parts.take n).map fun x => some (str + x.1)) ++ List.replicate (n - parts.length) none,
        cutBuf str s.length (parts.take n) buf) := by
  induction parts generalizing j n buf with
  | nil =>
    cases n with
    | zero => simp [callsNull]
    | succ n =>
      have hcall : strtok none delim size buf (some (str + j)) = some ⟨none, buf, none⟩ := by
        refine strtokBy_none (Nat.add_le_add_left hj str) hsize (fun k hk hlt => ?_) hend
        exact byte_of_map hbytes hne hk (hparts (k - str) (by omega) (by omega))
      rw [callsNull, hcall, Option.bind_some, callsNull_none, Option.map_some, List.take_nil,
        cutBuf_nil, List.length_nil, Nat.sub_zero, List.replicate_succ]
      rfl
  | cons x rest ih =>
    obtain ⟨a, b⟩ := x
    obtain ⟨⟨hja, hab, hb⟩, hskip, hplain, hstop, hrest⟩ := hparts
    cases n with
    | zero => simp [callsNull]
    | succ n =>
      have hcall : strtok none delim size buf (some (str + j)) = some
          (if buf (str + b) = 0 then ⟨some (str + a), buf, none⟩
          else ⟨some (str + a), Function.update buf (str + b) 0, some (str + b + 1)⟩) := by
        refine strtokBy_some (by omega) (by omega) (by omega) (fun k hk hlt => ?_)
          (fun k hk hlt => ?_) ?_
        · exact byte_of_map hbytes hne hk (hskip (k - str) (by omega) (by omega))
        · obtain ⟨hnonzero, hdelim⟩ :=
            byte_of_map hbytes hne (by omega) (hplain (k - str) (by omega) (by omega))
          exact ⟨hnonzero, Bool.eq_false_iff.mp hdelim⟩
        · rcases hstop with rfl | hstop
          · exact Or.inl hend
          · rw [← Nat.add_sub_cancel_left (n := str) (m := b)] at hstop
            exact Or.inr (byte_of_map hbytes hne (by omega) hstop).2
      rw [callsNull, hcall, Option.bind_some]
      rcases hb.eq_or_lt with rfl | hlt
      · -- the last part ends with the string
        have hnil : rest = [] := by
          cases rest with
          | nil => rfl
          | cons y rest =>
            obtain ⟨⟨hle, hlt, hle'⟩, -⟩ := hrest
            omega
        subst hnil
        rw [if_pos hend, callsNull_none, List.take_succ_cons, List.take_nil, cutBuf_last]
        simp
      · have hdelim := hstop.resolve_left (Nat.ne_of_lt hlt)
        rw [← Nat.add_sub_cancel_left (n := str) (m := b)] at hdelim
        have hnonzero := (byte_of_map hbytes hne (by omega) hdelim).1
        have hbytes' : ∀ k (hk : k < s.length), b + 1 ≤ k →
            Function.update buf (str + b) 0 (str + k) = s[k] := fun k hk hle => by
          rw [Function.update_of_ne (by omega), hbytes k hk (by omega)]
        have hend' : Function.update buf (str + b) 0 (str + s.length) = 0 := by
          rw [Function.update_of_ne (by omega), hend]
        rw [if_neg hnonzero, Nat.add_assoc, ih hrest hbytes' hend' hlt n, Option.map_some,
          cutBuf_update hlt, List.take_succ_cons, List.map_cons, List.length_cons,
          Nat.add_sub_add_right, List.cons_append]

/-- A part of the string that is cut off is a string of its own. -/
theorem stringAt_cutBuf {a b : ℕ} (hbytes : ∀ k (hk : k < s.length), buf (str + k) = s[k])
    (hne : ∀ c ∈ s, c ≠ 0) (hend : buf (str + s.length) = 0)
    (horder : parts.Pairwise fun x y => x.2 < y.1) (hlt : ∀ x ∈ parts, x.1 < x.2)
    (hmem : (a, b) ∈ parts) (hb : b ≤ s.length) :
    StringAt (cutBuf str s.length parts buf) (str + a) ((s.drop a).take (b - a)) := by
  have hab := hlt (a, b) hmem
  have hlength : ((s.drop a).take (b - a)).length = b - a := by
    rw [List.length_take, List.length_drop]
    omega
  refine ⟨textAt_of_byte (fun c hc => ?_) fun k hk => ?_, ?_⟩
  · exact hne c (List.mem_of_mem_drop (List.mem_of_mem_take hc))
  · rw [hlength] at hk
    rw [List.getElem_take, List.getElem_drop, Nat.add_assoc, cutBuf, if_neg ?_, hbytes]
    -- another part ends before this one begins, or begins after it ends
    rintro ⟨x, hx, -, heq⟩
    have hapart : ∀ x ∈ parts, ∀ y ∈ parts, x.2 < y.1 ∨ y.2 ≤ x.2 := by
      refine List.Pairwise.forall_of_forall_of_flip (fun x _ => Or.inr le_rfl)
        (horder.imp Or.inl) (horder.imp_of_mem fun {x y} _ hy hlater => Or.inr ?_)
      exact (hlater.trans (hlt y hy)).le
    have hother := hapart x hx (a, b) hmem
    omega
  · rw [hlength, Nat.add_assoc, Nat.add_sub_cancel' hab.le, cutBuf]
    rcases hb.eq_or_lt with rfl | hlt
    · split_ifs
      · rfl
      · exact hend
    · exact if_pos ⟨(a, b), hmem, hlt, rfl⟩

/-- **Splitting.** In every string, and for every string of delimiters, the calls return the starts
of the longest runs of bytes that are no delimiters, in order, and then `NULL`. The array is as it
was, but for a zero in place of the delimiter behind each run that was returned; so each run that
was returned is a string. -/
theorem strtok_splits (hstring : StringAt buf str s) (hsize : str + s.length < size) :
    ∃ parts : List (ℕ × ℕ), (parts.Pairwise fun x y => x.2 < y.1) ∧
      (∀ a b, (a, b) ∈ parts ↔ IsSegment (fun c => c ∈ delim) s a b) ∧
      ∀ n next, calls str delim size n buf next = some
          (((parts.take (n + 1)).map fun x => some (str + x.1)) ++
              List.replicate (n + 1 - parts.length) none,
            cutBuf str s.length (parts.take (n + 1)) buf) ∧
        ∀ x ∈ parts.take (n + 1), StringAt (cutBuf str s.length (parts.take (n + 1)) buf)
          (str + x.1) ((s.drop x.1).take (x.2 - x.1)) := by
  have hne := hstring.1.ne_zero
  have hbytes : ∀ k (hk : k < s.length), buf (str + k) = s[k] := fun k hk => hstring.1.byte hk
  have hsame : ∀ c ∈ s, isDelim delim c = decide (c ∈ delim) := fun c hc => by
    rw [Bool.eq_iff_iff, isDelim_iff (hne c hc), decide_eq_true_eq]
  obtain ⟨parts, hparts⟩ := exists_segmentsFrom (isDelim delim) s 0
  obtain ⟨horder, hmem⟩ := hparts.spec (Or.inl rfl)
  refine ⟨parts, horder, fun a b => ?_, fun n next => ⟨?_, fun x hx => ?_⟩⟩
  · rw [hmem, and_iff_left (Nat.zero_le a)]
    exact ⟨fun h => h.congr hsame, fun h => h.congr fun c hc => (hsame c hc).symm⟩
  · rw [calls_eq]
    exact callsNull_spec hparts (fun k hk _ => hbytes k hk) hne hstring.2 hsize (Nat.zero_le _)
      (n + 1)
  · have hseg : ∀ y ∈ parts.take (n + 1), IsSegment (isDelim delim) s y.1 y.2 := fun y hy =>
      ((hmem y.1 y.2).mp (List.mem_of_mem_take hy)).1
    exact stringAt_cutBuf hbytes hne hstring.2 (horder.sublist (List.take_sublist _ _))
      (fun y hy => (hseg y hy).nonempty) hx (hseg x hx).le

/-- The string `,a,,b` at the front of an array, cut at commas. -/
theorem strtok_splits_sample : ∃ parts : List (ℕ × ℕ), (1, 2) ∈ parts ∧
    calls 0 [44] 16 3 (listArray [44, 97, 44, 44, 98]) none = some
      (((parts.take 4).map fun x => some (0 + x.1)) ++ List.replicate (4 - parts.length) none,
        cutBuf 0 5 (parts.take 4) (listArray [44, 97, 44, 44, 98])) := by
  obtain ⟨parts, -, hmem, hcalls⟩ :=
    @strtok_splits [44] _ _ _ _ (stringAt_listArray (s := [44, 97, 44, 44, 98]) (by decide))
      (by decide : 0 + 5 < 16)
  refine ⟨parts, (hmem 1 2).mpr ⟨by decide, by decide, fun k hk hlt => ?_, ?_, ?_⟩,
    (hcalls 3 none).1⟩
  · obtain rfl : k = 1 := by omega
    rfl
  · exact Or.inr rfl
  · exact Or.inr rfl

end Results

end Strtok

end OpenIDP.Userspace
