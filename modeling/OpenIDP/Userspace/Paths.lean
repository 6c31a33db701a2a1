import OpenIDP.Math.Reaches
import OpenIDP.Userspace.Strings

/-!
# Resolving paths

`resolve_path` of `src/userspace/shell/shell.c` joins the current directory and its input in an
array of 256 bytes, cuts the text at the slashes, keeps at most 64 pointers to the segments that are
not undone by a later `..`, and puts these together again. Nothing checks that they fit.

What it is for: a path has a normal form, which is the segments that are left with a slash in front
of each, or a slash alone. When everything fits, the result is the normal form of the joined text.

## Main definitions

* `joinPath`, `normalize`, `renderPath`, `normalForm` — the normal form of a joined text
* `IsCanonical` — a path is a normal form
* `resolvePath` — the function, which has no result when it stores outside of an array
* `PathFits` — the text and the pointers fit
* `CdStep` — the current directory of the shell

## Main results

* `walk_spec`, `rebuild_spec` — the two loops
* `resolvePath_eq` — the result is the normal form, if everything fits, and only then there is one
* `resolve_path_canonical` — paths that fit are resolved to canonical paths, which are kept
-/

namespace OpenIDP.Userspace

open OpenIDP.Math

/-! ## Normal forms -/

/-- What lies between slashes. -/
abbrev Segment := List (BitVec 8)

/-- Goes to a segment from a directory, which is given by its segments. -/
def enterSegment (stack : List Segment) (segment : Segment) : List Segment :=
  if segment = [46] then stack
  else if segment = [46, 46] then stack.dropLast
  else stack ++ [segment]

/-- The directory that segments lead to from the root. -/
def normalize (path : List Segment) : List Segment := path.foldl enterSegment []

/-- A slash in front of each segment, or a slash alone. -/
def renderPath (stack : List Segment) : List (BitVec 8) :=
  if stack = [] then [47] else stack.flatMap fun segment => 47 :: segment

/-- The segments of a text. -/
def pathSegments (text : List (BitVec 8)) : List Segment := segments (fun c => c = 47) text

/-- The normal form of a path. -/
def normalForm (text : List (BitVec 8)) : List (BitVec 8) :=
  renderPath (normalize (pathSegments text))

/-- The text for an input in a directory: the input itself if it begins with a slash. -/
def joinPath (base input : List (BitVec 8)) : List (BitVec 8) :=
  if input.head? = some 47 then input
  else base ++ (if base ≠ [] ∧ base.getLast? ≠ some 47 then [47] else []) ++ input

/-- No segment of a normal form is empty, `.` or `..`, or has a slash. -/
def IsName (segment : Segment) : Prop :=
  segment ≠ [] ∧ segment ≠ [46] ∧ segment ≠ [46, 46] ∧ ∀ c ∈ segment, c ≠ 47

/-- The path is `/` or `/s1/s2/.../sk`. -/
def IsCanonical (path : List (BitVec 8)) : Prop :=
  ∃ stack, path = renderPath stack ∧ ∀ segment ∈ stack, IsName segment

/-! ## The function -/

/-- The text of a path in an array, as `resolve_path` and `ls` build it: the base, a slash if it
does not end with one, and the input. -/
def joinInto (size : ℕ) (buf : CharArray) (base input : List (BitVec 8)) : Option CharArray :=
  (copyString size buf 0 base).bind fun buf =>
    (strlen size buf).bind fun len =>
      (if 0 < len ∧ buf (len - 1) ≠ 47 then strcat size buf [47] else some buf).bind fun buf =>
        strcat size buf input

/-- The pointers to the segments that are kept. -/
structure SegmentStack where
  tokens : ℕ → ℕ
  depth : ℕ

/-- What is done with a segment and the pointer to it. There is room for 64 pointers. -/
def SegmentStack.push (st : SegmentStack) (token : ℕ) (segment : Segment) : Option SegmentStack :=
  if segment = [46] then some st
  else if segment = [46, 46] then
    some (if 0 < st.depth then { st with depth := st.depth - 1 } else st)
  else if 0 < segment.length then
    if st.depth < 64 then some ⟨Function.update st.tokens st.depth token, st.depth + 1⟩ else none
  else some st

/-- The loop over the segments. `turns` is at least their number. -/
def walk : ℕ → CharArray → SegmentStack → Option ℕ → Option ℕ → Option (CharArray × SegmentStack)
  | 0, temp, st, _, _ => some (temp, st)
  | _ + 1, temp, st, none, _ => some (temp, st)
  | turns + 1, temp, st, some token, next =>
    (readString 256 temp token).bind fun segment =>
      (st.push token segment).bind fun st =>
        (strtok 47 256 temp next).bind fun t => walk turns t.buf st t.start t.next

/-- The loop that puts the segments together, with `n` turns left. -/
def rebuild (temp : CharArray) (tokens : ℕ → ℕ) : ℕ → ℕ → CharArray → Option CharArray
  | 0, _, target => some target
  | n + 1, i, target =>
    (strcat 256 target [47]).bind fun target =>
      (readString 256 temp (tokens i)).bind fun segment =>
        (strcat 256 target segment).bind fun target => rebuild temp tokens n (i + 1) target

/-- `resolve_path`. `target` and `temp` are what the two arrays hold at the start. -/
def resolvePath (target temp : CharArray) (base input : List (BitVec 8)) : Option CharArray :=
  (if input.head? = some 47 then copyString 256 temp 0 input
    else joinInto 256 temp base input).bind fun temp =>
    (strtok 47 256 temp (some 0)).bind fun t =>
      (walk 256 t.buf ⟨fun _ => 0, 0⟩ t.start t.next).bind fun (temp, st) =>
        if st.depth = 0 then copyString 256 target 0 [47]
        else (store 256 target 0 0).bind fun target => rebuild temp st.tokens st.depth 0 target

/-- The joined text fits in 255 bytes, and there are never more than 64 segments to keep. -/
structure PathFits (base input : List (BitVec 8)) : Prop where
  text : (joinPath base input).length ≤ 255
  pending : ∀ k, (normalize ((pathSegments (joinPath base input)).take k)).length ≤ 64

/-! ## Facts about normal forms -/

section NormalForms

variable {stack path : List Segment} {segment : Segment} {text base input : List (BitVec 8)}

/-- The length of a rendered path that is not the root. -/
def weight (stack : List Segment) : ℕ := (stack.map fun segment => segment.length + 1).sum

theorem weight_append (stack path : List Segment) :
    weight (stack ++ path) = weight stack + weight path := by
  rw [weight, List.map_append, List.sum_append, weight, weight]

theorem weight_enterSegment_le :
    weight (enterSegment stack segment) ≤ weight stack + (segment.length + 1) := by
  rw [enterSegment]
  split_ifs
  · -- a dot changes nothing
    omega
  · -- two dots take the last segment away, if there is one
    rcases List.eq_nil_or_concat' stack with rfl | ⟨stack, last, rfl⟩
    · exact Nat.zero_le _
    · rw [List.dropLast_concat, weight_append]
      omega
  · rw [weight_append]
    rfl

theorem weight_foldl_le : weight (path.foldl enterSegment stack) ≤ weight stack + weight path := by
  induction path generalizing stack with
  | nil => exact le_rfl
  | cons segment path ih =>
    have hfirst : weight (enterSegment stack segment) ≤ weight stack + (segment.length + 1) :=
      weight_enterSegment_le
    have hlater : weight (path.foldl enterSegment (enterSegment stack segment)) ≤
        weight (enterSegment stack segment) + weight path := ih
    have hcons : weight (segment :: path) = segment.length + 1 + weight path := rfl
    rw [List.foldl_cons, hcons]
    omega

theorem flatMap_length : (stack.flatMap fun segment => 47 :: segment).length = weight stack := by
  rw [List.length_flatMap]
  rfl

theorem pathSegments_slash (text : List (BitVec 8)) :
    pathSegments (47 :: text) = pathSegments text :=
  segments_separator (decide_eq_true rfl)

theorem pathSegments_word (hne : segment ≠ []) (hslash : ∀ c ∈ segment, c ≠ 47) :
    pathSegments (segment ++ 47 :: text) = segment :: pathSegments text :=
  segments_word (fun c hc => decide_eq_false (hslash c hc)) hne (decide_eq_true rfl)

theorem pathSegments_last (hne : segment ≠ []) (hslash : ∀ c ∈ segment, c ≠ 47) :
    pathSegments segment = [segment] :=
  segments_last (fun c hc => decide_eq_false (hslash c hc)) hne

/-- A normal form is not longer than the text. -/
theorem length_normalForm_le (habs : text.head? = some 47) :
    (normalForm text).length ≤ text.length := by
  obtain ⟨rest, rfl⟩ := List.head?_eq_some_iff.mp habs
  rw [normalForm, renderPath]
  split_ifs
  · rw [List.length_singleton, List.length_cons]
    omega
  · have hweight : weight (pathSegments (47 :: rest)) ≤ rest.length + 1 := by
      rw [pathSegments_slash]
      exact segments_weight_le rest
    have hfold : weight ((pathSegments (47 :: rest)).foldl enterSegment []) ≤
        weight [] + weight (pathSegments (47 :: rest)) := weight_foldl_le
    rw [flatMap_length, List.length_cons, normalize]
    have hnil : weight [] = 0 := rfl
    omega

theorem length_normalize_le (path : List Segment) : (normalize path).length ≤ path.length := by
  have hfold : ∀ stack : List Segment,
      (path.foldl enterSegment stack).length ≤ stack.length + path.length := by
    induction path with
    | nil => exact fun stack => le_rfl
    | cons segment path ih =>
      intro stack
      have hfirst : (enterSegment stack segment).length ≤ stack.length + 1 := by
        rw [enterSegment]
        split_ifs
        · omega
        · rw [List.length_dropLast]
          omega
        · rw [List.length_append, List.length_singleton]
      have hlater := ih (enterSegment stack segment)
      rw [List.foldl_cons, List.length_cons]
      omega
  have hall := hfold []
  rw [List.length_nil, Nat.zero_add] at hall
  exact hall

/-- A text with few segments never has too many to keep. -/
theorem PathFits.of_length {base input : List (BitVec 8)}
    (htext : (joinPath base input).length ≤ 255)
    (hsegments : (pathSegments (joinPath base input)).length ≤ 64) : PathFits base input :=
  ⟨htext, fun _ => (length_normalize_le _).trans ((List.length_take_le' _ _).trans hsegments)⟩

theorem isName_of_mem_enter (hstack : ∀ s ∈ stack, IsName s) (hne : segment ≠ [])
    (hslash : ∀ c ∈ segment, c ≠ 47) : ∀ s ∈ enterSegment stack segment, IsName s := by
  intro s hs
  rw [enterSegment] at hs
  split_ifs at hs with hdot hdots
  · exact hstack s hs
  · exact hstack s (List.dropLast_subset stack hs)
  · rcases List.mem_append.mp hs with hs | hs
    · exact hstack s hs
    · rw [List.mem_singleton.mp hs]
      exact ⟨hne, hdot, hdots, hslash⟩

theorem isName_of_mem_foldl (hstack : ∀ s ∈ stack, IsName s)
    (hpath : ∀ s ∈ path, s ≠ [] ∧ ∀ c ∈ s, c ≠ 47) :
    ∀ s ∈ path.foldl enterSegment stack, IsName s := by
  induction path generalizing stack with
  | nil => exact hstack
  | cons segment path ih =>
    obtain ⟨hfirst, hrest⟩ := List.forall_mem_cons.mp hpath
    exact ih (isName_of_mem_enter hstack hfirst.1 hfirst.2) hrest

theorem mem_pathSegments (h : segment ∈ pathSegments text) :
    segment ≠ [] ∧ (∀ c ∈ segment, c ≠ 47) ∧ ∀ c ∈ segment, c ∈ text := by
  obtain ⟨hne, hsep, hmem⟩ := mem_segments h
  exact ⟨hne, fun c hc => of_decide_eq_false (hsep c hc), hmem⟩

theorem isCanonical_normalForm (text : List (BitVec 8)) : IsCanonical (normalForm text) := by
  refine ⟨_, rfl, isName_of_mem_foldl (fun s hs => absurd hs List.not_mem_nil) fun s hs => ?_⟩
  obtain ⟨hne, hslash, -⟩ := mem_pathSegments hs
  exact ⟨hne, hslash⟩

theorem renderPath_head (stack : List Segment) : (renderPath stack).head? = some 47 := by
  rw [renderPath]
  split_ifs with hnil
  · rfl
  · obtain ⟨segment, stack, rfl⟩ := List.exists_cons_of_ne_nil hnil
    rfl

theorem segments_flatMap (hstack : ∀ s ∈ stack, IsName s) :
    pathSegments (stack.flatMap fun segment => 47 :: segment) = stack := by
  induction stack with
  | nil => rfl
  | cons segment stack ih =>
    obtain ⟨⟨hne, -, -, hslash⟩, hrest⟩ := List.forall_mem_cons.mp hstack
    have hlater := ih hrest
    rw [List.flatMap_cons, List.cons_append, pathSegments_slash]
    cases stack with
    | nil => rw [List.flatMap_nil, List.append_nil, pathSegments_last hne hslash]
    | cons next stack =>
      rw [List.flatMap_cons, List.cons_append, pathSegments_slash] at hlater
      rw [List.flatMap_cons, List.cons_append, pathSegments_word hne hslash, hlater]

/-- The segments of a canonical path. -/
theorem pathSegments_renderPath (hstack : ∀ s ∈ stack, IsName s) :
    pathSegments (renderPath stack) = stack := by
  rw [renderPath]
  split_ifs with hnil
  · rw [hnil]
    rfl
  · exact segments_flatMap hstack

theorem foldl_enterSegment (hpath : ∀ s ∈ path, IsName s) :
    path.foldl enterSegment stack = stack ++ path := by
  induction path generalizing stack with
  | nil => rw [List.foldl_nil, List.append_nil]
  | cons segment path ih =>
    obtain ⟨⟨-, hdot, hdots, -⟩, hrest⟩ := List.forall_mem_cons.mp hpath
    rw [List.foldl_cons, ih hrest, enterSegment, if_neg hdot, if_neg hdots, List.append_assoc,
      List.singleton_append]

/-- A canonical path is its own normal form. -/
theorem normalForm_renderPath (hstack : ∀ s ∈ stack, IsName s) :
    normalForm (renderPath stack) = renderPath stack := by
  rw [normalForm, pathSegments_renderPath hstack, normalize, foldl_enterSegment hstack,
    List.nil_append]

theorem joinPath_of_head (h : input.head? = some 47) : joinPath base input = input := if_pos h

theorem joinPath_head (hbase : base.head? = some 47) :
    (joinPath base input).head? = some 47 := by
  rw [joinPath]
  split_ifs with habs
  · exact habs
  · obtain ⟨rest, rfl⟩ := List.head?_eq_some_iff.mp hbase
    rfl
  · obtain ⟨rest, rfl⟩ := List.head?_eq_some_iff.mp hbase
    rfl

end NormalForms

/-! ## Joining -/

section Joining

variable {buf : CharArray} {size : ℕ} {base input : List (BitVec 8)}

/-- What `joinInto` makes of an input that does not begin with a slash. -/
def relativeText (base input : List (BitVec 8)) : List (BitVec 8) :=
  base ++ (if base ≠ [] ∧ base.getLast? ≠ some 47 then [47] else []) ++ input

/-- The last byte of the base. -/
theorem last_byte_iff (h : StringAt buf 0 base) :
    (0 < base.length ∧ buf (base.length - 1) ≠ 47) ↔
      base ≠ [] ∧ base.getLast? ≠ some 47 := by
  rw [List.length_pos_iff]
  refine and_congr_right fun hne => not_congr ?_
  have hlt : base.length - 1 < base.length :=
    Nat.sub_lt (List.length_pos_iff.mpr hne) Nat.one_pos
  have hbyte := h.1.byte hlt
  rw [Nat.zero_add] at hbyte
  rw [hbyte, List.getLast?_eq_getElem?, List.getElem?_eq_getElem hlt, Option.some_inj]

/-- The text is built if there is room for it. -/
theorem joinInto_spec (size : ℕ) (buf : CharArray) (hbase : ∀ c ∈ base, c ≠ 0)
    (hinput : ∀ c ∈ input, c ≠ 0) :
    if (relativeText base input).length < size then
      ∃ buf', joinInto size buf base input = some buf' ∧
        StringAt buf' 0 (relativeText base input)
    else joinInto size buf base input = none := by
  obtain ⟨sep, hsep⟩ : ∃ sep, sep =
    if base ≠ [] ∧ base.getLast? ≠ some 47 then [(47 : BitVec 8)] else [] := ⟨_, rfl⟩
  have htext : relativeText base input = base ++ sep ++ input := by rw [relativeText, hsep]
  have hcopy := copyString_spec size buf 0 hbase
  rw [joinInto, htext, List.length_append, List.length_append]
  rw [Nat.zero_add] at hcopy
  by_cases hroom : base.length < size
  · rw [if_pos hroom] at hcopy
    obtain ⟨buf₁, heq, hstring, -⟩ := hcopy
    -- the slash is appended if the base does not end with one
    have hslash : if base.length + sep.length < size then
        ∃ buf₂, (if 0 < base.length ∧ buf₁ (base.length - 1) ≠ 47 then strcat size buf₁ [47]
          else some buf₁) = some buf₂ ∧ StringAt buf₂ 0 (base ++ sep)
        else (if 0 < base.length ∧ buf₁ (base.length - 1) ≠ 47 then strcat size buf₁ [47]
          else some buf₁) = none := by
      by_cases hlast : base ≠ [] ∧ base.getLast? ≠ some 47
      · rw [if_pos hlast] at hsep
        rw [if_pos ((last_byte_iff hstring).mpr hlast), hsep]
        exact strcat_spec size hstring hroom (List.forall_mem_singleton.mpr (by decide))
      · rw [if_neg hlast] at hsep
        rw [if_neg fun h => hlast ((last_byte_iff hstring).mp h), hsep, List.length_nil,
          Nat.add_zero, if_pos hroom, List.append_nil]
        exact ⟨buf₁, rfl, hstring⟩
    rw [heq, Option.bind_some, hstring.strlen_eq hroom, Option.bind_some]
    -- then the input is appended, if there is room left
    by_cases hroom₂ : base.length + sep.length < size
    · rw [if_pos hroom₂] at hslash
      obtain ⟨buf₂, heq₂, hstring₂⟩ := hslash
      rw [heq₂, Option.bind_some, ← List.length_append]
      exact strcat_spec size hstring₂ (by rwa [List.length_append]) hinput
    · rw [if_neg hroom₂] at hslash
      rw [hslash, if_neg (by omega)]
      rfl
  · -- the base alone is too long
    rw [if_neg hroom] at hcopy
    rw [hcopy, if_neg (by omega)]
    rfl

end Joining

/-! ## The loops -/

section Loops

variable {temp temp' target : CharArray} {st : SegmentStack} {first first' token turns : ℕ}
  {next : Option ℕ} {stack ws : List Segment} {w : Segment}

/-- The pointers point to the segments, which lie in front of `first`. -/
structure SegmentStack.Holds (st : SegmentStack) (temp : CharArray) (first : ℕ)
    (stack : List Segment) : Prop where
  depth_eq : st.depth = stack.length
  string : ∀ k (hk : k < stack.length), StringAt temp (st.tokens k) stack[k]
  lt : ∀ k (hk : k < stack.length), st.tokens k + stack[k].length < first

theorem SegmentStack.Holds.congr (h : st.Holds temp first stack) (hle : first ≤ first')
    (hsame : ∀ j < first, temp' j = temp j) : st.Holds temp' first' stack := by
  refine ⟨h.depth_eq, fun k hk => ?_, fun k hk => (h.lt k hk).trans_le hle⟩
  exact (h.string k hk).congr fun j _ hj => hsame j (hj.trans_lt (h.lt k hk))

/-- What is done with a segment. -/
theorem SegmentStack.Holds.push (h : st.Holds temp first stack) (hw : w ≠ [])
    (hstring : StringAt temp token w) (hlt : token + w.length < first)
    (hcap : stack.length ≤ 64) :
    if (enterSegment stack w).length ≤ 64 then
      ∃ st', st.push token w = some st' ∧ st'.Holds temp first (enterSegment stack w)
    else st.push token w = none := by
  rw [SegmentStack.push, enterSegment]
  by_cases hdot : w = [46]
  · rw [if_pos hdot, if_pos hdot, if_pos hcap]
    exact ⟨st, rfl, h⟩
  rw [if_neg hdot, if_neg hdot]
  by_cases hdots : w = [46, 46]
  · -- the pointers stay where they are, and the last one is no longer counted
    have hdrop : ∀ k, k < stack.dropLast.length → k < stack.length := fun k hk => by
      rw [List.length_dropLast] at hk
      omega
    rw [if_pos hdots, if_pos hdots, if_pos (by rw [List.length_dropLast]; omega)]
    refine ⟨_, rfl, ?_, fun k hk => ?_, fun k hk => ?_⟩
    · rw [List.length_dropLast, ← h.depth_eq]
      split_ifs
      · rfl
      · omega
    · rw [List.getElem_dropLast]
      have hkept := h.string k (hdrop k hk)
      split_ifs <;> exact hkept
    · rw [List.getElem_dropLast]
      have hkept := h.lt k (hdrop k hk)
      split_ifs <;> exact hkept
  rw [if_neg hdots, if_neg hdots, if_pos (List.length_pos_iff.mpr hw), h.depth_eq,
    List.length_append, List.length_singleton]
  by_cases hroom : stack.length < 64
  · -- the new pointer is stored behind the others
    rw [if_pos hroom, if_pos (by omega)]
    refine ⟨_, rfl, by rw [List.length_append, List.length_singleton], fun k hk => ?_,
      fun k hk => ?_⟩
    · dsimp only
      by_cases hlast : k < stack.length
      · rw [Function.update_of_ne hlast.ne, List.getElem_append_left hlast]
        exact h.string k hlast
      · obtain rfl : k = stack.length := by
          rw [List.length_append, List.length_singleton] at hk
          omega
        rw [Function.update_self, List.getElem_concat_length rfl]
        exact hstring
    · dsimp only
      by_cases hlast : k < stack.length
      · rw [Function.update_of_ne hlast.ne, List.getElem_append_left hlast]
        exact h.lt k hlast
      · obtain rfl : k = stack.length := by
          rw [List.length_append, List.length_singleton] at hk
          omega
        rw [Function.update_self, List.getElem_concat_length rfl]
        exact hlt
  · rw [if_neg hroom, if_neg (by omega)]

/-- There are never more than 64 segments on the way. -/
def Bounded (stack path : List Segment) : Prop :=
  ∀ k, ((path.take k).foldl enterSegment stack).length ≤ 64

theorem bounded_cons : Bounded stack (w :: ws) ↔
    stack.length ≤ 64 ∧ Bounded (enterSegment stack w) ws := by
  constructor
  · intro h
    exact ⟨h 0, fun k => h (k + 1)⟩
  · rintro ⟨hfirst, hrest⟩ k
    cases k with
    | zero => exact hfirst
    | succ k => exact hrest k

/-- The loop keeps the pointers to the segments that are left, if there is room for them. -/
theorem walk_spec (h : st.Holds temp first stack) (hfirst : first ≤ 256)
    (hstring : StringAt temp token w) (hlt : token + w.length < first)
    (hpending : PendingTokens 47 256 temp first next ws) (hne : ∀ s ∈ w :: ws, s ≠ [])
    (hcap : stack.length ≤ 64) (hturns : ws.length < turns) :
    (Bounded stack (w :: ws) → ∃ temp' st' first',
        walk turns temp st (some token) next = some (temp', st') ∧ first' ≤ 256 ∧
          st'.Holds temp' first' ((w :: ws).foldl enterSegment stack)) ∧
      (¬ Bounded stack (w :: ws) → walk turns temp st (some token) next = none) := by
  induction ws generalizing w temp st first token next stack turns with
  | nil =>
    obtain ⟨turns, rfl⟩ := Nat.exists_eq_succ_of_ne_zero (Nat.ne_of_gt hturns)
    have hread : readString 256 temp token = some w := hstring.readString_eq (by omega)
    have hpush := h.push (hne w List.mem_cons_self) hstring hlt hcap
    have hend : walk (turns + 1) temp st (some token) next = (st.push token w).bind fun st =>
        some (temp, st) := by
      rw [walk, hread, Option.bind_some, strtok_nil hpending]
      refine Option.bind_congr fun st' _ => ?_
      rw [Option.bind_some]
      cases turns <;> rfl
    rw [Nat.succ_eq_add_one, hend, bounded_cons]
    split_ifs at hpush with hle
    · obtain ⟨st', heq, hholds⟩ := hpush
      refine ⟨fun _ => ⟨temp, st', first, by rw [heq]; rfl, hfirst, hholds⟩, fun hnot => ?_⟩
      refine absurd ⟨hcap, fun k => ?_⟩ hnot
      rw [List.take_nil]
      exact hle
    · refine ⟨fun hbounded => absurd (hbounded.2 0) hle, fun _ => ?_⟩
      rw [hpush]
      rfl
  | cons w' ws ih =>
    obtain ⟨turns, rfl⟩ := Nat.exists_eq_succ_of_ne_zero (Nat.ne_of_gt (Nat.zero_lt_of_lt hturns))
    have hread : readString 256 temp token = some w := hstring.readString_eq (by omega)
    have hpush := h.push (hne w List.mem_cons_self) hstring hlt hcap
    rw [Nat.succ_eq_add_one, walk, hread, Option.bind_some, bounded_cons]
    split_ifs at hpush with hle
    · obtain ⟨st', heq, hholds⟩ := hpush
      -- `strtok` writes behind the segments that are kept
      obtain ⟨start, temp₁, next₁, hstrtok, hstart, hsize, hstring₁, hsame, hpending₁⟩ :=
        strtok_cons hpending
      have hholds₁ : st'.Holds temp₁ (start + w'.length + 1) (enterSegment stack w) :=
        hholds.congr (by omega) fun j hj => hsame j (by omega)
      have hlater := ih hholds₁ (by omega) hstring₁ (Nat.lt_succ_self _) hpending₁
        (List.forall_mem_cons.mp hne).2 hle (Nat.lt_of_succ_lt_succ hturns)
      rw [heq, Option.bind_some, hstrtok, Option.bind_some]
      exact ⟨fun hbounded => hlater.1 hbounded.2,
        fun hnot => hlater.2 fun hbounded => hnot ⟨hcap, hbounded⟩⟩
    · refine ⟨fun hbounded => absurd (hbounded.2 0) hle, fun _ => ?_⟩
      rw [hpush]
      rfl

/-- The segments are put together behind what the target holds already. -/
theorem rebuild_spec {n i : ℕ} {front : List (BitVec 8)} (h : st.Holds temp first stack)
    (hfirst : first ≤ 256) (hn : i + n = stack.length) (hfront : StringAt target 0 front)
    (hfits : front.length + weight (stack.drop i) < 256) :
    ∃ target', rebuild temp st.tokens n i target = some target' ∧
      StringAt target' 0 (front ++ (stack.drop i).flatMap fun segment => 47 :: segment) := by
  induction n generalizing i front target with
  | zero =>
    rw [List.drop_of_length_le (by omega), List.flatMap_nil, List.append_nil]
    exact ⟨target, rfl, hfront⟩
  | succ n ih =>
    have hi : i < stack.length := by omega
    have hstring := h.string i hi
    have hlt := h.lt i hi
    rw [List.drop_eq_getElem_cons hi] at hfits ⊢
    have hcons : weight (stack[i] :: stack.drop (i + 1)) =
        stack[i].length + 1 + weight (stack.drop (i + 1)) := rfl
    rw [hcons] at hfits
    have hslash := strcat_spec 256 hfront (by omega)
      (List.forall_mem_singleton.mpr (by decide : (47 : BitVec 8) ≠ 0))
    rw [List.length_singleton, if_pos (by omega)] at hslash
    obtain ⟨target₁, heq₁, hstring₁⟩ := hslash
    have hname := strcat_spec 256 hstring₁ (by
      rw [List.length_append, List.length_singleton]
      omega) hstring.1.ne_zero
    rw [List.length_append, List.length_singleton, if_pos (by omega)] at hname
    obtain ⟨target₂, heq₂, hstring₂⟩ := hname
    have hnext : i + 1 + n = stack.length := by omega
    have hlater := ih hnext hstring₂ (by
      rw [List.length_append, List.length_append, List.length_singleton]
      omega)
    rw [rebuild, heq₁, Option.bind_some, hstring.readString_eq (by omega), Option.bind_some, heq₂,
      Option.bind_some, List.flatMap_cons]
    rw [List.append_assoc, List.append_assoc] at hlater
    exact hlater

end Loops

/-! ## The function -/

section Function

variable {target temp : CharArray} {base input : List (BitVec 8)}

/-- The text is in the array if there is room for it. -/
theorem joined_spec (temp : CharArray) (hbase : ∀ c ∈ base, c ≠ 0) (hinput : ∀ c ∈ input, c ≠ 0) :
    if (joinPath base input).length < 256 then
      ∃ temp', (if input.head? = some 47 then copyString 256 temp 0 input
        else joinInto 256 temp base input) = some temp' ∧ StringAt temp' 0 (joinPath base input)
    else (if input.head? = some 47 then copyString 256 temp 0 input
      else joinInto 256 temp base input) = none := by
  rw [joinPath]
  by_cases habs : input.head? = some 47
  · have hcopy := copyString_spec 256 temp 0 hinput
    rw [Nat.zero_add] at hcopy
    rw [if_pos habs, if_pos habs]
    split_ifs at hcopy ⊢
    · obtain ⟨temp', heq, hstring, -⟩ := hcopy
      exact ⟨temp', heq, hstring⟩
    · exact hcopy
  · rw [if_neg habs, if_neg habs]
    exact joinInto_spec 256 temp hbase hinput

theorem pathFits_iff : PathFits base input ↔ (joinPath base input).length < 256 ∧
    Bounded [] (pathSegments (joinPath base input)) :=
  ⟨fun h => ⟨Nat.lt_succ_of_le h.text, h.pending⟩, fun h => ⟨Nat.le_of_lt_succ h.1, h.2⟩⟩

/-- What `resolve_path` does with a text that fits in its array, from the first `strtok` on. -/
theorem resolve_text {text : List (BitVec 8)} (target : CharArray) (hstring : StringAt temp 0 text)
    (hlength : text.length < 256) (habs : text.head? = some 47) :
    (Bounded [] (pathSegments text) → ∃ target',
        ((strtok 47 256 temp (some 0)).bind fun t =>
          (walk 256 t.buf ⟨fun _ => 0, 0⟩ t.start t.next).bind fun (temp, st) =>
            if st.depth = 0 then copyString 256 target 0 [47]
            else (store 256 target 0 0).bind fun target =>
              rebuild temp st.tokens st.depth 0 target) = some target' ∧
          StringAt target' 0 (normalForm text)) ∧
      (¬ Bounded [] (pathSegments text) →
        ((strtok 47 256 temp (some 0)).bind fun t =>
          (walk 256 t.buf ⟨fun _ => 0, 0⟩ t.start t.next).bind fun (temp, st) =>
            if st.depth = 0 then copyString 256 target 0 [47]
            else (store 256 target 0 0).bind fun target =>
              rebuild temp st.tokens st.depth 0 target) = none) := by
  -- the root is stored when no segment is left
  have hroot : ∃ target', copyString 256 target 0 [47] = some target' ∧
      StringAt target' 0 [47] := by
    have hcopy := copyString_spec 256 target 0
      (List.forall_mem_singleton.mpr (by decide : (47 : BitVec 8) ≠ 0))
    rw [if_pos (by decide)] at hcopy
    obtain ⟨target', heq, hstring', -⟩ := hcopy
    exact ⟨target', heq, hstring'⟩
  have hpending : PendingTokens 47 256 temp 0 (some 0) (pathSegments text) :=
    PendingTokens.start hstring hlength
  have hnames : ∀ s ∈ pathSegments text, s ≠ [] := fun s hs => (mem_pathSegments hs).1
  have hcount : (pathSegments text).length ≤ text.length := length_segments_le text
  cases hsegments : pathSegments text with
  | nil =>
    rw [hsegments] at hpending
    rw [strtok_nil hpending, Option.bind_some]
    refine ⟨fun _ => ?_, fun hnot => absurd (fun k => ?_) hnot⟩
    · rw [normalForm, hsegments]
      exact hroot
    · rw [List.take_nil]
      exact Nat.zero_le _
  | cons w ws =>
    have hempty : (SegmentStack.mk (fun _ => 0) 0).Holds temp 0 [] :=
      ⟨rfl, fun k hk => absurd hk (Nat.not_lt_zero k), fun k hk => absurd hk (Nat.not_lt_zero k)⟩
    rw [hsegments] at hpending
    obtain ⟨start, temp₁, next₁, hstrtok, -, hsize, hstring₁, -, hpending₁⟩ :=
      strtok_cons hpending
    rw [hsegments] at hcount hnames
    rw [List.length_cons] at hcount
    have hstart : (SegmentStack.mk (fun _ => 0) 0).Holds temp₁ (start + w.length + 1) [] :=
      hempty.congr (Nat.zero_le _) fun j hj => absurd hj (Nat.not_lt_zero j)
    have hturns : ws.length < 256 := by omega
    have hwalk := walk_spec hstart (by omega) hstring₁ (Nat.lt_succ_self _) hpending₁ hnames
      (Nat.zero_le _) hturns
    rw [hstrtok, Option.bind_some]
    refine ⟨fun hbounded => ?_, fun hnot => ?_⟩
    · obtain ⟨temp₂, st₂, first₂, heq, hfirst, hholds⟩ := hwalk.1 hbounded
      rw [heq, Option.bind_some]
      have hform : normalForm text = renderPath ((w :: ws).foldl enterSegment []) := by
        rw [normalForm, hsegments, normalize]
      obtain ⟨stack, hstack⟩ : ∃ stack, stack = (w :: ws).foldl enterSegment [] := ⟨_, rfl⟩
      have hle := length_normalForm_le habs
      rw [hform, ← hstack, renderPath] at hle ⊢
      rw [← hstack] at hholds
      dsimp only
      -- the normal form is not longer than the text, so it fits in the target
      by_cases hnil : stack = []
      · have hdepth : st₂.depth = 0 := by rw [hholds.depth_eq, hnil, List.length_nil]
        rw [if_pos hdepth, if_pos hnil]
        exact hroot
      · have hdepth : st₂.depth ≠ 0 := by
          rw [hholds.depth_eq]
          exact fun h => hnil (List.length_eq_zero_iff.mp h)
        rw [if_neg hnil, flatMap_length] at hle
        rw [if_neg hdepth, if_neg hnil, store, if_pos (by decide), Option.bind_some]
        have hfront : StringAt (Function.update target 0 0) 0 [] :=
          ⟨trivial, Function.update_self _ _ _⟩
        have hroom : ([] : List (BitVec 8)).length + weight (stack.drop 0) < 256 := by
          rw [List.length_nil, List.drop_zero]
          omega
        exact rebuild_spec hholds hfirst ((Nat.zero_add _).trans hholds.depth_eq) hfront hroom
    · rw [hwalk.2 hnot]
      rfl

/-- The result is the normal form if everything fits; else a store is outside of an array. -/
theorem resolvePath_eq (target temp : CharArray) (hbase : ∀ c ∈ base, c ≠ 0)
    (hinput : ∀ c ∈ input, c ≠ 0) (habs : base.head? = some 47) :
    (PathFits base input → ∃ target', resolvePath target temp base input = some target' ∧
        StringAt target' 0 (normalForm (joinPath base input))) ∧
      (¬ PathFits base input → resolvePath target temp base input = none) := by
  have hjoined := joined_spec temp hbase hinput
  rw [pathFits_iff, resolvePath]
  by_cases hlength : (joinPath base input).length < 256
  · rw [if_pos hlength] at hjoined
    obtain ⟨temp', heq, hstring⟩ := hjoined
    obtain ⟨hfits, hnot⟩ := resolve_text target hstring hlength (joinPath_head habs)
    rw [heq, Option.bind_some]
    exact ⟨fun h => hfits h.2, fun h => hnot fun hbounded => h ⟨hlength, hbounded⟩⟩
  · rw [if_neg hlength] at hjoined
    refine ⟨fun h => absurd h.1 hlength, fun _ => ?_⟩
    rw [hjoined]
    rfl

/-- A canonical path is resolved to itself in any directory. -/
theorem resolvePath_of_canonical {stack : List Segment} (hbase : ∀ c ∈ base, c ≠ 0)
    (habs : base.head? = some 47) (hnames : ∀ s ∈ stack, IsName s)
    (hbytes : ∀ c ∈ renderPath stack, c ≠ 0) (hlength : (renderPath stack).length ≤ 255)
    (hdepth : stack.length ≤ 64) :
    ∃ target', resolvePath target temp base (renderPath stack) = some target' ∧
      StringAt target' 0 (renderPath stack) := by
  have hjoin : joinPath base (renderPath stack) = renderPath stack :=
    joinPath_of_head (renderPath_head stack)
  have hfits : PathFits base (renderPath stack) := by
    refine ⟨by rwa [hjoin], fun k => ?_⟩
    rw [hjoin, pathSegments_renderPath hnames, normalize,
      foldl_enterSegment fun s hs => hnames s (List.mem_of_mem_take hs), List.nil_append]
    exact (List.length_take_le' k stack).trans hdepth
  obtain ⟨target', heq, hstring⟩ := (resolvePath_eq target temp hbase hbytes habs).1 hfits
  rw [hjoin, normalForm_renderPath hnames] at hstring
  exact ⟨target', heq, hstring⟩

end Function

/-! ## The current directory -/

section Runs

variable {base input path path' : List (BitVec 8)} {history : List (List (BitVec 8))}

/-- The command `cd` with an argument, which may be missing. The path is taken over if it is the
root or a directory, as the file system says. -/
inductive CdStep : List (BitVec 8) → List (BitVec 8) → List (BitVec 8) → Prop
  | root {path : List (BitVec 8)} : CdStep path [] [47]
  | enter {path path' input : List (BitVec 8)} {target temp target' : CharArray}
      (hinput : ∀ c ∈ input, c ≠ 0) (hfits : PathFits path input)
      (hresolve : resolvePath target temp path input = some target')
      (hpath : StringAt target' 0 path') : CdStep path input path'
  | stay {path input : List (BitVec 8)} : CdStep path input path

theorem StringAt.unique {buf : CharArray} {i : ℕ} {s t : List (BitVec 8)} (hs : StringAt buf i s)
    (ht : StringAt buf i t) : s = t := by
  induction s generalizing i t with
  | nil =>
    cases t with
    | nil => rfl
    | cons d t => exact absurd (ht.1.2.1.symm.trans hs.2) ht.1.1
  | cons c s ih =>
    cases t with
    | nil => exact absurd (hs.1.2.1.symm.trans ht.2) hs.1.1
    | cons d t =>
      obtain ⟨⟨-, hc, hs'⟩, hsend⟩ := hs
      obtain ⟨⟨-, hd, ht'⟩, htend⟩ := ht
      rw [List.length_cons, ← Nat.add_assoc, Nat.add_right_comm] at hsend htend
      rw [ih ⟨hs', hsend⟩ ⟨ht', htend⟩, hc.symm.trans hd]

/-- The current directory is canonical, and is a string. -/
structure IsDirectory (path : List (BitVec 8)) : Prop where
  canonical : IsCanonical path
  bytes : ∀ c ∈ path, c ≠ 0
  length_le : path.length ≤ 255

theorem IsDirectory.head (h : IsDirectory path) : path.head? = some 47 := by
  obtain ⟨stack, rfl, -⟩ := h.canonical
  exact renderPath_head stack

theorem isDirectory_root : IsDirectory [47] :=
  ⟨⟨[], rfl, fun s hs => absurd hs List.not_mem_nil⟩, List.forall_mem_singleton.mpr (by decide),
    by decide⟩

/-- What a path that fits is resolved to. -/
theorem isDirectory_normalForm (habs : base.head? = some 47) {target' : CharArray}
    (hstring : StringAt target' 0 (normalForm (joinPath base input)))
    (hfits : PathFits base input) : IsDirectory (normalForm (joinPath base input)) :=
  ⟨isCanonical_normalForm _, hstring.1.ne_zero,
    (length_normalForm_le (joinPath_head habs)).trans hfits.text⟩

theorem IsDirectory.step (h : IsDirectory path) (hstep : CdStep path input path') :
    IsDirectory path' := by
  cases hstep with
  | root => exact isDirectory_root
  | @enter _ _ target temp target' hinput hfits hresolve hpath =>
    have hspec := (resolvePath_eq target temp h.bytes hinput h.head).1 hfits
    rw [hresolve] at hspec
    obtain ⟨target'', heq, hstring⟩ := hspec
    obtain rfl := Option.some_inj.mp heq
    rw [hpath.unique hstring]
    exact isDirectory_normalForm h.head hstring hfits
  | stay => exact h

/-- In an absolute directory, an input that fits is resolved to the normal form of the joined
text, which is canonical and is resolved to itself in any directory. The current directory stays
canonical in any sequence of `cd` commands that fit. -/
theorem resolve_path_canonical :
    (∀ base input, (∀ c ∈ base, c ≠ 0) → (∀ c ∈ input, c ≠ 0) → base.head? = some 47 →
      PathFits base input → ∀ target temp, ∃ target',
        resolvePath target temp base input = some target' ∧
          StringAt target' 0 (normalForm (joinPath base input)) ∧
          IsCanonical (normalForm (joinPath base input)) ∧
          ∀ base', (∀ c ∈ base', c ≠ 0) → base'.head? = some 47 → ∀ target temp, ∃ target',
            resolvePath target temp base' (normalForm (joinPath base input)) = some target' ∧
              StringAt target' 0 (normalForm (joinPath base input))) ∧
      ∀ history path, Reaches CdStep [47] history path → IsCanonical path := by
  constructor
  · intro base input hbase hinput habs hfits target temp
    obtain ⟨target', heq, hstring⟩ := (resolvePath_eq target temp hbase hinput habs).1 hfits
    refine ⟨target', heq, hstring, isCanonical_normalForm _, fun base' hbase' habs' _ _ => ?_⟩
    have hnames : ∀ s ∈ normalize (pathSegments (joinPath base input)), IsName s := by
      refine isName_of_mem_foldl (fun s hs => absurd hs List.not_mem_nil) fun s hs => ?_
      obtain ⟨hne, hslash, -⟩ := mem_pathSegments hs
      exact ⟨hne, hslash⟩
    have hdepth := hfits.pending (pathSegments (joinPath base input)).length
    rw [List.take_length] at hdepth
    exact resolvePath_of_canonical hbase' habs' hnames hstring.1.ne_zero
      (isDirectory_normalForm habs hstring hfits).length_le hdepth
  · intro history path run
    have hdirectory : IsDirectory path :=
      run.invariant_state isDirectory_root fun _ _ _ h hstep => h.step hstep
    exact hdirectory.canonical

/-- In `/usr`, the input `../bin/` is resolved to `/bin`. -/
theorem resolve_path_canonical_sample :
    ∃ target', resolvePath (fun _ => 0) (fun _ => 0) [47, 117, 115, 114]
        [46, 46, 47, 98, 105, 110, 47] = some target' ∧
      StringAt target' 0 [47, 98, 105, 110] := by
  have hfits : PathFits [47, 117, 115, 114] [46, 46, 47, 98, 105, 110, 47] :=
    .of_length (by decide) (by decide)
  obtain ⟨target', heq, hstring, -⟩ := resolve_path_canonical.1 _ _ (by decide) (by decide)
    (by decide) hfits (fun _ => 0) (fun _ => 0)
  exact ⟨target', heq, hstring⟩

end Runs

end OpenIDP.Userspace
