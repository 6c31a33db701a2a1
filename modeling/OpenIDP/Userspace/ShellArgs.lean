import OpenIDP.Userspace.Strings

/-!
# The words of a command line

The shell of `src/userspace/shell/shell.c` cuts a line at the spaces and keeps pointers to the words
in an array of 16 entries, behind one to the current directory. The loop stops when the array is
full, and the `NULL` that ends it is stored behind the last entry.

## Main definitions

* `lineWords` — the words of a line
* `tokenize` — the part of the shell
* `TokenizesWell` — the array is what the commands expect

## Main results

* `argLoop_spec` — the loop
* `tokenizes_well_iff` — the array is right if and only if there are at most 14 words
-/

namespace OpenIDP.Userspace

open OpenIDP.Math

/-- The words of a line, which are separated by spaces. -/
def lineWords (line : List (BitVec 8)) : List (List (BitVec 8)) :=
  segments (fun c => c = 32) line

/-- What the entries of `argv` point to: the current directory, or an index of the line. -/
inductive ArgPtr
  | currentDirectory
  | line (offset : ℕ)
deriving DecidableEq

/-- The line, the entries of `argv` where `none` is `NULL`, their number, and the indices of
`argv` that were stored to. -/
structure Args where
  cmd : CharArray
  argv : ℕ → Option ArgPtr
  argc : ℕ
  stores : List ℕ

namespace Args

/-- `argv[0] = current_directory; argc = 1` -/
def start (argv : ℕ → Option ArgPtr) (cmd : CharArray) : Args :=
  ⟨cmd, Function.update argv 0 (some .currentDirectory), 1, [0]⟩

/-- `argv[argc++] = token`, after which `strtok` leaves the line as `cmd`. -/
def push (a : Args) (token : ℕ) (cmd : CharArray) : Args :=
  ⟨cmd, Function.update a.argv a.argc (some (.line token)), a.argc + 1, a.stores ++ [a.argc]⟩

/-- `argv[argc] = NULL` -/
def close (a : Args) : Args :=
  { a with argv := Function.update a.argv a.argc none, stores := a.stores ++ [a.argc] }

end Args

/-- The loop over the words. As it stops at 16 entries, it never has more than 16 turns. -/
def argLoop : ℕ → Args → Option ℕ → Option ℕ → Option Args
  | 0, a, _, _ => some a
  | _ + 1, a, none, _ => some a
  | turns + 1, a, some token, next =>
    if a.argc < 16 then
      (strtok 32 256 a.cmd next).bind fun t => argLoop turns (a.push token t.buf) t.start t.next
    else some a

/-- The first part of the loop of the shell. `argv` is what the array holds before. -/
def tokenize (argv : ℕ → Option ArgPtr) (cmd : CharArray) : Option Args :=
  (strtok 32 256 cmd (some 0)).bind fun t =>
    (argLoop 16 (Args.start argv t.buf) t.start t.next).map Args.close

/-- The stores are to the array, whose first entry is the current directory and whose last one is
`NULL`. In between are the words of the line in their order, as many as fit. -/
structure TokenizesWell (line : List (BitVec 8)) (a : Args) : Prop where
  stores_lt : ∀ i ∈ a.stores, i < 16
  directory : a.argv 0 = some .currentDirectory
  terminated : a.argc < 16 ∧ a.argv a.argc = none
  entries : ∀ i < a.argc, a.argv i ≠ none
  argc_eq : a.argc = min (lineWords line).length 14 + 1
  words : ∀ k (hk : k < (lineWords line).length), k + 1 < a.argc →
    ∃ offset, a.argv (k + 1) = some (.line offset) ∧
      StringAt a.cmd offset (lineWords line)[k]

section Loop

variable {a : Args} {first token turns : ℕ} {next : Option ℕ} {done ws : List (List (BitVec 8))}
  {w line : List (BitVec 8)} {cmd : CharArray}

/-- The entries are the current directory and the words `done`, which lie in front of `first`. -/
structure Args.Holds (a : Args) (first : ℕ) (done : List (List (BitVec 8))) : Prop where
  argc_eq : a.argc = done.length + 1
  directory : a.argv 0 = some .currentDirectory
  word : ∀ k (hk : k < done.length), ∃ offset, a.argv (k + 1) = some (.line offset) ∧
    StringAt a.cmd offset done[k] ∧ offset + done[k].length < first
  stores_eq : a.stores = List.range a.argc
  argc_le : a.argc ≤ 16

/-- One more word. -/
theorem Args.Holds.push {cmd' : CharArray} {first' : ℕ} (h : a.Holds first done)
    (hroom : a.argc < 16) (hstring : StringAt a.cmd token w) (hlt : token + w.length < first)
    (hle : first ≤ first') (hsame : ∀ j < first, cmd' j = a.cmd j) :
    (a.push token cmd').Holds first' (done ++ [w]) := by
  refine ⟨?_, ?_, fun k hk => ?_, ?_, hroom⟩
  · rw [List.length_append, List.length_singleton, ← h.argc_eq]
    rfl
  · have hne : (0 : ℕ) ≠ a.argc := by rw [h.argc_eq]; omega
    exact (Function.update_of_ne hne _ _).trans h.directory
  · rw [List.length_append, List.length_singleton] at hk
    by_cases hlast : k < done.length
    · obtain ⟨offset, hentry, hword, hend⟩ := h.word k hlast
      have hne : k + 1 ≠ a.argc := by rw [h.argc_eq]; omega
      rw [List.getElem_append_left hlast]
      exact ⟨offset, (Function.update_of_ne hne _ _).trans hentry,
        hword.congr fun j _ hj => hsame j (Nat.lt_of_le_of_lt hj hend), Nat.lt_of_lt_of_le hend hle⟩
    · obtain rfl : k = done.length := by omega
      have heq : done.length + 1 = a.argc := h.argc_eq.symm
      rw [List.getElem_concat_length rfl, heq]
      exact ⟨token, Function.update_self _ _ _,
        hstring.congr fun j _ hj => hsame j (Nat.lt_of_le_of_lt hj hlt), Nat.lt_of_lt_of_le hlt hle⟩
  · change a.stores ++ [a.argc] = List.range (a.argc + 1)
    rw [h.stores_eq, List.range_succ]

/-- The loop takes words up to the fifteenth. -/
theorem argLoop_spec (h : a.Holds first done) (hstring : StringAt a.cmd token w)
    (hlt : token + w.length < first) (hpending : PendingTokens 32 256 a.cmd first next ws)
    (hturns : 16 ≤ turns + done.length) :
    ∃ a' first', argLoop turns a (some token) next = some a' ∧
      a'.Holds first' (done ++ (w :: ws).take (15 - done.length)) := by
  induction ws generalizing w a first token next done turns with
  | nil =>
    have hargc := h.argc_eq
    have hle := h.argc_le
    obtain ⟨turns, rfl⟩ : ∃ n, turns = n + 1 := ⟨turns - 1, by omega⟩
    rw [argLoop]
    by_cases hroom : a.argc < 16
    · rw [if_pos hroom, strtok_nil hpending, Option.bind_some]
      have hpush := h.push hroom hstring hlt le_rfl fun _ _ => rfl
      refine ⟨a.push token a.cmd, first, ?_, ?_⟩
      · cases turns <;> rfl
      · rw [List.take_of_length_le (by rw [List.length_singleton]; omega)]
        exact hpush
    · rw [if_neg hroom, show 15 - done.length = 0 by omega, List.take_zero, List.append_nil]
      exact ⟨a, first, rfl, h⟩
  | cons w' ws ih =>
    have hargc := h.argc_eq
    have hle := h.argc_le
    obtain ⟨turns, rfl⟩ : ∃ n, turns = n + 1 := ⟨turns - 1, by omega⟩
    rw [argLoop]
    by_cases hroom : a.argc < 16
    · -- the token is stored, and the next one is read
      obtain ⟨start, cmd', next', hstrtok, hstart, -, hstring', hsame, hpending'⟩ :=
        strtok_cons hpending
      have hpush := h.push hroom hstring hlt
        (show first ≤ start + w'.length + 1 by omega) fun j hj => hsame j (by omega)
      have hturns' : 16 ≤ turns + (done ++ [w]).length := by
        rw [List.length_append, List.length_singleton]
        omega
      obtain ⟨a', first', hloop, hholds⟩ :=
        ih hpush hstring' (Nat.lt_succ_self _) hpending' hturns'
      rw [if_pos hroom, hstrtok, Option.bind_some]
      refine ⟨a', first', hloop, ?_⟩
      have htake : 15 - done.length = 15 - (done ++ [w]).length + 1 := by
        rw [List.length_append, List.length_singleton]
        omega
      rw [htake, List.take_succ_cons]
      rw [List.append_assoc, List.singleton_append] at hholds
      exact hholds
    · -- the array is full, and the token is dropped
      rw [if_neg hroom, show 15 - done.length = 0 by omega, List.take_zero, List.append_nil]
      exact ⟨a, first, rfl, h⟩

/-- What the array is when the `NULL` is stored. -/
theorem tokenize_spec (argv : ℕ → Option ArgPtr) (hline : StringAt cmd 0 line)
    (hlength : line.length ≤ 255) :
    ∃ (a : Args) (first : ℕ), tokenize argv cmd = some a.close ∧
      a.Holds first ((lineWords line).take 15) := by
  have hpending : PendingTokens 32 256 cmd 0 (some 0) (lineWords line) :=
    PendingTokens.start hline (Nat.lt_succ_of_le hlength)
  have hstart : ∀ (cmd' : CharArray) first, (Args.start argv cmd').Holds first [] := by
    intro cmd' first
    refine ⟨rfl, ?_, fun k hk => absurd hk (Nat.not_lt_zero k), rfl, (by decide : 1 ≤ 16)⟩
    change Function.update argv 0 (some ArgPtr.currentDirectory) 0 = some .currentDirectory
    rw [Function.update_self]
  rw [tokenize]
  cases hwords : lineWords line with
  | nil =>
    rw [hwords] at hpending
    rw [strtok_nil hpending, Option.bind_some]
    exact ⟨_, 0, rfl, hstart cmd 0⟩
  | cons w ws =>
    rw [hwords] at hpending
    obtain ⟨start, cmd', next', hstrtok, -, -, hstring, -, hpending'⟩ := strtok_cons hpending
    have hturns : 16 ≤ 16 + ([] : List (List (BitVec 8))).length := by decide
    obtain ⟨a, first, hloop, hholds⟩ := argLoop_spec
      (hstart cmd' (start + w.length + 1)) hstring (Nat.lt_succ_self _) hpending' hturns
    rw [hstrtok, Option.bind_some]
    refine ⟨a, first, ?_, hholds⟩
    dsimp only
    rw [hloop]
    rfl

/-- The array is only what the commands expect when it has room for the `NULL`. -/
theorem TokenizesWell.length_le {argv : ℕ → Option ArgPtr} (hline : StringAt cmd 0 line)
    (hlength : line.length ≤ 255) (htokenize : tokenize argv cmd = some a)
    (hwell : TokenizesWell line a) : (lineWords line).length ≤ 14 := by
  obtain ⟨a', first, heq, hholds⟩ := tokenize_spec argv hline hlength
  obtain rfl := Option.some_inj.mp (htokenize.symm.trans heq)
  have hlt := hwell.stores_lt a'.argc (List.mem_append_right _ List.mem_cons_self)
  have hargc := hholds.argc_eq
  rw [List.length_take] at hargc
  omega

/-- The array is what the commands expect if and only if the line has at most 14 words. -/
theorem tokenizes_well_iff (argv : ℕ → Option ArgPtr) (hline : StringAt cmd 0 line)
    (hlength : line.length ≤ 255) :
    (∃ a, tokenize argv cmd = some a ∧ TokenizesWell line a) ↔ (lineWords line).length ≤ 14 := by
  obtain ⟨a, first, htokenize, hholds⟩ := tokenize_spec argv hline hlength
  have hargc := hholds.argc_eq
  rw [List.length_take] at hargc
  constructor
  · rintro ⟨a', heq, hwell⟩
    exact hwell.length_le hline hlength heq
  · intro hfew
    refine ⟨_, htokenize, ?_⟩
    have hargc' : a.argc = (lineWords line).length + 1 := by omega
    have hold : ∀ i < a.argc, a.close.argv i = a.argv i :=
      fun i hi => Function.update_of_ne hi.ne _ _
    have hall : (lineWords line).take 15 = lineWords line := List.take_of_length_le (by omega)
    rw [hall] at hholds
    refine ⟨fun i hi => ?_, ?_, ⟨?_, Function.update_self _ _ _⟩, fun i hi => ?_, ?_,
      fun k hk _ => ?_⟩
    · rcases List.mem_append.mp hi with hi | hi
      · rw [hholds.stores_eq, List.mem_range] at hi
        omega
      · rw [List.mem_singleton.mp hi]
        omega
    · exact (hold 0 (by omega)).trans hholds.directory
    · change a.argc < 16
      omega
    · rw [hold i hi]
      cases i with
      | zero =>
        rw [hholds.directory]
        exact Option.some_ne_none _
      | succ k =>
        have hk : k < (lineWords line).length := by
          change k + 1 < a.argc at hi
          omega
        obtain ⟨offset, hentry, -⟩ := hholds.word k hk
        rw [hentry]
        exact Option.some_ne_none _
    · change a.argc = _
      omega
    · obtain ⟨offset, hentry, hstring, -⟩ := hholds.word k hk
      exact ⟨offset, (hold (k + 1) (by omega)).trans hentry, hstring⟩

/-- Fifteen words of one letter. -/
def sampleLine : List (BitVec 8) := (List.replicate 14 [97, 32]).flatten ++ [97]

theorem sampleLine_at : StringAt (listArray sampleLine) 0 sampleLine :=
  stringAt_listArray (by decide)

/-- Fourteen words are fine, and fifteen are not. -/
theorem tokenizes_well_iff_sampleLine :
    (∃ a, tokenize (fun _ => none) (listArray (sampleLine.drop 2)) = some a ∧
      TokenizesWell (sampleLine.drop 2) a) ∧
    ¬ ∃ a, tokenize (fun _ => none) (listArray sampleLine) = some a ∧
      TokenizesWell sampleLine a :=
  ⟨(tokenizes_well_iff _ (stringAt_listArray (by decide)) (by decide)).mpr (by decide),
    fun h => absurd ((tokenizes_well_iff _ sampleLine_at (by decide)).mp h) (by decide)⟩

/-- The `NULL` is stored behind the array. -/
theorem not_tokenizes_well_sampleLine :
    ¬ ∃ a, tokenize (fun _ => none) (listArray sampleLine) = some a ∧
      TokenizesWell sampleLine a := by
  rintro ⟨a, htokenize, hwell⟩
  exact absurd (hwell.length_le sampleLine_at (by decide) htokenize) (by decide)

end Loop

end OpenIDP.Userspace
