import OpenIDP.Userspace.Paths
import OpenIDP.Userspace.ShellArgs

/-!
# The commands of the shell

The loop of `src/userspace/shell/shell.c` resolves the argument of `cd` and the name of a program,
which is relative to the current directory. A program is started with the current directory and the
words of the line; `ls` of `src/userspace/coreutils/ls.c` joins the first of them with its argument.
The texts are built in arrays of 256 bytes, and nobody looks at their lengths before.

What the file system says about a path, and which program is started, are inputs.

## Main definitions

* `ShellInput` — a line, and what the file system says
* `lsPath` — the part of `ls`
* `shellCommand` — the current directory after a command, if all stores were inside the arrays
* `CommandFits` — the texts and the segments fit

## Main results

* `shellCommand_isSome_iff` — one command
* `path_buffers_safe_iff` — the commands of a run
-/

namespace OpenIDP.Userspace

open OpenIDP.Math

/-- A line that `shell_readline` returns. The result of `sys_stat` is whether the resolved path is
a directory, and a program that is started may be `ls`. The arrays hold anything at the start. -/
structure ShellInput where
  line : List (BitVec 8)
  bytes : ∀ c ∈ line, c ≠ 0
  length_le : line.length ≤ 255
  isDirectory : Bool
  startsLs : Bool
  target : CharArray
  temp : CharArray
  pathBuffer : CharArray

/-- `ls`, up to the path that it lists: what `path_buffer` holds afterwards. -/
def lsPath (pathBuffer : CharArray) (argv : List (List (BitVec 8))) : Option CharArray :=
  match argv with
  | directory :: _ :: arg :: _ =>
    if arg.head? ≠ some 47 then joinInto 256 pathBuffer directory arg else some pathBuffer
  | _ => some pathBuffer

/-- The command `cd` with an argument: the current directory afterwards. -/
def changeDirectory (inp : ShellInput) (cwd arg : List (BitVec 8)) : Option (List (BitVec 8)) :=
  (resolvePath inp.target inp.temp cwd arg).bind fun buf =>
    (readString 256 buf 0).map fun path =>
      if path = [47] then [47]
      else if path.length < 256 then if inp.isDirectory then path else cwd
      else cwd

/-- Starts a program. -/
def startProgram (inp : ShellInput) (cwd command : List (BitVec 8))
    (argv : List (List (BitVec 8))) : Option (List (BitVec 8)) :=
  (if command.head? = some 47 then some inp.target
    else resolvePath inp.target inp.temp cwd command).bind fun _ =>
    if inp.startsLs then (lsPath inp.pathBuffer argv).map fun _ => cwd else some cwd

/-- A turn of the loop of the shell: the current directory afterwards. -/
def shellCommand (cwd : List (BitVec 8)) (inp : ShellInput) : Option (List (BitVec 8)) :=
  match lineWords inp.line with
  | [] => some cwd
  | command :: args =>
    if command = [104, 101, 108, 112] then some cwd -- help
    else if command = [99, 100] then -- cd
      match args with
      | [] => some [47]
      | arg :: _ => changeDirectory inp cwd arg
    else if command = [99, 108, 101, 97, 114] then some cwd -- clear
    else startProgram inp cwd command (cwd :: (command :: args).take 15)

/-- The argument of `ls` fits behind the current directory. -/
def LsFits (cwd : List (BitVec 8)) (args : List (List (BitVec 8))) : Prop :=
  ∀ arg ∈ args.head?, arg.head? ≠ some 47 → (relativeText cwd arg).length ≤ 255

/-- What a command joins with the current directory fits. -/
def CommandFits (cwd : List (BitVec 8)) (inp : ShellInput) : Prop :=
  match lineWords inp.line with
  | [] => True
  | command :: args =>
    if command = [104, 101, 108, 112] then True
    else if command = [99, 100] then ∀ arg ∈ args.head?, PathFits cwd arg
    else if command = [99, 108, 101, 97, 114] then True
    else (command.head? ≠ some 47 → PathFits cwd command) ∧ (inp.startsLs = true → LsFits cwd args)

section Command

variable {cwd arg command : List (BitVec 8)} {args : List (List (BitVec 8))} {inp : ShellInput}

/-- The bytes of the words are those of the line. -/
theorem ne_zero_of_mem_words {w : List (BitVec 8)} (hw : w ∈ lineWords inp.line) :
    ∀ c ∈ w, c ≠ 0 :=
  fun c hc => inp.bytes c ((mem_segments hw).2.2 c hc)

theorem resolvePath_isSome_iff {target temp : CharArray} (h : IsDirectory cwd)
    (harg : ∀ c ∈ arg, c ≠ 0) :
    (resolvePath target temp cwd arg).isSome ↔ PathFits cwd arg := by
  obtain ⟨hfits, hnot⟩ := resolvePath_eq target temp h.bytes harg h.head
  by_cases hcase : PathFits cwd arg
  · obtain ⟨target', heq, -⟩ := hfits hcase
    rw [heq]
    exact iff_of_true rfl hcase
  · rw [hnot hcase]
    exact iff_of_false Bool.false_ne_true hcase

/-- `cd` stores inside the arrays if and only if its path fits, and then to a directory. -/
theorem changeDirectory_spec (h : IsDirectory cwd) (harg : ∀ c ∈ arg, c ≠ 0) :
    ((changeDirectory inp cwd arg).isSome ↔ PathFits cwd arg) ∧
      ∀ cwd' ∈ changeDirectory inp cwd arg, IsDirectory cwd' := by
  obtain ⟨hfits, hnot⟩ := resolvePath_eq inp.target inp.temp h.bytes harg h.head
  rw [changeDirectory]
  by_cases hcase : PathFits cwd arg
  · obtain ⟨target', heq, hstring⟩ := hfits hcase
    have hpath := isDirectory_normalForm h.head hstring hcase
    have hlength := hpath.length_le
    rw [heq, Option.bind_some, hstring.readString_eq (by omega), Option.map_some]
    refine ⟨iff_of_true rfl hcase, fun cwd' hcwd' => ?_⟩
    obtain rfl := Option.some_inj.mp hcwd'
    split_ifs
    · exact isDirectory_root
    · exact hpath
    · exact h
    · exact h
  · rw [hnot hcase]
    refine ⟨iff_of_false Bool.false_ne_true hcase, fun cwd' hcwd' => ?_⟩
    exact absurd hcwd' (Option.some_ne_none _).symm

theorem lsPath_isSome_iff {pathBuffer : CharArray} (h : IsDirectory cwd)
    (hargs : ∀ arg ∈ args, ∀ c ∈ arg, c ≠ 0) :
    (lsPath pathBuffer (cwd :: (command :: args).take 15)).isSome ↔ LsFits cwd args := by
  cases args with
  | nil => exact iff_of_true rfl fun arg harg => absurd harg (Option.some_ne_none _).symm
  | cons arg args =>
    change (if arg.head? ≠ some 47 then joinInto 256 pathBuffer cwd arg
      else some pathBuffer).isSome ↔ _
    have hjoin := joinInto_spec 256 pathBuffer h.bytes (hargs arg List.mem_cons_self)
    constructor
    · intro hsome arg' harg' hrelative
      obtain rfl := Option.some_inj.mp harg'
      rw [if_pos hrelative] at hsome
      by_contra hlong
      rw [if_neg (by omega)] at hjoin
      rw [hjoin] at hsome
      exact Bool.false_ne_true hsome
    · intro hfits
      by_cases hrelative : arg.head? ≠ some 47
      · have hlength := hfits arg rfl hrelative
        rw [if_pos (by omega)] at hjoin
        obtain ⟨buf', heq, -⟩ := hjoin
        rw [if_pos hrelative, heq]
        rfl
      · rw [if_neg hrelative]
        rfl

/-- A program is started without a store outside of the arrays if and only if its path and the
argument of `ls` fit. -/
theorem startProgram_isSome_iff (h : IsDirectory cwd) (hcommand : ∀ c ∈ command, c ≠ 0)
    (hargs : ∀ arg ∈ args, ∀ c ∈ arg, c ≠ 0) :
    (startProgram inp cwd command (cwd :: (command :: args).take 15)).isSome ↔
      (command.head? ≠ some 47 → PathFits cwd command) ∧
        (inp.startsLs = true → LsFits cwd args) := by
  have hpath : (if command.head? = some 47 then some inp.target
      else resolvePath inp.target inp.temp cwd command).isSome ↔
      (command.head? ≠ some 47 → PathFits cwd command) := by
    by_cases habs : command.head? = some 47
    · rw [if_pos habs]
      exact iff_of_true rfl fun hrelative => absurd habs hrelative
    · rw [if_neg habs, resolvePath_isSome_iff h hcommand]
      exact ⟨fun hfits _ => hfits, fun hfits => hfits habs⟩
  have hls : (if inp.startsLs = true then
      (lsPath inp.pathBuffer (cwd :: (command :: args).take 15)).map fun _ => cwd
      else some cwd).isSome ↔ (inp.startsLs = true → LsFits cwd args) := by
    by_cases hstarts : inp.startsLs = true
    · rw [if_pos hstarts, Option.isSome_map, lsPath_isSome_iff h hargs]
      exact ⟨fun hfits _ => hfits, fun hfits => hfits hstarts⟩
    · rw [if_neg hstarts]
      exact iff_of_true rfl fun hyes => absurd hyes hstarts
  rw [startProgram, ← hpath, ← hls]
  cases (if command.head? = some 47 then some inp.target
      else resolvePath inp.target inp.temp cwd command) with
  | none => exact iff_of_false Bool.false_ne_true fun h => Bool.false_ne_true h.1
  | some buf => exact (and_iff_right rfl).symm

theorem eq_of_mem_startProgram {argv : List (List (BitVec 8))} {cwd' : List (BitVec 8)}
    (h : startProgram inp cwd command argv = some cwd') : cwd' = cwd := by
  obtain ⟨buf, -, hrest⟩ := Option.bind_eq_some_iff.mp h
  split_ifs at hrest
  · obtain ⟨buf', -, hsame⟩ := Option.map_eq_some_iff.mp hrest
    exact hsame.symm
  · exact (Option.some_inj.mp hrest).symm

/-- A command stores inside the arrays if and only if what it joins fits. -/
theorem shellCommand_isSome_iff (h : IsDirectory cwd) :
    (shellCommand cwd inp).isSome ↔ CommandFits cwd inp := by
  have hbytes : ∀ w ∈ lineWords inp.line, ∀ c ∈ w, c ≠ 0 := fun w hw => ne_zero_of_mem_words hw
  rw [shellCommand, CommandFits]
  cases hwords : lineWords inp.line with
  | nil => exact iff_of_true rfl trivial
  | cons command args =>
    rw [hwords] at hbytes
    obtain ⟨hcommand, hargs⟩ := List.forall_mem_cons.mp hbytes
    dsimp only
    split_ifs
    · exact iff_of_true rfl trivial
    · cases args with
      | nil => exact iff_of_true rfl fun arg harg => absurd harg (Option.some_ne_none _).symm
      | cons arg args =>
        refine (changeDirectory_spec h (hargs arg List.mem_cons_self)).1.trans ?_
        exact ⟨fun hfits arg' harg' => Option.some_inj.mp harg' ▸ hfits, fun hfits => hfits arg rfl⟩
    · exact iff_of_true rfl trivial
    · exact startProgram_isSome_iff h hcommand hargs

/-- A command leads to a directory. -/
theorem isDirectory_of_shellCommand {cwd' : List (BitVec 8)} (h : IsDirectory cwd)
    (hcommand : shellCommand cwd inp = some cwd') : IsDirectory cwd' := by
  have hbytes : ∀ w ∈ lineWords inp.line, ∀ c ∈ w, c ≠ 0 := fun w hw => ne_zero_of_mem_words hw
  rw [shellCommand] at hcommand
  cases hwords : lineWords inp.line with
  | nil =>
    rw [hwords] at hcommand
    exact Option.some_inj.mp hcommand ▸ h
  | cons command args =>
    rw [hwords] at hcommand hbytes
    dsimp only at hcommand
    split_ifs at hcommand
    · exact Option.some_inj.mp hcommand ▸ h
    · cases args with
      | nil => exact Option.some_inj.mp hcommand ▸ isDirectory_root
      | cons arg args =>
        have harg := hbytes arg (List.mem_cons_of_mem _ List.mem_cons_self)
        exact (changeDirectory_spec h harg).2 cwd' hcommand
    · exact Option.some_inj.mp hcommand ▸ h
    · exact eq_of_mem_startProgram hcommand ▸ h

end Command

/-! ## Runs -/

section Runs

variable {cwd cwd' : List (BitVec 8)} {inp : ShellInput}
  {trace : List (Transition (List (BitVec 8)) ShellInput)}

/-- One command. After a store outside of an array, the current directory may be anything. -/
def ShellStep (cwd : List (BitVec 8)) (inp : ShellInput) (cwd' : List (BitVec 8)) : Prop :=
  shellCommand cwd inp = some cwd' ∨ shellCommand cwd inp = none

/-- All stores of the command were inside the arrays. -/
def BuffersSafe (t : Transition (List (BitVec 8)) ShellInput) : Prop :=
  (shellCommand t.before t.label).isSome

/-- In a run whose commands fit, the current directory is canonical and short. -/
theorem ShellStep.isDirectory (run : Reaches (Traced ShellStep) [47] trace cwd)
    (hfits : ∀ t ∈ trace, CommandFits t.before t.label) : IsDirectory cwd := by
  induction run with
  | start => exact isDirectory_root
  | snoc _ hlast ih =>
    obtain ⟨hfirst, hrest⟩ := List.forall_mem_cons.mp hfits
    obtain ⟨rfl, rfl, hstep⟩ := hlast
    have hdirectory := ih hrest
    rcases hstep with hstep | hstep
    · exact isDirectory_of_shellCommand hdirectory hstep
    · -- a command that fits does not store outside of an array
      have hsome := (shellCommand_isSome_iff hdirectory).mpr hfirst
      rw [hstep] at hsome
      exact absurd hsome Bool.false_ne_true

/-- In a run from the root, all commands store inside the arrays if and only if what each of them
joins with the current directory fits. -/
theorem path_buffers_safe_iff (run : Reaches (Traced ShellStep) [47] trace cwd) :
    (∀ t ∈ trace, BuffersSafe t) ↔ ∀ t ∈ trace, CommandFits t.before t.label := by
  refine run.forall_iff fun trace s t s' hrun hfits hlast => ?_
  obtain ⟨rfl, rfl, -⟩ := hlast
  -- up to the first command that does not fit, the current directory is one
  exact shellCommand_isSome_iff (ShellStep.isDirectory hrun hfits)

/-- `cd` to a path of 65 segments of one letter. -/
def sampleDeep : ShellInput where
  line := [99, 100, 32] ++ (List.replicate 65 [47, 97]).flatten
  bytes := by decide +kernel
  length_le := by decide +kernel
  isDirectory := true
  startsLs := false
  target := fun _ => 0
  temp := fun _ => 0
  pathBuffer := fun _ => 0

theorem sampleDeep_overflows : shellCommand [47] sampleDeep = none := by
  have hwords : lineWords sampleDeep.line = [[99, 100], (List.replicate 65 [47, 97]).flatten] := by
    decide +kernel
  have hnot : ¬ PathFits [47] (List.replicate 65 [47, 97]).flatten := fun h =>
    absurd (h.pending 65) (by decide +kernel)
  have hresolve := (resolvePath_eq sampleDeep.target sampleDeep.temp isDirectory_root.bytes
    (by decide +kernel) isDirectory_root.head).2 hnot
  rw [shellCommand, hwords]
  dsimp only
  rw [if_neg (by decide), if_pos rfl, changeDirectory, hresolve]
  rfl

theorem sampleDeep_step : ShellStep [47] sampleDeep [47] := Or.inr sampleDeep_overflows

/-- `cd bin` -/
def sampleShallow : ShellInput where
  line := [99, 100, 32, 98, 105, 110]
  bytes := by decide
  length_le := by decide
  isDirectory := true
  startsLs := false
  target := fun _ => 0
  temp := fun _ => 0
  pathBuffer := fun _ => 0

theorem sampleShallow_step : ShellStep [47] sampleShallow [47, 98, 105, 110] :=
  Or.inl (by decide +kernel)

theorem sampleShallow_fits : CommandFits [47] sampleShallow := by
  have hwords : lineWords sampleShallow.line = [[99, 100], [98, 105, 110]] := by decide
  rw [CommandFits, hwords]
  dsimp only
  rw [if_neg (by decide), if_pos rfl]
  intro arg harg
  obtain rfl := Option.some_inj.mp harg
  have hsegments : pathSegments (joinPath [47] [98, 105, 110]) = [[98, 105, 110]] := by decide
  refine ⟨by decide, fun k => ?_⟩
  rw [hsegments]
  cases k with
  | zero => decide
  | succ k =>
    rw [List.take_succ_cons, List.take_nil]
    decide

/-- A change to a directory of the root is safe, and one to a path of 65 segments is not. -/
theorem path_buffers_safe_iff_sampleDeep :
    BuffersSafe ⟨[47], sampleShallow, [47, 98, 105, 110]⟩ ∧
      ¬ CommandFits [47] sampleDeep := by
  have hsafe := (path_buffers_safe_iff (Reaches.start.next sampleShallow_step)).mpr
    (List.forall_mem_singleton.mpr sampleShallow_fits)
  have hdeep := path_buffers_safe_iff (Reaches.start.next sampleDeep_step)
  rw [List.forall_mem_singleton, List.forall_mem_singleton] at hdeep
  refine ⟨List.forall_mem_singleton.mp hsafe, fun hfits => ?_⟩
  have hsome := hdeep.mpr hfits
  rw [BuffersSafe, sampleDeep_overflows] at hsome
  exact Bool.false_ne_true hsome

/-- The pointers to the segments are stored behind their array. -/
theorem path_buffers_not_safe_sampleDeep :
    ∃ trace cwd, Reaches (Traced ShellStep) [47] trace cwd ∧ ¬ ∀ t ∈ trace, BuffersSafe t := by
  refine ⟨_, _, Reaches.start.next sampleDeep_step, fun h => ?_⟩
  have hsafe := h _ List.mem_cons_self
  rw [BuffersSafe, sampleDeep_overflows] at hsafe
  exact Bool.false_ne_true hsafe

end Runs

end OpenIDP.Userspace
