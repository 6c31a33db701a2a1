import OpenIDP.Process.Task

/-!
# What the scheduler does to the ring of tasks

The three operations on the list of tasks as effects on the fields they change, and on
the circular list: creation links a task behind the first one, a timer interrupt only
moves along the list, and an exit unlinks the current task.

## Main definitions

* `Sched.OnRing` — the tasks form a ring from the root task on, with the current task
  in it and the zombie outside

## Main results

* `addTask_fields`, `schedulerSchedule_fields`, `taskExit_fields` — the effects
* `OnRing.addTask`, `OnRing.schedulerSchedule`, `OnRing.taskExit` — the ring afterwards
* `OnRing.getTaskByPid_eq` — the search for a pid ends
* `OnRing.visits` — a round of timer interrupts makes each task current once
-/

namespace OpenIDP.Process

open OpenIDP.Math

namespace Sched

variable {s s' : Sched} {root current newTask stack pml4Phys programBreak hhdm rsp sp : ℕ}
variable {isWm : Bool} {rest xs ys : List ℕ} {a p v : ℕ} {released : List Release}

/-! ## Effects -/

/-- The block `kmalloc` returned for the kernel stack of a task. -/
def stackOf (s : Sched) (addr : ℕ) : ℕ := sub64 (s.task addr).kernelStack 4096

/-- Apart from `rsp` and `next`, the fields of a task struct stay as they are. -/
structure SameOwner (t t' : Task) : Prop where
  pid_eq : t'.pid = t.pid
  cr3_eq : t'.cr3 = t.cr3
  kernelStack_eq : t'.kernelStack = t.kernelStack

theorem SameOwner.refl (t : Task) : SameOwner t t := ⟨rfl, rfl, rfl⟩

/-- The register `CR3` after the switch to the current task. -/
def cr3After (s : Sched) (current : ℕ) : ℕ :=
  if (s.task current).cr3 = 0 then s.cr3 else (s.task current).cr3

theorem switchCr3_eq : s.switchCr3 = { s with cr3 := s.cr3After s.currentTask } := by
  unfold switchCr3 cr3After
  split_ifs with hswitch hzero hzero
  · exact absurd hzero hswitch.1
  · rfl
  · rfl
  · -- the page tables of the task are loaded already
    have hsame : (s.task s.currentTask).cr3 = s.cr3 := by
      by_contra hne
      exact hswitch ⟨hzero, hne⟩
    rw [hsame]

theorem next_setNext {value c : ℕ} :
    (s.setNext a value).next c = if c = a then value else s.next c := by
  simp only [setNext, setTask, next, Function.update_apply]
  split_ifs <;> rfl

theorem setNext_same (a value c : ℕ) :
    SameOwner (s.task c) ((s.setNext a value).task c) ∧
      ((s.setNext a value).task c).rsp = (s.task c).rsp := by
  simp only [setNext, setTask, Function.update_apply]
  split_ifs with hc
  · rw [hc]
    exact ⟨⟨rfl, rfl, rfl⟩, rfl⟩
  · exact ⟨SameOwner.refl _, rfl⟩

/-- What creation does, field by field. -/
theorem addTask_fields (stack pml4Phys programBreak : ℕ) (isWm : Bool)
    (hne : newTask ≠ s.taskHead) :
    (∀ c, (s.addTask newTask stack pml4Phys programBreak isWm).next c =
        if c = s.taskHead then newTask
        else if c = newTask then s.next s.taskHead else s.next c) ∧
      (∀ c, c ≠ newTask →
        SameOwner (s.task c) ((s.addTask newTask stack pml4Phys programBreak isWm).task c) ∧
          ((s.addTask newTask stack pml4Phys programBreak isWm).task c).rsp =
            (s.task c).rsp) := by
  constructor
  · intro c
    simp only [addTask, setNext, next, setTask, Function.update_apply]
    by_cases hhead : c = s.taskHead
    · rw [if_pos hhead, if_pos hhead]
    · by_cases hc : c = newTask
      · rw [if_neg hhead, if_pos hc, if_neg hhead, if_pos hc]
      · rw [if_neg hhead, if_neg hc, if_neg hhead, if_neg hc]
  · intro c hc
    simp only [addTask, setNext, setTask, Function.update_apply, if_neg hc, if_neg hne.symm]
    by_cases hhead : c = s.taskHead
    · rw [if_pos hhead, hhead]
      exact ⟨⟨rfl, rfl, rfl⟩, rfl⟩
    · rw [if_neg hhead]
      exact ⟨SameOwner.refl _, rfl⟩

/-- The struct of the new task. -/
theorem addTask_task (stack pml4Phys programBreak : ℕ) (isWm : Bool) (hne : newTask ≠ s.taskHead) :
    ((s.addTask newTask stack pml4Phys programBreak isWm).task newTask).pid = s.nextPid ∧
      ((s.addTask newTask stack pml4Phys programBreak isWm).task newTask).cr3 = pml4Phys ∧
      ((s.addTask newTask stack pml4Phys programBreak isWm).task newTask).kernelStack =
        wrap (stack + 4096) ∧
      ((s.addTask newTask stack pml4Phys programBreak isWm).task newTask).rsp =
        sub64 (wrap (stack + 4096)) (8 * initialFrameWords) := by
  simp [addTask, setNext, setTask, Function.update_apply, hne]

theorem reapZombie_eq : s.reapZombie hhdm =
    ({ s with zombieTask := 0 },
      if s.zombieTask = 0 then [] else s.releases hhdm s.zombieTask) := by
  unfold reapZombie
  by_cases hzero : s.zombieTask = 0
  · rw [if_neg (not_not_intro hzero), if_pos hzero, ← hzero]
  · rw [if_pos hzero, if_neg hzero]

/-- Saving the stack pointer changes neither links nor owners. -/
theorem setTask_rsp (s : Sched) (a rsp c : ℕ) :
    (s.setTask a { s.task a with rsp := rsp }).next c = s.next c ∧
      SameOwner (s.task c) ((s.setTask a { s.task a with rsp := rsp }).task c) ∧
      ((s.setTask a { s.task a with rsp := rsp }).task c).rsp =
        if c = a then rsp else (s.task c).rsp := by
  simp only [setTask, next, Function.update_apply]
  split_ifs with hc
  · rw [hc]
    exact ⟨rfl, ⟨rfl, rfl, rfl⟩, rfl⟩
  · exact ⟨rfl, SameOwner.refl _, rfl⟩

/-- What a timer interrupt does. -/
theorem schedulerSchedule_fields (hcurrent : s.currentTask ≠ 0)
    (h : s.schedulerSchedule hhdm rsp = (sp, s', released)) :
    (∀ c, s'.next c = s.next c) ∧
      (∀ c, SameOwner (s.task c) (s'.task c) ∧
        (s'.task c).rsp = if c = s.currentTask then rsp else (s.task c).rsp) ∧
      s'.currentTask = s.next s.currentTask ∧ s'.taskHead = s.taskHead ∧
      s'.zombieTask = 0 ∧ s'.nextPid = s.nextPid ∧
      s'.cr3 = s.cr3After (s.next s.currentTask) ∧ sp = (s'.task s'.currentTask).rsp ∧
      released = if s.zombieTask = 0 then [] else s.releases hhdm s.zombieTask := by
  simp only [schedulerSchedule, reapZombie_eq, switchNext, if_neg hcurrent, switchCr3_eq,
    Prod.mk.injEq] at h
  obtain ⟨rfl, rfl, rfl⟩ := h
  have hfields := setTask_rsp s s.currentTask rsp
  have hnext : (s.setTask s.currentTask { s.task s.currentTask with rsp := rsp }).next
      s.currentTask = s.next s.currentTask := (hfields _).1
  refine ⟨fun c => (hfields c).1, fun c => (hfields c).2, hnext, rfl, rfl, rfl, ?_, rfl, rfl⟩
  have hcr3 := (hfields (s.next s.currentTask)).2.1.cr3_eq
  change cr3After _ (next (s.setTask s.currentTask { s.task s.currentTask with rsp := rsp })
    s.currentTask) = _
  rw [hnext]
  change (if _ = 0 then s.cr3 else _) = _
  rw [cr3After, ← hcr3]
  rfl

/-- The predecessor of `victim` is found among the tasks before it. -/
theorem findPrev_eq {after rounds : ℕ} (h : Follows s.next (xs ++ p :: v :: ys) after)
    (hnodup : (xs ++ p :: v :: ys).Nodup)
    (hhead : s.taskHead ∉ (xs ++ p :: v :: ys).tail) (hrounds : xs.length < rounds) :
    s.findPrev v rounds ((xs ++ [p]).headD 0) = some p := by
  induction xs generalizing rounds with
  | nil =>
    cases rounds with
    | zero => exact absurd hrounds (Nat.not_lt_zero _)
    | succ rounds =>
      have hp : s.next p = v := h.1
      exact if_pos hp
  | cons x xs ih =>
    cases rounds with
    | zero => exact absurd hrounds (Nat.not_lt_zero _)
    | succ rounds =>
      have hx : s.next x = (xs ++ [p]).headD 0 := by
        refine h.1.trans ?_
        cases xs <;> rfl
      have hmem : (xs ++ [p]).headD 0 ∈ xs ++ [p] := by cases xs <;> simp
      have hrest : (xs ++ p :: v :: ys).Nodup := (List.nodup_cons.mp hnodup).2
      have hv : s.next x ≠ v := by
        rw [hx]
        rintro heq
        have hcut : xs ++ p :: v :: ys = (xs ++ [p]) ++ v :: ys := by simp
        rw [hcut] at hrest
        exact (List.nodup_append'.mp hrest).2.2 (heq ▸ hmem) List.mem_cons_self
      have htail : s.next x ≠ s.taskHead := by
        rw [hx]
        intro heq
        refine hhead ?_
        rw [← heq, List.cons_append, List.tail_cons]
        rcases List.mem_append.mp hmem with hmem | hmem
        · exact List.mem_append_left _ hmem
        · rw [List.mem_singleton.mp hmem]
          simp
      rw [List.cons_append, List.headD_cons, findPrev, if_neg hv, if_neg fun h => htail h.1, hx]
      refine ih h.2 hrest (fun hmem => hhead ?_) (by simpa using hrounds)
      exact List.mem_of_mem_tail hmem

/-! ## The ring -/

/-- The tasks form a ring from the root task on; the current task is one of them and
the zombie is not. -/
structure OnRing (s : Sched) (root : ℕ) (rest : List ℕ) : Prop where
  taskHead_eq : s.taskHead = root
  ring : Ring s.next (root :: rest)
  current_mem : s.currentTask ∈ root :: rest
  zombie_notMem : s.zombieTask ∉ root :: rest
  bounds : ∀ a ∈ root :: rest, 0 < a ∧ a < 2 ^ 64

theorem OnRing.length_lt (hs : s.OnRing root rest) : (root :: rest).length < maxTasks :=
  hs.ring.length_lt hs.bounds (Nat.two_pow_pos 64)

theorem OnRing.ne_zero (hs : s.OnRing root rest) (ha : a ∈ root :: rest) : a ≠ 0 :=
  Nat.pos_iff_ne_zero.mp (hs.bounds a ha).1

theorem OnRing.current_ne_zero (hs : s.OnRing root rest) : s.currentTask ≠ 0 :=
  hs.ne_zero hs.current_mem

/-- Creation links the new task behind the root task. -/
theorem OnRing.addTask (hs : s.OnRing root rest) (hnew : newTask ∉ root :: rest)
    (hzombie : newTask ≠ s.zombieTask) (hpos : 0 < newTask) (hlt : newTask < 2 ^ 64) :
    (s.addTask newTask stack pml4Phys programBreak isWm).OnRing root (newTask :: rest) := by
  have hne : newTask ≠ s.taskHead := by
    rw [hs.taskHead_eq]
    exact List.ne_of_not_mem_cons hnew
  obtain ⟨hnext, -⟩ := addTask_fields stack pml4Phys programBreak isWm hne
  rw [hs.taskHead_eq] at hnext hne
  have hrest : ∀ c ∈ rest, c ≠ root := fun c hc e =>
    (List.nodup_cons.mp hs.ring.nodup).1 (e ▸ hc)
  refine ⟨hs.taskHead_eq, hs.ring.insert hnew ?_ ?_ fun c hc => ?_, ?_, ?_, ?_⟩
  · rw [hnext, if_pos rfl]
  · rw [hnext, if_neg hne, if_pos rfl]
  · have hcnew : c ≠ newTask := fun e => hnew (e ▸ List.mem_cons_of_mem _ hc)
    rw [hnext, if_neg (hrest c hc), if_neg hcnew]
  · rcases List.mem_cons.mp hs.current_mem with hroot | hmem
    · exact List.mem_cons.mpr (Or.inl hroot)
    · exact List.mem_cons_of_mem _ (List.mem_cons_of_mem _ hmem)
  · intro hmem
    rcases List.mem_cons.mp hmem with hroot | hmem
    · exact hs.zombie_notMem (List.mem_cons.mpr (Or.inl hroot))
    · rcases List.mem_cons.mp hmem with heq | hmem
      · exact hzombie heq.symm
      · exact hs.zombie_notMem (List.mem_cons_of_mem _ hmem)
  · intro a ha
    rcases List.mem_cons.mp ha with rfl | ha
    · exact hs.bounds _ List.mem_cons_self
    · rcases List.mem_cons.mp ha with rfl | ha
      · exact ⟨hpos, hlt⟩
      · exact hs.bounds a (List.mem_cons_of_mem _ ha)

/-- A timer interrupt leaves the ring alone and moves on to the next task in it. -/
theorem OnRing.schedulerSchedule (hs : s.OnRing root rest)
    (h : s.schedulerSchedule hhdm rsp = (sp, s', released)) : s'.OnRing root rest := by
  obtain ⟨hnext, -, hcurrent, hhead, hzombie, -⟩ :=
    schedulerSchedule_fields hs.current_ne_zero h
  refine ⟨hhead.trans hs.taskHead_eq, hs.ring.congr fun c _ => hnext c, ?_, ?_, hs.bounds⟩
  · rw [hcurrent]
    exact hs.ring.next_mem hs.current_mem
  · rw [hzombie]
    exact fun hmem => hs.ne_zero hmem rfl

/-- `task_exit` ends and takes the current task out of the ring. -/
theorem OnRing.taskExit (hs : s.OnRing root rest) (hcurrent : s.currentTask ≠ root) :
    ∃ sp s' xs ys, s.taskExit = some (sp, s') ∧ rest = xs ++ s.currentTask :: ys ∧
      s'.OnRing root (xs ++ ys) ∧
      (∀ c, SameOwner (s.task c) (s'.task c) ∧ (s'.task c).rsp = (s.task c).rsp) ∧
      s'.zombieTask = s.currentTask ∧ s'.currentTask = s.next s.currentTask ∧
      s'.nextPid = s.nextPid ∧ s'.cr3 = s.cr3After (s.next s.currentTask) ∧
      sp = (s'.task s'.currentTask).rsp := by
  have hmem := (List.mem_cons.mp hs.current_mem).resolve_left hcurrent
  obtain ⟨xs, ys, hrest⟩ := List.append_of_mem hmem
  -- the predecessor of the victim, which may be the root task
  obtain ⟨pre, p, hpre⟩ : ∃ pre p, root :: xs = pre ++ [p] :=
    ⟨_, _, (List.dropLast_concat_getLast (List.cons_ne_nil root xs)).symm⟩
  have hlist : root :: rest = pre ++ p :: s.currentTask :: ys := by
    rw [hrest, ← List.cons_append, hpre]
    simp
  have hring := hs.ring
  rw [hlist] at hring
  have hfind : s.findPrev s.currentTask maxTasks s.taskHead = some p := by
    have hfirst : (pre ++ [p]).headD 0 = s.taskHead := by
      rw [← hpre, hs.taskHead_eq, List.headD_cons]
    rw [← hfirst]
    refine findPrev_eq hring.follows hring.nodup ?_ ?_
    · rw [← hlist, List.tail_cons, hs.taskHead_eq]
      exact (List.nodup_cons.mp hs.ring.nodup).1
    · have hlength := hs.length_lt
      rw [hlist, List.length_append] at hlength
      omega
  have hne : s.currentTask ≠ p := by
    have hcut := (List.nodup_append'.mp hring.nodup).2.1
    rintro heq
    exact (List.nodup_cons.mp hcut).1 (heq ▸ List.mem_cons_self)
  obtain ⟨s₁, hs₁⟩ : ∃ s₁, s₁ = s.setNext p (s.next s.currentTask) := ⟨_, rfl⟩
  have hnext : ∀ c, s₁.next c = if c = p then s.next s.currentTask else s.next c :=
    hs₁ ▸ fun c => next_setNext
  have hnextv : s₁.next s.currentTask = s.next s.currentTask := by rw [hnext, if_neg hne]
  have hrun : s.taskExit = some ((s₁.task (s.next s.currentTask)).rsp,
      { s₁ with
        zombieTask := s.currentTask
        currentTask := s.next s.currentTask
        tssRsp0 := wrap ((s₁.task (s.next s.currentTask)).kernelStack + 4096)
        cr3 := s₁.cr3After (s.next s.currentTask) }) := by
    have hunlink : s.unlink s.currentTask p = s₁ := by
      rw [unlink, ← hs₁]
      refine if_neg ?_
      rw [hs₁]
      change s.currentTask ≠ s.taskHead
      rwa [hs.taskHead_eq]
    simp only [Sched.taskExit, hfind, Option.bind_eq_bind, Option.bind_some, hunlink, hnextv,
      switchCr3_eq]
    rfl
  have hlist' : root :: (xs ++ ys) = pre ++ p :: ys := by
    rw [← List.cons_append, hpre]
    simp
  have hremoved : Ring s₁.next (root :: (xs ++ ys)) := by
    rw [hlist']
    refine hring.remove_mid ?_ fun c hc => ?_
    · rw [hnext, if_pos rfl]
    · have hcp : c ≠ p := by
        rintro rfl
        obtain ⟨-, hcut, hdisjoint⟩ := List.nodup_append'.mp hring.nodup
        rcases List.mem_append.mp hc with hcx | hcy
        · exact hdisjoint hcx List.mem_cons_self
        · exact (List.nodup_cons.mp hcut).1 (List.mem_cons_of_mem _ hcy)
      rw [hnext, if_neg hcp]
  have hsub : ∀ c ∈ root :: (xs ++ ys), c ∈ root :: rest := by
    intro c hc
    rw [hrest]
    rcases List.mem_cons.mp hc with hroot | hc
    · exact List.mem_cons.mpr (Or.inl hroot)
    · refine List.mem_cons_of_mem _ (List.mem_append.mpr ?_)
      exact (List.mem_append.mp hc).imp_right (List.mem_cons_of_mem _)
  refine ⟨_, _, xs, ys, hrun, hrest, ⟨?_, ?_, ?_, ?_, ?_⟩, ?_, rfl, rfl, ?_,
    ?_, rfl⟩
  · rw [hs₁]
    exact hs.taskHead_eq
  · exact hremoved
  · have hp : p ∈ root :: (xs ++ ys) := by
      rw [hlist']
      simp
    have hmem' := hremoved.next_mem hp
    rwa [hnext, if_pos rfl] at hmem'
  · intro hmem'
    have hnodup := (List.nodup_cons.mp hs.ring.nodup).2
    rw [hrest] at hnodup
    rcases List.mem_cons.mp hmem' with hroot | hmem'
    · exact hcurrent hroot
    · exact (List.nodup_cons.mp (List.nodup_middle.mp hnodup)).1 hmem'
  · exact fun c hc => hs.bounds c (hsub c hc)
  · rw [hs₁]
    exact setNext_same p _
  · rw [hs₁]
    rfl
  · have hsame := (setNext_same (s := s) p (s.next s.currentTask)
      (s.next s.currentTask)).1.cr3_eq
    rw [← hs₁] at hsame
    change s₁.cr3After _ = _
    rw [cr3After, cr3After, hsame, hs₁]
    rfl

/-- `get_task_by_pid` ends, with the first task around the ring that has the pid. -/
theorem OnRing.getTaskByPid_eq (hs : s.OnRing root rest) (pid : ℕ) :
    s.getTaskByPid pid =
      some (((root :: rest).find? fun curr => (s.task curr).pid == pid).getD 0) := by
  rw [getTaskByPid, hs.taskHead_eq]
  refine hs.ring.search_eq ?_
  have hlength := hs.length_lt
  rw [List.length_cons] at hlength
  omega

/-- With distinct pids it is the task with that pid. -/
theorem OnRing.getTaskByPid_iff (hs : s.OnRing root rest)
    (hpids : ((root :: rest).map fun a => (s.task a).pid).Nodup) (pid : ℕ) :
    (∀ a ∈ root :: rest, (s.task a).pid = pid → s.getTaskByPid pid = some a) ∧
      ((∀ a ∈ root :: rest, (s.task a).pid ≠ pid) → s.getTaskByPid pid = some 0) := by
  rw [hs.getTaskByPid_eq]
  constructor
  · intro a ha hpid
    cases hfind : (root :: rest).find? fun curr => (s.task curr).pid == pid with
    | none =>
      have hnone := List.find?_eq_none.mp hfind a ha
      simp [hpid] at hnone
    | some b =>
      have hb := List.find?_some hfind
      have hmem := List.mem_of_find?_eq_some hfind
      have heq := List.inj_on_of_nodup_map hpids ha hmem (hpid.trans (beq_iff_eq.mp hb).symm)
      rw [heq]
      rfl
  · intro hnone
    have hfind : (root :: rest).find? (fun curr => (s.task curr).pid == pid) = none :=
      List.find?_eq_none.mpr fun a ha => by simpa using hnone a ha
    rw [hfind]
    rfl

/-- The states of successive timer interrupts with the given stack pointers. -/
def ticks (hhdm : ℕ) (s : Sched) (rsps : ℕ → ℕ) : ℕ → Sched
  | 0 => s
  | k + 1 => ((ticks hhdm s rsps k).schedulerSchedule hhdm (rsps k)).2.1

theorem OnRing.ticks (hs : s.OnRing root rest) (rsps : ℕ → ℕ) (k : ℕ) :
    (ticks hhdm s rsps k).OnRing root rest ∧
      (∀ c, (ticks hhdm s rsps k).next c = s.next c) ∧
      (ticks hhdm s rsps k).currentTask = s.next^[k] s.currentTask := by
  induction k with
  | zero => exact ⟨hs, fun _ => rfl, rfl⟩
  | succ k ih =>
    obtain ⟨hring, hnext, hcurrent⟩ := ih
    have hrun : (Sched.ticks hhdm s rsps k).schedulerSchedule hhdm (rsps k) =
        (_, Sched.ticks hhdm s rsps (k + 1), _) := rfl
    obtain ⟨hnext', -, hcurrent', -⟩ :=
      schedulerSchedule_fields hring.current_ne_zero hrun
    refine ⟨hring.schedulerSchedule hrun, fun c => (hnext' c).trans (hnext c), ?_⟩
    rw [Function.iterate_succ_apply', ← hcurrent, ← hnext]
    exact hcurrent'

/-- As many timer interrupts as there are tasks make each task current exactly once. -/
theorem OnRing.visits (hs : s.OnRing root rest) (hhdm : ℕ) (rsps : ℕ → ℕ) :
    ((List.range (root :: rest).length).map fun k =>
      (Sched.ticks hhdm s rsps (k + 1)).currentTask).Perm (root :: rest) := by
  simp only [(hs.ticks rsps _).2.2]
  exact hs.ring.iterate hs.current_mem

end Sched

end OpenIDP.Process
