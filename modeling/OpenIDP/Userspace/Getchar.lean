import OpenIDP.Userspace.Stdout
import OpenIDP.Userspace.Keys
import OpenIDP.Userspace.Wm

/-!
# Waiting for a key

`getchar` of `src/userspace/libc/stdio.c` polls for messages until a key of the terminal or a
request to quit arrives. `sys_ipc_recv` leaves the variable for the message alone when there is
none, and the type of the variable is looked at all the same. So what the stack holds at the start
may be taken for a request to quit, and a key may look like the end of the input.

## Main definitions

* `getcharLoop`, `getchar` — the function, with the messages it has dequeued
* `Decides` — the messages that end the loop
* `ReportsEnd` — the end of the input is reported when it was requested, and else the first key
* `NoPhantom` — nothing looks like a request to quit that is none

## Main results

* `getchar_eq` — the message that ends the call
* `reportsEnd_iff` — when the result can be relied on
-/

namespace OpenIDP.Userspace

open OpenIDP.Math OpenIDP.Process

/-- `EOF`, as a byte. -/
def eof : BitVec 8 := 0xFF

/-- The message is a key that the terminal sent. -/
def IsKey (terminalPid : ℤ) (m : Message) : Prop :=
  m.type = msgKeyEvent ∧ m.senderPid = terminalPid

instance (terminalPid : ℤ) (m : Message) : Decidable (IsKey terminalPid m) :=
  inferInstanceAs (Decidable (_ ∧ _))

/-- The low byte of a key. -/
def keyByte (m : Message) : BitVec 8 := BitVec.ofNat 8 m.data1

/-- The loop of `getchar`: what it returns and the messages it has dequeued. `msg` is the variable
for the message, and each entry of the list is what one call of `sys_ipc_recv` finds. There is no
result when the loop goes on. -/
def getcharLoop (terminalPid : ℤ) :
    Message → List (Option Message) → Option (BitVec 8 × List Message)
  | _, [] => none
  | msg, found :: results =>
    let msg' := found.getD msg
    if found.isSome ∧ IsKey terminalPid msg' then some (keyByte msg', found.toList)
    else if msg'.type = msgQuitRequest then some (eof, found.toList)
    else
      (getcharLoop terminalPid msg' results).map fun r => (r.1, found.toList ++ r.2)

/-- `getchar` behind its flush. -/
def getchar (terminalPid : ℤ) (msg : Message) (results : List (Option Message)) :
    Option (BitVec 8 × List Message) :=
  getcharLoop terminalPid msg results

/-- The message ends the loop. -/
def Decides (terminalPid : ℤ) (m : Message) : Prop :=
  IsKey terminalPid m ∨ m.type = msgQuitRequest

instance (terminalPid : ℤ) (m : Message) : Decidable (Decides terminalPid m) :=
  inferInstanceAs (Decidable (_ ∨ _))

/-- The function returns when a message arrives that ends the loop. It returns `EOF` only when it
has dequeued a request to quit, and otherwise the low byte of the first key that it dequeued. -/
structure ReportsEnd (terminalPid : ℤ) (msg : Message) (results : List (Option Message)) :
    Prop where
  returns : (∃ m, some m ∈ results ∧ Decides terminalPid m) →
    (getchar terminalPid msg results).isSome
  eof_requested : ∀ c dequeued, getchar terminalPid msg results = some (c, dequeued) →
    c = eof → ∃ m ∈ dequeued, m.type = msgQuitRequest
  key_returned : ∀ c dequeued, getchar terminalPid msg results = some (c, dequeued) →
    c ≠ eof → ∃ m, dequeued.find? (fun m => IsKey terminalPid m) = some m ∧ c = keyByte m

/-- The first message that ends the loop. -/
def firstDecision (terminalPid : ℤ) (results : List (Option Message)) : Option Message :=
  (results.filterMap id).find? fun m => Decides terminalPid m

/-- The variable does not look like a request to quit when the first poll finds nothing, and the
first message that ends the loop is no key whose low byte is that of `EOF`. -/
structure NoPhantom (terminalPid : ℤ) (msg : Message) (results : List (Option Message)) :
    Prop where
  start : results.head? = some none → msg.type ≠ msgQuitRequest
  key : ∀ m, firstDecision terminalPid results = some m → IsKey terminalPid m → keyByte m ≠ eof

section Results

variable {terminalPid : ℤ} {msg m : Message} {results : List (Option Message)} {c : BitVec 8}
  {dequeued : List Message}

/-- A key is no request to quit. -/
theorem IsKey.type_ne (h : IsKey terminalPid m) : m.type ≠ msgQuitRequest := by
  rw [h.1]
  decide

theorem firstDecision_none_cons :
    firstDecision terminalPid (none :: results) = firstDecision terminalPid results := rfl

theorem firstDecision_some_cons :
    firstDecision terminalPid (some m :: results) =
      if Decides terminalPid m then some m else firstDecision terminalPid results := by
  rw [firstDecision, firstDecision, List.filterMap_cons]
  dsimp only [id]
  rw [List.find?_cons]
  by_cases hm : Decides terminalPid m
  · rw [if_pos hm, decide_eq_true hm]
  · rw [if_neg hm, decide_eq_false hm]

/-- When the variable does not look like a request to quit, the loop ends at the first message that
ends it. -/
theorem getcharLoop_eq (hmsg : msg.type ≠ msgQuitRequest) :
    match firstDecision terminalPid results with
    | none => getcharLoop terminalPid msg results = none
    | some m => ∃ before, getcharLoop terminalPid msg results =
        some (if IsKey terminalPid m then keyByte m else eof, before ++ [m]) ∧
      ∀ m' ∈ before, ¬ Decides terminalPid m' := by
  induction results generalizing msg with
  | nil => rfl
  | cons found results ih =>
    cases found with
    | none =>
      -- the variable still holds what was looked at before
      have hloop : getcharLoop terminalPid msg (none :: results) =
          getcharLoop terminalPid msg results := by
        rw [getcharLoop]
        dsimp only [Option.getD_none]
        rw [if_neg fun h => Bool.false_ne_true h.1, if_neg hmsg]
        exact Option.map_id'
      rw [firstDecision_none_cons, hloop]
      exact ih hmsg
    | some m =>
      rw [firstDecision_some_cons, getcharLoop]
      dsimp only [Option.getD_some]
      by_cases hkey : IsKey terminalPid m
      · rw [if_pos (show Decides terminalPid m from Or.inl hkey), if_pos ⟨rfl, hkey⟩]
        refine ⟨[], ?_, fun m' hm' => absurd hm' List.not_mem_nil⟩
        rw [if_pos hkey]
        rfl
      · have hfound : ¬ ((some m).isSome = true ∧ IsKey terminalPid m) := fun h => hkey h.2
        rw [if_neg hfound]
        by_cases hquit : m.type = msgQuitRequest
        · rw [if_pos (show Decides terminalPid m from Or.inr hquit), if_pos hquit]
          refine ⟨[], ?_, fun m' hm' => absurd hm' List.not_mem_nil⟩
          rw [if_neg hkey]
          rfl
        · have hnot : ¬ Decides terminalPid m := not_or.mpr ⟨hkey, hquit⟩
          -- another message goes by, and stays in the variable
          rw [if_neg hnot, if_neg hquit]
          have hrest := ih hquit
          cases hfirst : firstDecision terminalPid results with
          | none =>
            rw [hfirst] at hrest
            dsimp only at hrest ⊢
            rw [hrest, Option.map_none]
          | some last =>
            rw [hfirst] at hrest
            obtain ⟨before, hloop, hbefore⟩ := hrest
            refine ⟨m :: before, ?_, List.forall_mem_cons.mpr ⟨hnot, hbefore⟩⟩
            rw [hloop]
            rfl

/-- Some message ends the loop if there is a first one. -/
theorem firstDecision_isSome (h : some m ∈ results) (hm : Decides terminalPid m) :
    (firstDecision terminalPid results).isSome := by
  rw [firstDecision, List.find?_isSome]
  exact ⟨m, List.mem_filterMap.mpr ⟨some m, h, rfl⟩, decide_eq_true hm⟩

theorem decides_of_firstDecision (h : firstDecision terminalPid results = some m) :
    Decides terminalPid m := by
  rw [firstDecision] at h
  have hdecides := List.find?_some h
  exact of_decide_eq_true hdecides

/-- The variable is only looked at before the first message arrives. -/
theorem getchar_congr (hfound : results.head? ≠ some none) (msg msg' : Message) :
    getchar terminalPid msg results = getchar terminalPid msg' results := by
  cases results with
  | nil => rfl
  | cons found results =>
    cases found with
    | none => exact absurd rfl hfound
    | some m => rfl

/-- Without a phantom the call ends at the first message that ends the loop. -/
theorem getchar_eq (terminalPid : ℤ)
    (hstart : results.head? = some none → msg.type ≠ msgQuitRequest) :
    match firstDecision terminalPid results with
    | none => getchar terminalPid msg results = none
    | some m => ∃ before, getchar terminalPid msg results =
        some (if IsKey terminalPid m then keyByte m else eof, before ++ [m]) ∧
      ∀ m' ∈ before, ¬ Decides terminalPid m' := by
  by_cases hfound : results.head? = some none
  · exact getcharLoop_eq (hstart hfound)
  · rw [getchar_congr hfound msg ⟨0, 0, 0, 0, 0⟩]
    exact getcharLoop_eq (by decide)

/-- What is reported by a call that ends at a message. -/
theorem reportsEnd_of_eq {before : List Message}
    (h : getchar terminalPid msg results =
      some (if IsKey terminalPid m then keyByte m else eof, before ++ [m]))
    (hm : Decides terminalPid m) (hbefore : ∀ m' ∈ before, ¬ Decides terminalPid m') :
    ReportsEnd terminalPid msg results ↔ (IsKey terminalPid m → keyByte m ≠ eof) := by
  constructor
  · intro hreports hkey heof
    rw [if_pos hkey] at h
    obtain ⟨m', hm', hquit⟩ := hreports.eof_requested _ _ h heof
    rcases List.mem_append.mp hm' with hm' | hm'
    · exact hbefore m' hm' (Or.inr hquit)
    · exact hkey.type_ne (List.mem_singleton.mp hm' ▸ hquit)
  · intro hkey
    refine ⟨fun _ => by rw [h]; rfl, fun c dequeued hc heof => ?_, fun c dequeued hc heof => ?_⟩
    · obtain ⟨hval, rfl⟩ := Prod.mk.inj (Option.some_inj.mp (h.symm.trans hc))
      rcases hm with hm | hquit
      · rw [if_pos hm] at hval
        exact absurd (hval.trans heof) (hkey hm)
      · exact ⟨m, List.mem_append_right _ List.mem_cons_self, hquit⟩
    · obtain ⟨hval, rfl⟩ := Prod.mk.inj (Option.some_inj.mp (h.symm.trans hc))
      by_cases hm : IsKey terminalPid m
      · rw [if_pos hm] at hval
        refine ⟨m, ?_, hval.symm⟩
        have hnone : before.find? (fun m => decide (IsKey terminalPid m)) = none :=
          List.find?_eq_none.mpr fun m' hm' hkey' =>
            hbefore m' hm' (Or.inl (of_decide_eq_true hkey'))
        rw [List.find?_append, hnone, Option.none_or, List.find?_singleton]
        exact if_pos (decide_eq_true hm)
      · rw [if_neg hm] at hval
        exact absurd hval.symm heof

/-- The end of the input is reported when it was requested, and else the first key, if and only if
nothing looks like a request to quit that is none. -/
theorem reportsEnd_iff (terminalPid : ℤ) (msg : Message) (results : List (Option Message)) :
    ReportsEnd terminalPid msg results ↔ NoPhantom terminalPid msg results := by
  by_cases hstart : results.head? = some none → msg.type ≠ msgQuitRequest
  · have hcall := getchar_eq terminalPid hstart
    cases hfirst : firstDecision terminalPid results with
    | none =>
      rw [hfirst] at hcall
      have hnever : ∀ m, some m ∈ results → ¬ Decides terminalPid m := fun m hmem hm => by
        have hsome := firstDecision_isSome hmem hm
        rw [hfirst] at hsome
        exact Bool.false_ne_true hsome
      have hnone : getchar terminalPid msg results = none := hcall
      refine iff_of_true ⟨fun ⟨m, hmem, hm⟩ => absurd hm (hnever m hmem), ?_, ?_⟩ ⟨hstart, ?_⟩
      · intro c dequeued hc
        rw [hnone] at hc
        exact absurd hc (Option.some_ne_none _).symm
      · intro c dequeued hc
        rw [hnone] at hc
        exact absurd hc (Option.some_ne_none _).symm
      · intro m hm
        rw [hfirst] at hm
        exact absurd hm (Option.some_ne_none _).symm
    | some m =>
      rw [hfirst] at hcall
      obtain ⟨before, hloop, hbefore⟩ := hcall
      have hm := decides_of_firstDecision hfirst
      rw [reportsEnd_of_eq hloop hm hbefore]
      constructor
      · intro hkey
        refine ⟨hstart, fun m' hm' => ?_⟩
        obtain rfl := Option.some_inj.mp (hfirst.symm.trans hm')
        exact hkey
      · exact fun h => h.key m hfirst
  · -- the stale variable ends the loop before anything is dequeued
    refine iff_of_false (fun hreports => ?_) fun h => hstart h.start
    obtain ⟨hhead, hquit⟩ := Classical.not_imp.mp hstart
    obtain ⟨rest, rfl⟩ : ∃ rest, results = none :: rest := List.head?_eq_some_iff.mp hhead
    have hcall : getchar terminalPid msg (none :: rest) = some (eof, []) := by
      rw [getchar, getcharLoop]
      dsimp only [Option.getD_none]
      rw [if_neg fun h => Bool.false_ne_true h.1, if_pos (not_not.mp hquit)]
      rfl
    obtain ⟨m, hm, -⟩ := hreports.eof_requested _ _ hcall rfl
    exact absurd hm List.not_mem_nil

/-- The stack holds an old request to quit, and no message waits. -/
theorem not_reportsEnd_stale :
    ¬ ReportsEnd 2 ⟨2, msgQuitRequest, 0, 0, 0⟩ [none, some ⟨2, msgKeyEvent, 97, 0, 0⟩] := by
  intro h
  obtain ⟨m, hm, -⟩ := h.eof_requested eof [] rfl rfl
  exact absurd hm List.not_mem_nil

end Results

end OpenIDP.Userspace
