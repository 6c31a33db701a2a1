import Mathlib.Data.List.Induction
import Mathlib.Data.List.TakeWhile
import OpenIDP.Userspace.TermGrid

/-!
# Escape sequences for colours

A sequence `ESC [ p ; … ; p m` sets colours. The parser has room for four parameters: from the
fourth on it ignores the semicolons, so that their digits are read as one number. Numbers are `int`
and wrap.

## Main definitions

* `sgr` — the bytes of a sequence
* `value`, `number` — the number that digits stand for, and the one that is read
* `merged` — the parameters as the parser separates them
* `Term.Decoded` — the colours are those of the parameters, and nothing else has changed

## Main results

* `Term.InCsi.number`, `Term.InCsi.next` — the parameters read so far
* `Term.sgr_decoded_iff` — the sequences that are decoded
* `Term.sgr_misread` — a fifth parameter is lost
-/

namespace OpenIDP.Userspace

open OpenIDP.Math

/-! ## Sequences -/

/-- The byte of a digit. -/
def digitByte (d : Fin 10) : BitVec 8 := BitVec.ofNat 8 (0x30 + d)

/-- The bytes of a parameter. -/
def digits (ds : List (Fin 10)) : List (BitVec 8) := ds.map digitByte

/-- The bytes of the sequence for some parameters. -/
def sgr (params : List (List (Fin 10))) : List (BitVec 8) :=
  0x1b#8 :: 0x5b#8 :: ([0x3b#8].intercalate (params.map digits) ++ [0x6d#8])

/-- The number that digits stand for. Without digits it is zero. -/
def value (ds : List (Fin 10)) : ℕ := ds.foldl (fun v (d : Fin 10) => v * 10 + d.val) 0

/-- The `int` that is read from digits behind those of `v`. -/
def number (v : ℤ) (ds : List (Fin 10)) : ℤ :=
  ds.foldl (fun v (d : Fin 10) => wrapInt (v * 10 + d.val)) v

/-- The parameters, the fourth of which takes the digits of all that follow. -/
def merged (params : List (List (Fin 10))) : List (List (Fin 10)) :=
  if params.length ≤ 3 then params else params.take 3 ++ [(params.drop 3).flatten]

/-- The parser has room for the parameters, and an `int` for their numbers. -/
def ParamsFit (params : List (List (Fin 10))) : Prop :=
  params.length ≤ 4 ∧ ∀ ds ∈ params, value ds < 2 ^ 31

/-- The bytes behind the first parameter. -/
def furtherBytes (rest : List (List (Fin 10))) : List (BitVec 8) :=
  rest.flatMap fun ds => 0x3b#8 :: digits ds

theorem sgr_cons (ds : List (Fin 10)) (rest : List (List (Fin 10))) :
    sgr (ds :: rest) = 0x1b#8 :: 0x5b#8 :: (digits ds ++ furtherBytes rest ++ [0x6d#8]) := by
  have hbody : ∀ ds : List (Fin 10), [0x3b#8].intercalate ((ds :: rest).map digits) =
      digits ds ++ furtherBytes rest := by
    induction rest with
    | nil => exact fun ds => by simp [furtherBytes, List.intercalate]
    | cons ds' rest ih =>
      intro ds
      have htail := ih ds'
      rw [List.map_cons] at htail ⊢
      rw [List.map_cons, List.intercalate_cons_cons, htail]
      simp [furtherBytes]
  rw [sgr, hbody]

/-- Without parameters the sequence is that of one without digits. -/
theorem sgr_nil : sgr [] = sgr [[]] := rfl

theorem number_append (v : ℤ) (ds ds' : List (Fin 10)) :
    number v (ds ++ ds') = number (number v ds) ds' := by
  rw [number, List.foldl_append, ← number, ← number]

theorem value_concat (ds : List (Fin 10)) (d : Fin 10) : value (ds ++ [d]) = value ds * 10 + d := by
  rw [value, List.foldl_append, ← value]
  rfl

/-- A number that an `int` has room for is read as it is. -/
theorem number_of_lt {ds : List (Fin 10)} (h : value ds < 2 ^ 31) : number 0 ds = value ds := by
  induction ds using List.reverseRecOn with
  | nil => rfl
  | append_singleton ds d ih =>
    rw [value_concat] at h ⊢
    rw [number_append, ih (by omega)]
    exact wrapInt_of_bounds (by omega) (by exact_mod_cast h)

/-! ## The parameters that are read -/

/-- The numbers that are read when `codes` were read before, `v` is being read, and more parameters
follow. -/
def collect (codes : List ℤ) (v : ℤ) : List (List (Fin 10)) → List ℤ
  | [] => codes ++ [v]
  | ds :: rest =>
    if codes.length < 3 then collect (codes ++ [v]) (number 0 ds) rest
    else collect codes (number v ds) rest

/-- The fourth parameter takes the digits of those that follow. -/
theorem collect_full {codes : List ℤ} (hfull : ¬codes.length < 3) (v : ℤ)
    (rest : List (List (Fin 10))) : collect codes v rest = codes ++ [number v rest.flatten] := by
  induction rest generalizing v with
  | nil => rfl
  | cons ds rest ih => rw [collect, if_neg hfull, ih, List.flatten_cons, number_append]

/-- The numbers are those of the parameters, as the parser separates them. -/
theorem collect_eq (ds : List (Fin 10)) (rest : List (List (Fin 10))) :
    collect [] (number 0 ds) rest = (merged (ds :: rest)).map (number 0) := by
  match rest with
  | [] => rfl
  | [_] => rfl
  | [_, _] => rfl
  | b :: c :: d :: rest =>
    rw [collect, if_pos (by decide), collect, if_pos (by simp), collect, if_pos (by simp),
      collect_full (by simp), ← number_append]
    rfl

/-- If the parser has room for them, the numbers are those that the digits stand for. -/
theorem ParamsFit.merged_map {params : List (List (Fin 10))} (h : ParamsFit params) :
    (merged params).map (number 0) = params.map fun ds => (value ds : ℤ) := by
  have hmerged : merged params = params := by
    rw [merged]
    split_ifs with hfew
    · rfl
    · have hdrop : (params.drop 3).length = 1 := by
        rw [List.length_drop]
        have := h.1
        omega
      obtain ⟨ds, hds⟩ := List.length_eq_one_iff.mp hdrop
      rw [hds, List.flatten_singleton, ← hds, List.take_append_drop]
  rw [hmerged]
  exact List.map_congr_left fun ds hds => number_of_lt (h.2 ds hds)

namespace Term

variable {t u : Term} {codes : List ℤ} {v : ℤ} {files : List (BitVec 8) → Option Image}

/-- The current colours. -/
def colours (t : Term) : BitVec 32 × BitVec 32 := (t.fgColor, t.bgColor)

/-- The colours after a code. -/
def codeColours (colours : BitVec 32 × BitVec 32) (code : ℤ) : BitVec 32 × BitVec 32 :=
  if code = 0 then (defaultFg, defaultBg)
  else if 30 ≤ code ∧ code ≤ 37 then (ansiColors.getD (code - 30).toNat 0, colours.2)
  else if 40 ≤ code ∧ code ≤ 47 then (colours.1, ansiColors.getD (code - 40).toNat 0)
  else colours

theorem applyAnsiCode_colours (t : Term) (code : ℤ) :
    (t.applyAnsiCode code).colours = codeColours t.colours code := by
  rw [applyAnsiCode, codeColours]
  split_ifs
  all_goals rfl

theorem applyAnsiCode_params (t : Term) (code : ℤ) :
    (t.applyAnsiCode code).ansiParams = t.ansiParams := by
  rw [applyAnsiCode]
  split_ifs
  all_goals rfl

/-- Codes are applied in their order. -/
theorem foldl_applyAnsiCode_colours (t : Term) (codes : List ℤ) :
    (codes.foldl applyAnsiCode t).colours = codes.foldl codeColours t.colours := by
  induction codes generalizing t with
  | nil => rfl
  | cons code codes ih => rw [List.foldl_cons, List.foldl_cons, ih, applyAnsiCode_colours]

theorem foldl_params_colours (t : Term) (indices : List ℕ) :
    (indices.foldl (fun t i => t.applyAnsiCode (t.ansiParams i)) t).colours =
      (indices.map t.ansiParams).foldl codeColours t.colours := by
  induction indices generalizing t with
  | nil => rfl
  | cons i indices ih =>
    rw [List.foldl_cons, ih, applyAnsiCode_params, applyAnsiCode_colours]
    rfl

/-- The parser is in a sequence, and has read some numbers. -/
structure InCsi (t u : Term) (codes : List ℤ) : Prop where
  parsed : t.Parsed u
  state : u.ansiState = .csi
  colours : u.colours = t.colours
  count : u.ansiParamCount + 1 = codes.length
  few : codes.length ≤ 4
  params : ∀ i (hi : i < codes.length), u.ansiParams i = codes[i]

theorem digitByte_toInt (d : Fin 10) : (digitByte d).toInt = 0x30 + d.val := by
  revert d
  decide

/-- A digit goes to the last number. -/
theorem InCsi.digit (files : List (BitVec 8) → Option Image)
    (h : t.InCsi u (codes ++ [v])) (d : Fin 10) :
    t.InCsi (u.writeByte files (digitByte d)) (codes ++ [wrapInt (v * 10 + d.val)]) := by
  have hcount : u.ansiParamCount = codes.length := by
    have := h.count
    rw [List.length_append, List.length_singleton] at this
    omega
  have hlast : u.ansiParams codes.length = v := by
    rw [h.params codes.length (by simp), List.getElem_concat_length rfl]
  have hbyte : u.writeByte files (digitByte d) = { u with
      ansiParams := Function.update u.ansiParams codes.length (wrapInt (v * 10 + d.val)) } := by
    rw [writeByte, h.state]
    simp only [digitByte_toInt, hcount, hlast]
    rw [if_pos (by omega), add_sub_cancel_left]
  rw [hbyte]
  refine ⟨h.parsed.trans rfl, h.state, h.colours, ?_, ?_, fun i hi => ?_⟩
  · rw [List.length_append, List.length_singleton]
    exact congrArg (· + 1) hcount
  · simpa using h.few
  · rw [List.length_append, List.length_singleton] at hi
    rcases Nat.lt_succ_iff_lt_or_eq.mp hi with hlt | rfl
    · rw [List.getElem_append_left hlt]
      refine (Function.update_of_ne hlt.ne _ _).trans ?_
      rw [h.params i (by simp; omega), List.getElem_append_left hlt]
    · rw [List.getElem_concat_length rfl]
      exact Function.update_self _ _ _

/-- The digits of a parameter go to the last number. -/
theorem InCsi.digits (files : List (BitVec 8) → Option Image)
    (h : t.InCsi u (codes ++ [v])) (ds : List (Fin 10)) :
    t.InCsi ((digits ds).foldl (fun t c => t.writeByte files c) u) (codes ++ [number v ds]) := by
  induction ds generalizing u v with
  | nil => exact h
  | cons d ds ih =>
    rw [Userspace.digits, List.map_cons, List.foldl_cons]
    exact ih (h.digit files d)

/-- A semicolon starts the next number, if there is room for one. -/
theorem InCsi.separator (files : List (BitVec 8) → Option Image)
    (h : t.InCsi u codes) :
    t.InCsi (u.writeByte files 0x3b#8) (if codes.length < 4 then codes ++ [0] else codes) := by
  have hbyte : u.writeByte files 0x3b#8 = if u.ansiParamCount < 3 then { u with
      ansiParamCount := u.ansiParamCount + 1
      ansiParams := Function.update u.ansiParams (u.ansiParamCount + 1) 0 } else u := by
    rw [writeByte, h.state]
    rfl
  have hcount := h.count
  have hroom : u.ansiParamCount < 3 ↔ codes.length < 4 := by omega
  rw [hbyte]
  simp only [hroom]
  split_ifs with hless
  · refine ⟨h.parsed.trans rfl, h.state, h.colours, ?_, ?_, fun i hi => ?_⟩
    · rw [List.length_append, List.length_singleton]
      exact congrArg (· + 1) hcount
    · rw [List.length_append, List.length_singleton]
      omega
    · rw [List.length_append, List.length_singleton] at hi
      simp only [hcount]
      rcases Nat.lt_succ_iff_lt_or_eq.mp hi with hlt | rfl
      · rw [List.getElem_append_left hlt]
        exact (Function.update_of_ne hlt.ne _ _).trans (h.params i hlt)
      · rw [List.getElem_concat_length rfl]
        exact Function.update_self _ _ _
  · exact h

/-- The further parameters go to numbers of their own, as long as there is room. -/
theorem InCsi.rest (files : List (BitVec 8) → Option Image)
    (h : t.InCsi u (codes ++ [v])) (rest : List (List (Fin 10))) :
    t.InCsi ((furtherBytes rest).foldl (fun t c => t.writeByte files c) u)
      (collect codes v rest) := by
  induction rest generalizing u codes v with
  | nil => exact h
  | cons ds rest ih =>
    rw [furtherBytes, List.flatMap_cons, List.foldl_append, List.foldl_cons, ← furtherBytes]
    have hnext := h.separator files
    rw [List.length_append, List.length_singleton] at hnext
    rw [collect]
    by_cases hroom : codes.length < 3
    · rw [if_pos (by omega)] at hnext
      rw [if_pos hroom]
      exact ih (hnext.digits files ds)
    · rw [if_neg (by omega)] at hnext
      rw [if_neg hroom]
      exact ih (hnext.digits files ds)

/-- The last byte applies the numbers in their order. -/
theorem InCsi.finish (files : List (BitVec 8) → Option Image)
    (h : t.InCsi u codes) :
    t.Parsed (u.writeByte files 0x6d#8) ∧ (u.writeByte files 0x6d#8).ansiState = .normal ∧
      (u.writeByte files 0x6d#8).colours = codes.foldl codeColours t.colours := by
  have hcount := h.count
  have hbyte : u.writeByte files 0x6d#8 = (if u.ansiParamCount = 0 ∧ u.ansiParams 0 = 0 then u
      else { u with ansiParamCount := u.ansiParamCount + 1 }).processAnsiEnd 0x6d#8 := by
    rw [writeByte, h.state]
    rfl
  rw [hbyte]
  refine ⟨h.parsed.trans (.trans ?_ (processAnsiEnd_parsed _ _)), rfl, ?_⟩
  · split_ifs
    all_goals rfl
  · split_ifs with hempty
    · have hcodes : codes = [0] := by
        obtain ⟨code, rfl⟩ := List.length_eq_one_iff.mp (by omega : codes.length = 1)
        rw [← hempty.2, h.params 0 (by simp)]
        rfl
      have hend : (u.processAnsiEnd 0x6d#8).colours = (u.applyAnsiCode 0).colours := by
        rw [processAnsiEnd]
        simp only [if_pos, hempty.1]
        rfl
      rw [hend, applyAnsiCode_colours, h.colours, hcodes]
      rfl
    · have hend : (processAnsiEnd { u with ansiParamCount := u.ansiParamCount + 1 }
          0x6d#8).colours = ((List.range codes.length).foldl
            (fun (t : Term) i => t.applyAnsiCode (t.ansiParams i))
            { u with ansiParamCount := u.ansiParamCount + 1 }).colours := by
        rw [processAnsiEnd, ← hcount]
        simp only [if_pos, if_neg (Nat.succ_ne_zero _)]
        rfl
      have hcodes : (List.range codes.length).map u.ansiParams = codes := by
        refine List.ext_getElem (by simp) fun i hi hi' => ?_
        rw [List.getElem_map, List.getElem_range, h.params i hi']
      rw [hend, foldl_params_colours]
      change ((List.range codes.length).map u.ansiParams).foldl codeColours u.colours = _
      rw [hcodes, h.colours]

/-- The whole sequence for some parameters, the first of which is given. -/
theorem sgr_cons_read (files : List (BitVec 8) → Option Image)
    (hnormal : t.ansiState = .normal) (ds : List (Fin 10)) (rest : List (List (Fin 10))) :
    t.Parsed ((sgr (ds :: rest)).foldl (fun t c => t.writeByte files c) t) ∧
      ((sgr (ds :: rest)).foldl (fun t c => t.writeByte files c) t).ansiState = .normal ∧
      ((sgr (ds :: rest)).foldl (fun t c => t.writeByte files c) t).colours =
        ((merged (ds :: rest)).map (number 0)).foldl codeColours t.colours := by
  obtain ⟨u, hu⟩ : ∃ u : Term, u = (t.writeByte files 0x1b#8).writeByte files 0x5b#8 := ⟨_, rfl⟩
  have hescape : t.writeByte files 0x1b#8 = { t with ansiState := .esc } := by
    rw [writeByte, hnormal]
    rfl
  have hstart : t.InCsi u ([] ++ [0]) := by
    rw [hu, hescape]
    refine ⟨rfl, rfl, rfl, rfl, by decide, fun i hi => ?_⟩
    obtain rfl : i = 0 := Nat.lt_one_iff.mp hi
    change Function.update t.ansiParams 0 0 0 = 0
    exact Function.update_self _ _ _
  have hread := ((hstart.digits files ds).rest files rest).finish files
  rw [collect_eq] at hread
  rw [sgr_cons, List.foldl_cons, List.foldl_cons, ← hu, List.foldl_append, List.foldl_append]
  exact hread

/-- Feeds the pieces of an output. -/
def writes (files : List (BitVec 8) → Option Image) (t : Term) (pieces : List (List (BitVec 8))) :
    Term := pieces.foldl (fun t str => t.write files str) t

/-- Where an output without zeros is cut does not matter. -/
theorem writes_eq {pieces : List (List (BitVec 8))} (hzero : ∀ c ∈ pieces.flatten, c ≠ 0#8) :
    writes files t pieces = pieces.flatten.foldl (fun t c => t.writeByte files c) t := by
  induction pieces generalizing t with
  | nil => rfl
  | cons str pieces ih =>
    rw [List.flatten_cons] at hzero ⊢
    have hwhole : (str.takeWhile fun c => c ≠ 0#8) = str := List.takeWhile_eq_self_iff.mpr
      fun c hc => decide_eq_true (hzero c (List.mem_append_left _ hc))
    rw [writes, List.foldl_cons, ← writes, ih fun c hc => hzero c (List.mem_append_right _ hc),
      write, hwhole, List.foldl_append]

theorem sgr_ne_zero (params : List (List (Fin 10))) : ∀ c ∈ sgr params, c ≠ 0#8 := by
  have hdigit : ∀ d : Fin 10, digitByte d ≠ 0#8 := by decide
  have hdigits : ∀ ds : List (Fin 10), ∀ c ∈ digits ds, c ≠ 0#8 := fun ds =>
    List.forall_mem_map.mpr fun d _ => hdigit d
  have hfurther : ∀ rest : List (List (Fin 10)), ∀ c ∈ furtherBytes rest, c ≠ 0#8 := by
    intro rest c hc
    obtain ⟨ds, -, hc⟩ := List.mem_flatMap.mp hc
    exact List.forall_mem_cons.mpr ⟨by decide, hdigits ds⟩ c hc
  cases params with
  | nil => decide
  | cons ds rest =>
    rw [sgr_cons]
    simp only [List.forall_mem_cons, List.forall_mem_append]
    exact ⟨by decide, by decide, ⟨hdigits ds, hfurther rest⟩, by decide, by simp⟩

/-- The codes of parameters, applied in their order. -/
def applyParams (t : Term) (params : List (List (Fin 10))) : Term :=
  if params = [] then t.applyAnsiCode 0
  else (params.map fun ds => (value ds : ℤ)).foldl applyAnsiCode t

/-- The colours are those of the parameters. The parser is in its normal state, and neither the text
nor the cursor has changed. -/
structure Decoded (t t' : Term) (params : List (List (Fin 10))) : Prop where
  parsed : t.Parsed t'
  normal : t'.ansiState = .normal
  colours : t'.colours = (t.applyParams params).colours

/-- The foreground that a code sets. -/
def foregroundOf (code : ℤ) : Option (BitVec 32) :=
  if code = 0 then some defaultFg
  else if 30 ≤ code ∧ code ≤ 37 then some (ansiColors.getD (code - 30).toNat 0)
  else none

/-- The background that a code sets. -/
def backgroundOf (code : ℤ) : Option (BitVec 32) :=
  if code = 0 then some defaultBg
  else if 40 ≤ code ∧ code ≤ 47 then some (ansiColors.getD (code - 40).toNat 0)
  else none

/-- Of the numbers that are read and of those that are meant, the last one that sets a foreground
sets the same foreground, and the last one that sets a background the same background. -/
def SameColours (t : Term) (params : List (List (Fin 10))) : Prop :=
  let read := (merged params).map (number 0)
  let meant := params.map fun ds => (value ds : ℤ)
  (read.filterMap foregroundOf).getLastD t.fgColor =
      (meant.filterMap foregroundOf).getLastD t.fgColor ∧
    (read.filterMap backgroundOf).getLastD t.bgColor =
      (meant.filterMap backgroundOf).getLastD t.bgColor

instance (t : Term) (params : List (List (Fin 10))) : Decidable (t.SameColours params) :=
  inferInstanceAs (Decidable (_ ∧ _))

theorem codeColours_eq (colours : BitVec 32 × BitVec 32) (code : ℤ) : codeColours colours code =
    ((foregroundOf code).getD colours.1, (backgroundOf code).getD colours.2) := by
  rw [codeColours, foregroundOf, backgroundOf]
  split_ifs
  all_goals first | rfl | omega

/-- The last codes that set a colour decide. -/
theorem foldl_codeColours (codes : List ℤ) (colours : BitVec 32 × BitVec 32) :
    codes.foldl codeColours colours = ((codes.filterMap foregroundOf).getLastD colours.1,
      (codes.filterMap backgroundOf).getLastD colours.2) := by
  induction codes generalizing colours with
  | nil => rfl
  | cons code codes ih =>
    rw [List.foldl_cons, ih, codeColours_eq, List.filterMap_cons, List.filterMap_cons]
    congr 1
    · cases foregroundOf code with
      | none => rfl
      | some colour => rw [List.getLastD_cons, Option.getD_some]
    · cases backgroundOf code with
      | none => rfl
      | some colour => rw [List.getLastD_cons, Option.getD_some]

theorem sameColours_iff (t : Term) (params : List (List (Fin 10))) : t.SameColours params ↔
    ((merged params).map (number 0)).foldl codeColours t.colours =
      (params.map fun ds => (value ds : ℤ)).foldl codeColours t.colours := by
  rw [foldl_codeColours, foldl_codeColours, Prod.mk.injEq]
  rfl

/-- A sequence is decoded if and only if there are at most four parameters for which an `int` has
room, or the numbers that are read happen to set the same colours. -/
theorem sgr_decoded_iff (hnormal : t.ansiState = .normal) (params : List (List (Fin 10)))
    {pieces : List (List (BitVec 8))} (hpieces : pieces.flatten = sgr params) :
    t.Decoded (writes files t pieces) params ↔ ParamsFit params ∨ t.SameColours params := by
  rw [writes_eq (hpieces ▸ sgr_ne_zero params), hpieces]
  cases params with
  | nil =>
    -- no parameters are the same as an empty one
    obtain ⟨hparsed, hstate, hcolours⟩ := sgr_cons_read files hnormal [] []
    rw [← sgr_nil] at hparsed hstate hcolours
    refine iff_of_true ⟨hparsed, hstate, hcolours.trans ?_⟩ (Or.inl ⟨by decide, by simp⟩)
    exact (applyAnsiCode_colours t 0).symm
  | cons ds rest =>
    obtain ⟨hparsed, hstate, hcolours⟩ := sgr_cons_read files hnormal ds rest
    have happlied : (t.applyParams (ds :: rest)).colours =
        ((ds :: rest).map fun ds => (value ds : ℤ)).foldl codeColours t.colours := by
      rw [applyParams, if_neg (List.cons_ne_nil ds rest), foldl_applyAnsiCode_colours]
    constructor
    · intro h
      exact Or.inr ((sameColours_iff t _).mpr (hcolours.symm.trans (h.colours.trans happlied)))
    · rintro (hfit | hsame)
      · exact ⟨hparsed, hstate, by rw [hcolours, happlied, hfit.merged_map]⟩
      · exact ⟨hparsed, hstate, by rw [hcolours, happlied, (sameColours_iff t _).mp hsame]⟩

/-- The output is cut within a number. -/
theorem sgr_decoded_iff_sampleFont :
    (started sampleFont (fun _ => 0) 16 16).Decoded
      (writes (fun _ => none) (started sampleFont (fun _ => 0) 16 16)
        [[0x1b#8, 0x5b#8, 0x33#8], [0x31#8, 0x3b#8, 0x34#8, 0x34#8, 0x6d#8]]) [[3, 1], [4, 4]] := by
  have hnormal : (started sampleFont (fun _ => 0) 16 16).ansiState = .normal := by decide +kernel
  exact (sgr_decoded_iff hnormal [[3, 1], [4, 4]] (by decide)).mpr
    (Or.inl ⟨by decide, by decide⟩)

/-- A fifth parameter asks for red, but its digits are read as those of the fourth. -/
theorem sgr_misread : ¬(started sampleFont (fun _ => 0) 16 16).Decoded
    (writes (fun _ => none) (started sampleFont (fun _ => 0) 16 16)
      [sgr [[1], [2], [3], [4], [3, 1]]]) [[1], [2], [3], [4], [3, 1]] := by
  have hcolours : (started sampleFont (fun _ => 0) 16 16).colours = (defaultFg, defaultBg) := by
    decide +kernel
  have hnormal : (started sampleFont (fun _ => 0) 16 16).ansiState = .normal := by decide +kernel
  intro hdecoded
  rcases (sgr_decoded_iff hnormal _ (List.append_nil _)).mp hdecoded with hfit | hsame
  · exact absurd hfit.1 (by decide)
  · rw [sameColours_iff, hcolours] at hsame
    exact absurd hsame (by decide)

end Term

end OpenIDP.Userspace
