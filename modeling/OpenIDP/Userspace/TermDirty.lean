import OpenIDP.Userspace.TermUpdates

/-!
# The part of the window that has changed

`last_update` is the smallest rectangle around the cells that were drawn, and the whole window after
a full redraw or an image. As long as the cursor is in the grid, what is drawn is in this rectangle.
A window that was narrower than a cell leaves the cursor before the first column: there a cell is
drawn over the end of the lines of pixels above, which are not in its rectangle.

## Main definitions

* `TermAction` — what a program does to its terminal, and the update that it sends
* `Op.Draws` — the operations that leave the size alone

## Main results

* `changed_pending` — what has changed is in `last_update`
* `changed_outside` — a window that was too narrow
-/

namespace OpenIDP.Userspace

open OpenIDP.Math

namespace Term

variable {font : Font} {t t' : Term} {files : List (BitVec 8) → Option Image}
variable {fb : ℤ → BitVec 32} {width height : ℤ}

/-- The program does something to its terminal, or sends the update and clears its mark. -/
inductive TermAction
  | run (op : Op)
  | sent

/-- Carries out an action. -/
def act (files : List (BitVec 8) → Option Image) (t : Term) : TermAction → Term
  | .run op => t.apply files op
  | .sent => { t with dirty := false }

/-- One action. -/
def Acts (files : List (BitVec 8) → Option Image) (t : Term) (a : TermAction) (t' : Term) : Prop :=
  t' = t.act files a

/-- The sizes in an action have room for a cell. -/
def TermAction.Fits (font : Font) : TermAction → Prop
  | .run op => op.Fits font
  | .sent => True

/-- Output, clearing, and showing or hiding the cursor. -/
def Op.Draws : Op → Prop
  | .write _ | .clear | .setCursorVisible _ => True
  | .init .. | .resize .. => False

/-- Carries out operations in their order. -/
def applyAll (files : List (BitVec 8) → Option Image) (t : Term) (ops : List Op) : Term :=
  ops.foldl (apply files) t

theorem Op.Draws.fits {op : Op} (h : op.Draws) : op.Fits font := by
  cases op with
  | init width height => exact h.elim
  | resize width height => exact h.elim
  | write str => trivial
  | clear => trivial
  | setCursorVisible visible => trivial

/-- What an operation draws is to be sent. -/
theorem Covers.apply (hfont : 0 < font.width ∧ 0 < font.height) (h : Ready font t) {op : Op}
    (hop : op.Draws) : t.Covers (t.apply files op) := by
  cases op with
  | init width height => exact hop.elim
  | resize width height => exact hop.elim
  | write str => exact Covers.write hfont h str
  | clear => exact Covers.clear hfont h
  | setCursorVisible visible => exact Covers.setCursorVisible hfont h visible

/-- What operations draw one after the other is to be sent. -/
theorem Covers.applyAll (hfont : 0 < font.width ∧ 0 < font.height) (h : Ready font t)
    {ops : List Op} (hops : ∀ op ∈ ops, op.Draws) : t.Covers (t.applyAll files ops) := by
  induction ops generalizing t with
  | nil => exact .refl t
  | cons op ops ih =>
    obtain ⟨hop, hops⟩ := List.forall_mem_cons.mp hops
    exact (Covers.apply hfont h hop).trans (ih (h.apply hfont op hop.fits) hops)

/-- While the windows have room for a cell, the terminal has its grid. -/
theorem ready_of_actions (hfont : 0 < font.width ∧ 0 < font.height) (hfits : Fits font width height)
    {history : List TermAction}
    (run : Reaches (Acts files) (started font fb width height) history t)
    (hsizes : ∀ a ∈ history, a.Fits font) : Ready font t := by
  induction run with
  | start => exact started_ready hfont hfits
  | @snoc history t t' a _ hlast ih =>
    obtain ⟨hsize, hsizes⟩ := List.forall_mem_cons.mp hsizes
    have hready := ih hsizes
    rw [hlast]
    cases a with
    | run op => exact hready.apply hfont op hsize
    | sent =>
      exact ⟨⟨hready.grid.buffer, hready.grid.left, hready.grid.right, hready.grid.top,
        hready.grid.bottom, hready.grid.strays⟩, hready.gfx_font, hready.pitch, hready.cols,
        hready.rows⟩

/-- In a run in which all sizes have room for a cell, whatever is drawn from some state on, in any
order: each pixel that has changed is in `last_update`, which is marked. -/
theorem changed_pending (hfont : 0 < font.width ∧ 0 < font.height) (hfits : Fits font width height)
    {history : List TermAction}
    (run : Reaches (Acts files) (started font fb width height) history t)
    (hsizes : ∀ a ∈ history, a.Fits font) {ops : List Op} (hops : ∀ op ∈ ops, op.Draws) :
    ∀ k, (t.applyAll files ops).gfx.fb k ≠ t.gfx.fb k → (t.applyAll files ops).Pending k :=
  (Covers.applyAll hfont (ready_of_actions hfont hfits run hsizes) hops).changed

theorem changed_pending_sampleFont :
    Pending (applyAll (fun _ => none) (started sampleFont (fun _ => 0) 16 16)
      [.write [0x41#8], .setCursorVisible 0]) 0 := by
  have hchanged : (applyAll (fun _ => none) (started sampleFont (fun _ => 0) 16 16)
      [.write [0x41#8], .setCursorVisible 0]).gfx.fb 0 ≠
      (started sampleFont (fun _ => 0) 16 16).gfx.fb 0 := by decide +kernel
  have hops : ∀ op ∈ [Op.write [0x41#8], .setCursorVisible 0], op.Draws := by
    intro op hop
    simp only [List.mem_cons, List.not_mem_nil, or_false] at hop
    rcases hop with rfl | rfl
    · trivial
    · trivial
  exact changed_pending ⟨by decide, by decide⟩ ⟨by decide, by decide⟩ Reaches.start
    (fun a ha => absurd ha List.not_mem_nil) hops 0 hchanged

/-- The window has been narrower than a cell, and the cursor is before the first column of the
second row. It is drawn over the end of the lines of pixels above, and `last_update` starts
before the window. -/
theorem changed_outside : ∃ t, Reaches (Acts fun _ => none) (started sampleFont (fun _ => 0) 16 16)
    [.sent, .run (.resize 16 16), .run (.resize 4 16), .run (.write [0x0A#8])] t ∧
    t.dirty = false ∧ ∃ k, 0 ≤ k ∧ k < t.gfx.width * t.gfx.height ∧
      (t.applyAll (fun _ => none) [.setCursorVisible 0, .setCursorVisible 1]).gfx.fb k ≠
        t.gfx.fb k ∧
      ¬(t.applyAll (fun _ => none) [.setCursorVisible 0, .setCursorVisible 1]).Pending k := by
  refine ⟨_, (((Reaches.start.snoc rfl).snoc rfl).snoc rfl).snoc rfl, rfl, 120, by decide,
    by decide +kernel, by decide +kernel, ?_⟩
  rintro ⟨-, px, py, hscreen, -, hmem⟩
  -- The rectangle ends where the window begins.
  have hright : px < 0 := lt_of_lt_of_eq hmem.2.1 (by decide +kernel)
  exact absurd hscreen.1 (not_le_of_gt hright)

end Term

end OpenIDP.Userspace
