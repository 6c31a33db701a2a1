import OpenIDP.Drivers.Keyboard
import Mathlib.Data.List.Flatten

/-!
# Modifiers and held keys

Keys are pressed and released, and the keyboard sends the codes of set 1 for it: a byte, the same
byte with the highest bit set, behind `0xE0` for the extended keys. Around the codes of an extended
key the keyboard may send those of a Shift key that nobody touched.

The driver has one flag for the two keys of a kind, and takes the code of a Shift key for that of
its touch. A packet shows the modifiers that are held if and only if the latest code of each kind
tells the truth about it.

## Main definitions

* `KeyTouch`, `KeyTouch.codes` — what is done to the keys, and what the keyboard sends
* `isHeld` — the keys that are held
* `Follows` — the packets of a history of touches show what is held
* `Misleads` — the latest code of a kind does not say whether a key of this kind is held

## Main results

* `flag_eq_held_iff` — when a flag of the driver is right
* `follows_iff` — when all packets are
-/

namespace OpenIDP.Drivers

/-! ## Keys and their codes -/

/-- The kinds of modifiers. -/
inductive ModifierKind
  | shift | ctrl | alt | super
deriving DecidableEq

/-- The modifier keys. -/
inductive ModifierKey
  | leftShift | rightShift | leftCtrl | rightCtrl | leftAlt | rightAlt | super
deriving DecidableEq

/-- The kind of a modifier key. -/
def ModifierKey.kind : ModifierKey → ModifierKind
  | .leftShift | .rightShift => .shift
  | .leftCtrl | .rightCtrl => .ctrl
  | .leftAlt | .rightAlt => .alt
  | .super => .super

/-- A byte for a key that is pressed, or for the same key when it is released. -/
def codeOf (code : BitVec 8) (pressed : Bool) : BitVec 8 :=
  if pressed then code else code ||| 0x80

/-- What the keyboard sends for a modifier key. -/
def ModifierKey.codes (key : ModifierKey) (pressed : Bool) : List (BitVec 8) :=
  match key with
  | .leftShift => [codeOf 0x2A pressed]
  | .rightShift => [codeOf 0x36 pressed]
  | .leftCtrl => [codeOf 0x1D pressed]
  | .rightCtrl => [0xE0, codeOf 0x1D pressed]
  | .leftAlt => [codeOf 0x38 pressed]
  | .rightAlt => [0xE0, codeOf 0x38 pressed]
  | .super => [0xE0, codeOf 0x5B pressed]

/-- A code of a Shift key that the keyboard sends by itself. -/
structure FakeShift where
  right : Bool
  pressed : Bool

/-- What the keyboard sends for it. -/
def FakeShift.codes (fake : FakeShift) : List (BitVec 8) :=
  [0xE0, codeOf (if fake.right then 0x36 else 0x2A) fake.pressed]

/-- The byte of a key that is not a modifier. That of the release is not the prefix. -/
def IsOrdinary (code : BitVec 8) : Prop :=
  code < 0x80 ∧ code ∉ [0x2A, 0x36, 0x1D, 0x38, 0x60]

instance (code : BitVec 8) : Decidable (IsOrdinary code) := inferInstanceAs (Decidable (_ ∧ _))

/-- The second byte of an extended key that is not a modifier. -/
def IsExtended (code : BitVec 8) : Prop :=
  code < 0x80 ∧ code ∉ [0x2A, 0x36, 0x1D, 0x38, 0x5B, 0x60]

instance (code : BitVec 8) : Decidable (IsExtended code) := inferInstanceAs (Decidable (_ ∧ _))

/-- A key is pressed or released. -/
inductive KeyTouch
  | modifier (key : ModifierKey) (pressed : Bool)
  | ordinary (code : BitVec 8) (h : IsOrdinary code) (pressed : Bool)
  | extended (code : BitVec 8) (h : IsExtended code) (pressed : Bool) (fakes : List FakeShift)

/-- What the keyboard sends. The codes of Shift keys that nobody touched stand in front of an
extended key that is pressed, and behind one that is released. -/
def KeyTouch.codes : KeyTouch → List (BitVec 8)
  | .modifier key pressed => key.codes pressed
  | .ordinary code _ pressed => [codeOf code pressed]
  | .extended code _ true fakes => fakes.flatMap FakeShift.codes ++ [0xE0, code]
  | .extended code _ false fakes => [0xE0, code ||| 0x80] ++ fakes.flatMap FakeShift.codes

/-! ## What is held, and what the driver makes of it

Histories are lists of touches with the latest one first. -/

/-- The key is held after a history. -/
def isHeld : List KeyTouch → ModifierKey → Bool
  | [], _ => false
  | .modifier key pressed :: history, key' =>
    if key' = key then pressed else isHeld history key'
  | .ordinary .. :: history, key' => isHeld history key'
  | .extended .. :: history, key' => isHeld history key'

/-- A key of the kind is held after a history. -/
def KindHeld (history : List KeyTouch) (kind : ModifierKind) : Prop :=
  ∃ key : ModifierKey, key.kind = kind ∧ isHeld history key = true

namespace Modifiers

/-- The flag for a kind. -/
def flag (m : Modifiers) : ModifierKind → Bool
  | .shift => m.modShift
  | .ctrl => m.modCtrl
  | .alt => m.modAlt
  | .super => m.modSuper

/-- The flags after some bytes. -/
def feed (m : Modifiers) (bytes : List (BitVec 8)) : Modifiers :=
  bytes.foldl (fun m scancode => (m.decode scancode).1) m

/-- The packets for some bytes. -/
def packets : Modifiers → List (BitVec 8) → List (BitVec 16)
  | _, [] => []
  | m, scancode :: bytes =>
    (m.decode scancode).2.toList ++ (m.decode scancode).1.packets bytes

end Modifiers

/-- The flags after a history. -/
def flagsAfter : List KeyTouch → Modifiers
  | [] => Modifiers.init
  | touch :: history => (flagsAfter history).feed touch.codes

/-- The flag of a packet for a kind. -/
def ModifierKind.bit : ModifierKind → BitVec 16
  | .shift => keyModShift
  | .ctrl => keyModCtrl
  | .alt => keyModAlt
  | .super => keyModSuper

/-- The characters of the key that a touch presses. -/
def KeyTouch.character (touch : KeyTouch) (shifted : Bool) : Option (BitVec 8) :=
  match touch with
  | .ordinary code _ true =>
    some (lookup (if shifted then scancodeMapShifted else scancodeMap) code)
  | _ => none

/-- A packet for a touch shows the modifiers that are held, and the character of the key, the one
with Shift if a Shift key is held. -/
structure ShowsHeld (history : List KeyTouch) (touch : KeyTouch) (p : BitVec 16) : Prop where
  flags : ∀ kind : ModifierKind, p &&& kind.bit ≠ 0 ↔ KindHeld history kind
  shifted : KindHeld history .shift → some (p.setWidth 8) = touch.character true
  unshifted : ¬ KindHeld history .shift → some (p.setWidth 8) = touch.character false

/-- All packets made during a history show the modifiers that are held. -/
def Follows (history : List KeyTouch) : Prop :=
  ∀ later touch earlier, history = later ++ touch :: earlier →
    ∀ p ∈ (flagsAfter earlier).packets touch.codes, ShowsHeld (touch :: earlier) touch p

/-- The latest code of the kind is that of a key that was released while the other key of the
kind is held, or one of a Shift key that nobody touched, and contradicts the keys held. -/
def Misleads (kind : ModifierKind) : List KeyTouch → Prop
  | [] => False
  | .modifier key pressed :: history =>
    if key.kind = kind then
      pressed = false ∧ ∃ other ≠ key, other.kind = kind ∧ isHeld history other = true
    else Misleads kind history
  | .ordinary .. :: history => Misleads kind history
  | .extended _ _ _ fakes :: history =>
    match fakes.getLast? with
    | some fake =>
      if kind = .shift then (fake.pressed = true ↔ ¬ KindHeld history .shift)
      else Misleads kind history
    | none => Misleads kind history

/-- The touch presses a key that has a character. -/
def KeyTouch.Types : KeyTouch → Prop
  | .ordinary code _ true => lookup scancodeMap code ≠ 0
  | _ => False

/-! ## The flags -/

section Flags

variable {m : Modifiers} {history : List KeyTouch} {kind : ModifierKind}

namespace Modifiers

/-- The flags with that of a kind set to a value, and without the prefix. -/
def withFlag (m : Modifiers) (kind : ModifierKind) (value : Bool) : Modifiers :=
  match kind with
  | .shift => { m with modShift := value, e0Prefix := false }
  | .ctrl => { m with modCtrl := value, e0Prefix := false }
  | .alt => { m with modAlt := value, e0Prefix := false }
  | .super => { m with modSuper := value, e0Prefix := false }

theorem withFlag_e0Prefix (m : Modifiers) (kind : ModifierKind) (value : Bool) :
    (m.withFlag kind value).e0Prefix = false := by
  cases kind with
  | shift => rfl
  | ctrl => rfl
  | alt => rfl
  | super => rfl

theorem withFlag_flag (value : Bool) (kind' : ModifierKind) :
    (m.withFlag kind value).flag kind' = if kind' = kind then value else m.flag kind' := by
  cases kind with
  | shift => cases kind' <;> rfl
  | ctrl => cases kind' <;> rfl
  | alt => cases kind' <;> rfl
  | super => cases kind' <;> rfl

theorem feed_append (a b : List (BitVec 8)) : m.feed (a ++ b) = (m.feed a).feed b := by
  rw [feed, feed, feed, List.foldl_append]

/-- The codes of a modifier key set its flag, and make no packet. -/
theorem feed_modifier (key : ModifierKey) (pressed : Bool) :
    m.feed (key.codes pressed) = m.withFlag key.kind pressed ∧
      m.packets (key.codes pressed) = [] := by
  cases key with
  | leftShift => cases pressed <;> exact ⟨rfl, rfl⟩
  | rightShift => cases pressed <;> exact ⟨rfl, rfl⟩
  | leftCtrl => cases pressed <;> exact ⟨rfl, rfl⟩
  | rightCtrl => cases pressed <;> exact ⟨rfl, rfl⟩
  | leftAlt => cases pressed <;> exact ⟨rfl, rfl⟩
  | rightAlt => cases pressed <;> exact ⟨rfl, rfl⟩
  | super => cases pressed <;> exact ⟨rfl, rfl⟩

/-- So do those of a Shift key that nobody touched. -/
theorem feed_fake (fake : FakeShift) :
    m.feed fake.codes = m.withFlag .shift fake.pressed ∧ m.packets fake.codes = [] := by
  obtain ⟨right, pressed⟩ := fake
  cases right with
  | false => cases pressed <;> exact ⟨rfl, rfl⟩
  | true => cases pressed <;> exact ⟨rfl, rfl⟩

theorem packets_append (a b : List (BitVec 8)) :
    m.packets (a ++ b) = m.packets a ++ (m.feed a).packets b := by
  induction a generalizing m with
  | nil => rfl
  | cons scancode a ih =>
    rw [List.cons_append, packets, ih, packets, List.append_assoc]
    rfl

/-- The codes in front of or behind an extended key set the flag of Shift to what the last of
them says. -/
theorem feed_fakes (fakes : List FakeShift) (he0 : m.e0Prefix = false) :
    m.feed (fakes.flatMap FakeShift.codes) =
        (fakes.getLast?.elim m fun fake => m.withFlag .shift fake.pressed) ∧
      m.packets (fakes.flatMap FakeShift.codes) = [] := by
  induction fakes generalizing m with
  | nil => exact ⟨rfl, rfl⟩
  | cons fake fakes ih =>
    obtain ⟨hfeed, hpackets⟩ := feed_fake (m := m) fake
    obtain ⟨hrest, hnone⟩ := ih (withFlag_e0Prefix m .shift fake.pressed)
    rw [List.flatMap_cons, feed_append, packets_append, hfeed, hpackets, hrest, hnone]
    refine ⟨?_, rfl⟩
    cases hlast : fakes.getLast? with
    | none =>
      obtain rfl := List.getLast?_eq_none_iff.mp hlast
      rfl
    | some last =>
      rw [List.getLast?_cons, hlast]
      rfl

/-- A byte that is none of the special ones is that of a regular key. -/
theorem modifierKey_eq_none {scancode : BitVec 8}
    (h : scancode ∉ [0xE0, 0x2A, 0x36, 0xAA, 0xB6, 0x1D, 0x9D, 0x38, 0xB8])
    (hsuper : m.e0Prefix = true → scancode ∉ [0x5B, 0xDB]) : m.modifierKey scancode = none := by
  simp only [List.mem_cons, List.not_mem_nil, or_false, not_or] at h hsuper
  obtain ⟨h₁, h₂, h₃, h₄, h₅, h₆, h₇, h₈, h₉⟩ := h
  rw [modifierKey, if_neg h₁, if_neg (not_or.mpr ⟨h₂, h₃⟩), if_neg (not_or.mpr ⟨h₄, h₅⟩),
    if_neg h₆, if_neg h₇, if_neg h₈, if_neg h₉, if_neg fun hs => (hsuper hs.1).1 hs.2,
    if_neg fun hs => (hsuper hs.1).2 hs.2]

/-- The packet for a key that is pressed. -/
def typed (m : Modifiers) (code : BitVec 8) : List (BitVec 16) :=
  if lookup scancodeMap code ≠ 0 then
    [m.packet (lookup scancodeMap code) (lookup scancodeMapShifted code)]
  else []

/-- An ordinary key makes a packet when it is pressed, and leaves the flags. -/
theorem feed_ordinary {code : BitVec 8} (hcode : IsOrdinary code) (pressed : Bool)
    (he0 : m.e0Prefix = false) :
    m.feed [codeOf code pressed] = m ∧
      m.packets [codeOf code pressed] = if pressed then m.typed code else [] := by
  have hspecial : ∀ code : BitVec 8, IsOrdinary code → ∀ pressed, codeOf code pressed ∉
      [0xE0, 0x2A, 0x36, 0xAA, 0xB6, 0x1D, 0x9D, 0x38, 0xB8] := by
    decide +kernel
  have hhigh : ∀ code : BitVec 8, IsOrdinary code → ∀ pressed,
      codeOf code pressed &&& 0x80 = 0 ↔ pressed = true := by
    decide +kernel
  have hnone : m.modifierKey (codeOf code pressed) = none :=
    modifierKey_eq_none (hspecial code hcode pressed) fun h => by
      rw [he0] at h
      exact absurd h Bool.false_ne_true
  have hdecode : m.decode (codeOf code pressed) = (m, m.regularKey (codeOf code pressed)) := by
    rw [decode, hnone]
    exact Prod.ext (by rw [← he0]) rfl
  rw [feed, List.foldl_cons, List.foldl_nil, packets, packets, hdecode, List.append_nil]
  refine ⟨rfl, ?_⟩
  rw [regularKey, he0, if_neg Bool.false_ne_true]
  cases pressed with
  | false =>
    rw [if_neg fun h => Bool.false_ne_true ((hhigh code hcode false).mp h)]
    rfl
  | true =>
    rw [if_pos ((hhigh code hcode true).mpr rfl), if_pos rfl, typed]
    change Option.toList (if lookup scancodeMap code ≠ 0 then _ else _) = _
    split_ifs
    · rfl
    · rfl

/-- An extended key changes nothing. -/
theorem feed_extended {code : BitVec 8} (hcode : IsExtended code) (pressed : Bool)
    (he0 : m.e0Prefix = false) :
    m.feed [0xE0, codeOf code pressed] = m ∧ m.packets [0xE0, codeOf code pressed] = [] := by
  have hspecial : ∀ code : BitVec 8, IsExtended code → ∀ pressed, codeOf code pressed ∉
      [0xE0, 0x2A, 0x36, 0xAA, 0xB6, 0x1D, 0x9D, 0x38, 0xB8] ∧
        codeOf code pressed ∉ [0x5B, 0xDB] := by
    decide +kernel
  obtain ⟨hcodes, hsuper⟩ := hspecial code hcode pressed
  have hnone : { m with e0Prefix := true }.modifierKey (codeOf code pressed) = none :=
    modifierKey_eq_none hcodes fun _ => hsuper
  have hfirst : m.decode 0xE0 = ({ m with e0Prefix := true }, none) := rfl
  have hsecond : { m with e0Prefix := true }.decode (codeOf code pressed) = (m, none) := by
    rw [decode, hnone]
    refine Prod.ext ?_ ?_
    · change { m with e0Prefix := false } = m
      rw [← he0]
    · change regularKey _ _ = none
      rw [regularKey, if_pos rfl, ite_self]
  rw [feed, List.foldl_cons, List.foldl_cons, List.foldl_nil, packets, packets, packets, hfirst,
    hsecond]
  exact ⟨rfl, rfl⟩

/-- What a touch does to the flags. -/
def afterTouch (m : Modifiers) : KeyTouch → Modifiers
  | .modifier key pressed => m.withFlag key.kind pressed
  | .ordinary .. => m
  | .extended _ _ _ fakes => fakes.getLast?.elim m fun fake => m.withFlag .shift fake.pressed

/-- The packets of a touch. -/
def touchPackets (m : Modifiers) : KeyTouch → List (BitVec 16)
  | .ordinary code _ true => m.typed code
  | _ => []

/-- A touch is taken in as a whole. -/
theorem feed_touch (touch : KeyTouch) (he0 : m.e0Prefix = false) :
    m.feed touch.codes = m.afterTouch touch ∧ m.packets touch.codes = m.touchPackets touch ∧
      (m.afterTouch touch).e0Prefix = false := by
  cases touch with
  | modifier key pressed =>
    obtain ⟨hfeed, hpackets⟩ := feed_modifier (m := m) key pressed
    exact ⟨hfeed, hpackets, withFlag_e0Prefix m key.kind pressed⟩
  | ordinary code hcode pressed =>
    obtain ⟨hfeed, hpackets⟩ := feed_ordinary hcode pressed he0
    refine ⟨hfeed, hpackets.trans ?_, he0⟩
    cases pressed <;> rfl
  | extended code hcode pressed fakes =>
    have hclear : (m.afterTouch (.extended code hcode pressed fakes)).e0Prefix = false := by
      rw [afterTouch]
      cases fakes.getLast? with
      | none => exact he0
      | some fake => exact withFlag_e0Prefix m .shift fake.pressed
    obtain ⟨hfeed, hpackets⟩ := feed_fakes (m := m) fakes he0
    cases pressed with
    | true =>
      obtain ⟨hkey, hnone⟩ := feed_extended hcode true (hclear.symm ▸ congrArg e0Prefix hfeed)
      refine ⟨?_, ?_, hclear⟩
      · exact (feed_append _ _).trans (hkey.trans hfeed)
      · refine (packets_append _ _).trans ?_
        rw [hpackets]
        exact hnone
    | false =>
      obtain ⟨hkey, hnone⟩ := feed_extended hcode false he0
      refine ⟨?_, ?_, hclear⟩
      · refine (feed_append _ _).trans ?_
        exact (congrArg (fun m => m.feed (fakes.flatMap FakeShift.codes)) hkey).trans hfeed
      · refine (packets_append _ _).trans ?_
        change m.packets [0xE0, codeOf code false] ++
          (m.feed [0xE0, codeOf code false]).packets (fakes.flatMap FakeShift.codes) = []
        rw [hnone, hkey, hpackets]
        rfl

end Modifiers

theorem flagsAfter_e0Prefix (history : List KeyTouch) :
    (flagsAfter history).e0Prefix = false := by
  induction history with
  | nil => rfl
  | cons touch history ih =>
    obtain ⟨hfeed, -, hclear⟩ := Modifiers.feed_touch touch ih
    rw [flagsAfter, hfeed]
    exact hclear

theorem flagsAfter_cons (touch : KeyTouch) (history : List KeyTouch) :
    flagsAfter (touch :: history) = (flagsAfter history).afterTouch touch :=
  (Modifiers.feed_touch touch (flagsAfter_e0Prefix history)).1

/-- A touch of another kind does not matter for what is held. -/
theorem kindHeld_modifier_of_ne {key : ModifierKey} {pressed : Bool} (hkind : key.kind ≠ kind) :
    KindHeld (.modifier key pressed :: history) kind ↔ KindHeld history kind := by
  refine exists_congr fun key' => and_congr_right fun hkey' => ?_
  have hne : key' ≠ key := fun heq => hkind (heq ▸ hkey')
  rw [isHeld, if_neg hne]

/-- What is held of the kind of a key that was touched. -/
theorem kindHeld_modifier {key : ModifierKey} {pressed : Bool} :
    KindHeld (.modifier key pressed :: history) key.kind ↔
      pressed = true ∨ ∃ other ≠ key, other.kind = key.kind ∧ isHeld history other = true := by
  constructor
  · rintro ⟨key', hkind, hheld⟩
    rw [isHeld] at hheld
    split_ifs at hheld with heq
    · exact Or.inl hheld
    · exact Or.inr ⟨key', heq, hkind, hheld⟩
  · rintro (hpressed | ⟨other, hne, hkind, hheld⟩)
    · refine ⟨key, rfl, ?_⟩
      rw [isHeld, if_pos rfl]
      exact hpressed
    · refine ⟨other, hkind, ?_⟩
      rw [isHeld, if_neg hne]
      exact hheld

/-- The flag of a kind is right if and only if its latest code does not mislead. -/
theorem flag_eq_held_iff (kind : ModifierKind) (history : List KeyTouch) :
    ((flagsAfter history).flag kind = true ↔ KindHeld history kind) ↔
      ¬ Misleads kind history := by
  induction history with
  | nil =>
    refine iff_of_true (iff_of_false ?_ ?_) id
    · cases kind <;> exact Bool.false_ne_true
    · rintro ⟨key, -, hheld⟩
      exact Bool.false_ne_true hheld
  | cons touch history ih =>
    rw [flagsAfter_cons]
    cases touch with
    | modifier key pressed =>
      rw [Modifiers.afterTouch, Modifiers.withFlag_flag, Misleads]
      by_cases hkind : key.kind = kind
      · -- the flag says what was done to the key, and the other key of the kind may be held
        subst hkind
        rw [if_pos rfl, if_pos rfl, kindHeld_modifier]
        cases pressed with
        | false => simp
        | true => simp
      · rw [if_neg (Ne.symm hkind), if_neg hkind, kindHeld_modifier_of_ne hkind]
        exact ih
    | ordinary code hcode pressed => exact ih
    | extended code hcode pressed fakes =>
      rw [Modifiers.afterTouch, Misleads]
      change (_ ↔ KindHeld history kind) ↔ _
      cases hlast : fakes.getLast? with
      | none => exact ih
      | some fake =>
        dsimp only [Option.elim]
        rw [Modifiers.withFlag_flag]
        by_cases hkind : kind = .shift
        · -- the flag says what the last code said, and no key was touched
          subst hkind
          rw [if_pos rfl, if_pos rfl]
          tauto
        · rw [if_neg hkind, if_neg hkind]
          exact ih

end Flags

/-! ## The packets -/

section Packets

variable {m : Modifiers} {history earlier : List KeyTouch} {touch : KeyTouch}

/-- A packet is a character and, above it, the bits of the flags. -/
theorem Modifiers.packet_eq_or (plain shifted : BitVec 8) :
    m.packet plain shifted =
      (if m.modShift then shifted else plain).setWidth 16 ||| m.packet 0 0 := by
  rw [packet, packet, ite_self]
  generalize (if m.modShift then shifted else plain) = ascii
  split_ifs
  all_goals simp [BitVec.or_assoc]

/-- The bit of a kind is not one of a character, and stands for its flag alone. -/
theorem ModifierKind.bit_spec (kind : ModifierKind) :
    (∀ ascii : BitVec 8, ascii.setWidth 16 &&& kind.bit = 0#16) ∧
      ∀ m : Modifiers, m.packet 0 0 &&& kind.bit ≠ 0 ↔ m.flag kind = true := by
  constructor
  · cases kind <;> decide +kernel
  · rintro ⟨s, c, a, u, e⟩
    revert s c a u e
    cases kind <;> decide +kernel

/-- The bits and the low byte of a packet. -/
theorem Modifiers.packet_spec (plain shifted : BitVec 8) :
    (∀ kind : ModifierKind, m.packet plain shifted &&& kind.bit ≠ 0 ↔ m.flag kind = true) ∧
      (m.packet plain shifted).setWidth 8 = if m.modShift then shifted else plain := by
  rw [packet_eq_or]
  generalize (if m.modShift then shifted else plain) = ascii
  constructor
  · intro kind
    obtain ⟨hascii, hflag⟩ := kind.bit_spec
    rw [BitVec.and_comm, BitVec.and_or_distrib_left, BitVec.and_comm, hascii, BitVec.zero_or,
      BitVec.and_comm, hflag]
  · -- the bits are above the low byte
    have hbits : ∀ s c a u e : Bool, (Modifiers.packet ⟨s, c, a, u, e⟩ 0 0).setWidth 8 = 0#8 := by
      decide +kernel
    have hzero : (m.packet 0 0).setWidth 8 = 0#8 := hbits _ _ _ _ _
    rw [BitVec.setWidth_or, hzero, BitVec.or_zero, BitVec.setWidth_setWidth_of_le _ (by decide),
      BitVec.setWidth_eq]

/-- The packet of a key shows what is held if and only if no kind misleads. -/
theorem showsHeld_iff {code : BitVec 8} (hcode : IsOrdinary code) :
    ShowsHeld (.ordinary code hcode true :: history) (.ordinary code hcode true)
        ((flagsAfter history).packet (lookup scancodeMap code) (lookup scancodeMapShifted code)) ↔
      ∀ kind, ¬ Misleads kind history := by
  obtain ⟨hbits, hlow⟩ := Modifiers.packet_spec (m := flagsAfter history)
    (lookup scancodeMap code) (lookup scancodeMapShifted code)
  constructor
  · intro h kind
    rw [← flag_eq_held_iff, ← hbits kind]
    exact h.flags kind
  · intro h
    have hflag : ∀ kind, (flagsAfter history).flag kind = true ↔ KindHeld history kind :=
      fun kind => (flag_eq_held_iff kind history).mpr (h kind)
    refine ⟨fun kind => (hbits kind).trans (hflag kind), fun hheld => ?_, fun hheld => ?_⟩
    · have hshift : (flagsAfter history).modShift = true := (hflag .shift).mpr hheld
      rw [hlow, if_pos hshift]
      rfl
    · have hshift : ¬ (flagsAfter history).modShift = true := fun h => hheld ((hflag .shift).mp h)
      rw [hlow, if_neg hshift]
      rfl

theorem forall_packets_iff :
    (∀ p ∈ (flagsAfter earlier).packets touch.codes, ShowsHeld (touch :: earlier) touch p) ↔
      (touch.Types → ∀ kind, ¬ Misleads kind earlier) := by
  rw [(Modifiers.feed_touch touch (flagsAfter_e0Prefix earlier)).2.1]
  have hempty : ∀ P : BitVec 16 → Prop, ∀ p ∈ ([] : List (BitVec 16)), P p :=
    fun P p hp => absurd hp List.not_mem_nil
  cases touch with
  | modifier key pressed => exact iff_of_true (hempty _) False.elim
  | extended code hcode pressed fakes => exact iff_of_true (hempty _) False.elim
  | ordinary code hcode pressed =>
    cases pressed with
    | false => exact iff_of_true (hempty _) False.elim
    | true =>
      rw [Modifiers.touchPackets, Modifiers.typed, KeyTouch.Types]
      by_cases hmapped : lookup scancodeMap code ≠ 0
      · rw [if_pos hmapped, List.forall_mem_singleton, showsHeld_iff]
        exact ⟨fun h _ => h, fun h => h hmapped⟩
      · rw [if_neg hmapped]
        exact iff_of_true (hempty _) fun h => absurd h hmapped

/-- All packets show what is held if and only if no kind misleads whenever a key with a character
is pressed. -/
theorem follows_iff (history : List KeyTouch) :
    Follows history ↔ ∀ later touch earlier, history = later ++ touch :: earlier →
      touch.Types → ∀ kind, ¬ Misleads kind earlier :=
  forall_congr' fun _ => forall_congr' fun _ => forall_congr' fun _ =>
    imp_congr_right fun _ => forall_packets_iff

/-- Both Shift keys are pressed, the left one is released, and the key `a` is pressed. -/
theorem not_follows_both_shifts :
    ¬ Follows [.ordinary 0x1E (by decide) true, .modifier .leftShift false,
      .modifier .rightShift true, .modifier .leftShift true] := by
  intro h
  have hshows := h [] _ _ rfl 97 (by decide)
  exact (hshows.flags .shift).mpr ⟨.rightShift, rfl, rfl⟩ (by decide)

end Packets

end OpenIDP.Drivers
