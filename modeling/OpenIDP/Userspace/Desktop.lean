import OpenIDP.Userspace.Mailbox
import OpenIDP.Userspace.Update
import OpenIDP.Userspace.WmTree

/-!
# The size of a window

The window manager tells a client the size of its window in `MSG_WINDOW_CREATED`, and again in
`MSG_WINDOW_RESIZE` when a layout changes it. The client draws in rows of the width it was last
told, and the window manager reads rows of the width it has stored. The two agree while the
messages are accepted: a size is stored, and not sent again, when the queue of the client is full.

## Main definitions

* `Desktop` — the window manager, what it still has to send, and the clients with their queues
* `Desktop.heard` — the size a client will know once it has received everything

## Main results

* `Wm.messagesTo_layout` — what a layout tells a client
* `Desktop.size_agrees` — when no size is refused, clients know their sizes
-/

namespace OpenIDP.Userspace

open OpenIDP.Math OpenIDP.Process

/-- The client takes note of a message. A terminal ignores sizes before its window is created, and
windows after its first. -/
def learn (size : Option (ℤ × ℤ)) (m : Message) : Option (ℤ × ℤ) :=
  match size with
  | none =>
    if m.type = msgWindowCreated then some (toInt32 m.data1, toInt32 m.data2) else none
  | some size =>
    if m.type = msgWindowResize then some (toInt32 m.data1, toInt32 m.data2) else some size

/-- The message as the window manager sends it. -/
def Post.message (q : Post) : Message := ⟨1, q.type, q.data1, q.data2, q.data3⟩

/-- The messages to a process. -/
def messagesTo (pid : ℤ) (posts : List Post) : List Message :=
  (posts.filter fun q => q.pid = pid).map Post.message

/-- A message without a size. -/
def NoSize (m : Message) : Prop := m.type ≠ msgWindowCreated ∧ m.type ≠ msgWindowResize

instance (m : Message) : Decidable (NoSize m) := inferInstanceAs (Decidable (_ ∧ _))

theorem learn_noSize {m : Message} (h : NoSize m) (size : Option (ℤ × ℤ)) :
    learn size m = size := by
  cases size with
  | none => exact if_neg h.1
  | some size => exact if_neg h.2

theorem toInt32_toU64 {n : ℤ} (hlow : -2 ^ 31 ≤ n) (hhigh : n < 2 ^ 31) :
    toInt32 (toU64 n) = n := by
  unfold toInt32 toU64
  split_ifs
  all_goals omega

section Messages

variable {pid : ℤ} {posts posts' : List Post} {q : Post}

theorem messagesTo_append : messagesTo pid (posts ++ posts') =
    messagesTo pid posts ++ messagesTo pid posts' := by
  rw [messagesTo, List.filter_append, List.map_append, messagesTo, messagesTo]

theorem messagesTo_cons_self (h : q.pid = pid) :
    messagesTo pid (q :: posts) = q.message :: messagesTo pid posts := by
  rw [messagesTo, List.filter_cons, if_pos (decide_eq_true h), List.map_cons, messagesTo]

theorem messagesTo_cons_of_ne (h : q.pid ≠ pid) :
    messagesTo pid (q :: posts) = messagesTo pid posts := by
  rw [messagesTo, List.filter_cons, if_neg fun heq => h (of_decide_eq_true heq), messagesTo]

theorem messagesTo_eq_nil (h : ∀ q ∈ posts, q.pid ≠ pid) : messagesTo pid posts = [] := by
  rw [messagesTo, List.map_eq_nil_iff, List.filter_eq_nil_iff]
  exact fun q hq => by simpa using h q hq

/-- Only one of the elements of a list has messages to the process. -/
theorem messagesTo_flatMap {α : Type} {l : List α} {f : α → List Post} {a : α} (hnodup : l.Nodup)
    (ha : a ∈ l) (hothers : ∀ b ∈ l, b ≠ a → messagesTo pid (f b) = []) :
    messagesTo pid (l.flatMap f) = messagesTo pid (f a) := by
  induction l with
  | nil => exact absurd ha List.not_mem_nil
  | cons b l ih =>
    obtain ⟨hb, hl⟩ := List.nodup_cons.mp hnodup
    rw [List.flatMap_cons, messagesTo_append]
    rcases List.mem_cons.mp ha with rfl | hal
    · have hrest : messagesTo pid (l.flatMap f) = [] := by
        refine messagesTo_eq_nil fun q hq hpid => ?_
        obtain ⟨b', hb', hq⟩ := List.mem_flatMap.mp hq
        have hnil := hothers b' (List.mem_cons_of_mem _ hb') fun heq => hb (heq ▸ hb')
        rw [messagesTo, List.map_eq_nil_iff, List.filter_eq_nil_iff] at hnil
        exact hnil q hq (decide_eq_true hpid)
      rw [hrest, List.append_nil]
    · rw [hothers b List.mem_cons_self fun heq => hb (heq ▸ hal), List.nil_append]
      exact ih hl hal fun b' hb' => hothers b' (List.mem_cons_of_mem _ hb')

end Messages

/-- A size that fits into an `int`. -/
def Rect.SizeInt32 (r : Rect) : Prop :=
  (-2 ^ 31 ≤ r.w ∧ r.w < 2 ^ 31) ∧ -2 ^ 31 ≤ r.h ∧ r.h < 2 ^ 31

/-- Half of an `int` and the rest are `int`s. -/
theorem half_int32 {n : ℤ} (h : -2 ^ 31 ≤ n ∧ n < 2 ^ 31) :
    (-2 ^ 31 ≤ n.tdiv 2 ∧ n.tdiv 2 < 2 ^ 31) ∧
      -2 ^ 31 ≤ n - n.tdiv 2 ∧ n - n.tdiv 2 < 2 ^ 31 := by
  have hsum := Int.mul_tdiv_add_tmod n 2
  have hlow := Int.lt_tmod_of_pos n (by decide : (0 : ℤ) < 2)
  have hhigh := Int.tmod_lt_of_pos n (by decide : (0 : ℤ) < 2)
  omega

/-- The sizes of the parts of a rectangle fit into an `int`. -/
theorem tileRects_sizeInt32 {dirs : ℕ → SplitDir} {t : BinTree} {r : Rect} (h : r.SizeInt32) :
    ∀ q ∈ tileRects dirs t r, q.2.SizeInt32 := by
  induction t generalizing r with
  | leaf i =>
    intro q hq
    rw [List.mem_singleton.mp hq]
    exact h
  | split i a b iha ihb =>
    intro q hq
    have hw := half_int32 h.1
    have hh := half_int32 h.2
    have hfirst : (r.first (dirs i)).SizeInt32 := by
      cases dirs i
      · exact ⟨h.1, hh.1⟩
      · exact ⟨hw.1, h.2⟩
    have hsecond : (r.second (dirs i)).SizeInt32 := by
      cases dirs i
      · exact ⟨h.1, hh.2⟩
      · exact ⟨hw.2, h.2⟩
    rcases List.mem_append.mp hq with hq | hq
    · exact iha hfirst q hq
    · exact ihb hsecond q hq

namespace Wm

variable {s s' : Wm} {b : BinTree} {r : Rect} {slot : ℕ}

/-- Different windows that are alive have different pids. -/
def Distinct (s : Wm) : Prop :=
  ∀ slot < maxWindows, ∀ slot' < maxWindows, (s.windows slot).alive = true →
    (s.windows slot').alive = true → (s.windows slot).pid = (s.windows slot').pid → slot = slot'

theorem Moved.alive (h : s.Moved s') (slot : ℕ) :
    (s'.windows slot).alive = (s.windows slot).alive := by
  rw [h.windows slot]
  rfl

theorem Moved.pid (h : s.Moved s') (slot : ℕ) : (s'.windows slot).pid = (s.windows slot).pid := by
  rw [h.windows slot]
  rfl

theorem Distinct.moved (h : s.Distinct) (hmoved : s.Moved s') : s'.Distinct := by
  intro slot hslot slot' hslot' halive halive' hpid
  rw [hmoved.alive] at halive halive'
  rw [hmoved.pid, hmoved.pid] at hpid
  exact h slot hslot slot' hslot' halive halive' hpid

/-- The window of a leaf that posts to a process has its pid. -/
theorem leafPosts_pid {q : ℕ × Rect} {post : Post} (hpost : post ∈ s.leafPosts q) :
    ∃ slot, s.winOf q.1 = some slot ∧ post.pid = (s.windows slot).pid := by
  rw [leafPosts] at hpost
  cases hwin : s.winOf q.1 with
  | none =>
    rw [hwin] at hpost
    exact absurd hpost List.not_mem_nil
  | some slot =>
    rw [hwin] at hpost
    simp only [Window.resizePosts] at hpost
    split_ifs at hpost
    · exact ⟨slot, rfl, by rw [List.mem_singleton.mp hpost]⟩
    · exact absurd hpost List.not_mem_nil

/-- A layout tells nothing to processes without a window. -/
theorem messagesTo_layout_none {pid : ℤ} (htree : s.WindowTree (some b))
    (hpid : ∀ slot < maxWindows, (s.windows slot).alive = true → (s.windows slot).pid ≠ pid) :
    messagesTo pid ((tileRects s.dirs b r).flatMap s.leafPosts) = [] := by
  refine messagesTo_eq_nil fun post hpost heq => ?_
  obtain ⟨q, hq, hpost⟩ := List.mem_flatMap.mp hpost
  obtain ⟨slot, hwin, hpost⟩ := leafPosts_pid hpost
  have hfst : (tileRects s.dirs b r).map Prod.fst = b.leaves := tileRects_fst b r
  have hleaf : q.1 ∈ b.leaves := hfst ▸ List.mem_map_of_mem hq
  obtain ⟨slot', hslot', hwin', halive⟩ := htree.shows.windows q.1 hleaf
  obtain rfl := Option.some_inj.mp (hwin.symm.trans hwin')
  exact hpid slot hslot' halive (hpost.symm.trans heq)

/-- A layout tells the process of a window its size, if it has changed. -/
theorem messagesTo_layout (htree : s.WindowTree (some b)) (hdistinct : s.Distinct)
    (hlaid : s.LaidOut s' b r) (hslot : slot < maxWindows)
    (halive : (s.windows slot).alive = true) :
    messagesTo (s.windows slot).pid ((tileRects s.dirs b r).flatMap s.leafPosts) =
        ((s.windows slot).resizePosts (s'.windows slot).rect).map Post.message ∧
      ∃ q ∈ tileRects s.dirs b r, (s'.windows slot).rect = q.2 := by
  obtain ⟨i, hleaf, hwin⟩ := htree.shows.alive slot hslot halive
  have hfst : (tileRects s.dirs b r).map Prod.fst = b.leaves := tileRects_fst b r
  have hleaf : i ∈ (tileRects s.dirs b r).map Prod.fst := hfst.symm ▸ hleaf
  obtain ⟨q, hq, rfl⟩ := List.mem_map.mp hleaf
  rw [hfst] at hleaf
  have hrect : (s'.windows slot).rect = q.2 := by
    rw [hlaid.placed q hq slot hwin]
    rfl
  have hleaves : (leavesOf (some b)).Nodup := htree.shows.nodup.of_map _
  have hnodup : ((tileRects s.dirs b r).map Prod.fst).Nodup := hfst.symm ▸ hleaves
  refine ⟨?_, q, hq, hrect⟩
  rw [messagesTo_flatMap hnodup.of_map hq, hrect, leafPosts, hwin, messagesTo]
  · refine congrArg _ (List.filter_eq_self.mpr fun post hpost => decide_eq_true ?_)
    simp only [Window.resizePosts] at hpost
    split_ifs at hpost
    · rw [List.mem_singleton.mp hpost]
    · exact absurd hpost List.not_mem_nil
  · intro q' hq' hne
    refine messagesTo_eq_nil fun post hpost heq => ?_
    obtain ⟨slot', hwin', hpost⟩ := leafPosts_pid hpost
    have hleaf' : q'.1 ∈ b.leaves := hfst ▸ List.mem_map_of_mem hq'
    obtain ⟨slot'', hslot'', hwin'', halive'⟩ := htree.shows.windows q'.1 hleaf'
    obtain rfl := Option.some_inj.mp (hwin'.symm.trans hwin'')
    -- the pids are the same, so are the windows, the leaves and their parts
    obtain rfl := hdistinct slot' hslot'' slot hslot halive' halive (hpost.symm.trans heq)
    have hsame : q'.1 = q.1 :=
      List.inj_on_of_nodup_map htree.shows.nodup hleaf' hleaf (hwin'.trans hwin.symm)
    exact hne (List.inj_on_of_nodup_map hnodup hq' hq hsame)

end Wm

/-- The window manager, the messages of its last event that it still has to send, the queues of
the clients, the sizes that they know, and the clients that have asked for their window. -/
structure Desktop where
  wm : Wm
  outbox : List Post
  queue : ℤ → Mailbox
  size : ℤ → Option (ℤ × ℤ)
  asked : List ℤ

namespace Desktop

/-- What happens: the window manager handles an event or sends the next message, a client receives
one, or another process sends one. -/
inductive Event
  | handle (e : Wm.Event)
  | send
  | recv (pid : ℤ)
  | other (pid : ℤ) (m : Message)

/-- The clients that have asked for a window after an event: each of them asks once. -/
def ask (d : Desktop) : Wm.Event → Option (List ℤ)
  | .newClient pid _ => if pid ∈ d.asked then none else some (pid :: d.asked)
  | _ => some d.asked

/-- Carries out what happens, if it can happen. The result of sending is not looked at. -/
def apply (screen : Screen) (d : Desktop) : Event → Option Desktop
  | .handle e =>
    match d.outbox with
    | _ :: _ => none
    | [] => do
      let asked ← d.ask e
      let (wm, posts) ← d.wm.handle screen e
      some { d with wm := wm, outbox := posts, asked := asked }
  | .send =>
    match d.outbox with
    | [] => none
    | q :: outbox => some { d with
        outbox := outbox
        queue := Function.update d.queue q.pid ((d.queue q.pid).send q.message).2 }
  | .recv pid => (d.queue pid).recv.map fun received => { d with
      queue := Function.update d.queue pid received.2
      size := Function.update d.size pid (learn (d.size pid) received.1) }
  | .other pid m =>
    if NoSize m then some { d with
      queue := Function.update d.queue pid ((d.queue pid).send m).2 }
    else none

/-- One step. -/
def Step (screen : Screen) (d : Desktop) (e : Event) (d' : Desktop) : Prop :=
  d.apply screen e = some d'

/-- The start: there are no windows and no messages. -/
def start : Desktop := ⟨Wm.start, [], fun _ => [], fun _ => none, []⟩

/-- A size that the window manager sends finds room in the queue of the client. -/
def Event.Safe (d : Desktop) : Event → Prop
  | .send => ∀ q ∈ d.outbox.head?, ¬NoSize q.message → (d.queue q.pid).length < msgQueueSize
  | _ => True

/-- The size that a client knows once it has received everything. -/
def heard (d : Desktop) (pid : ℤ) : Option (ℤ × ℤ) :=
  (d.queue pid ++ messagesTo pid d.outbox).foldl learn (d.size pid)

/-- The clients will know their sizes. -/
structure Agrees (d : Desktop) : Prop where
  tree : ∃ tree, d.wm.WindowTree tree
  distinct : d.wm.Distinct
  alive : ∀ slot < maxWindows, (d.wm.windows slot).alive = true →
    (d.wm.windows slot).pid ∈ d.asked ∧
      d.heard (d.wm.windows slot).pid =
        some ((d.wm.windows slot).width, (d.wm.windows slot).height)
  fresh : ∀ pid ∉ d.asked, d.heard pid = none

variable {screen : Screen} {d d' : Desktop} {pid : ℤ} {m : Message}

/-- Only what clients hear counts. -/
theorem Agrees.congr (h : d.Agrees) (hwm : d'.wm = d.wm) (hasked : d'.asked = d.asked)
    (hheard : ∀ pid, d'.heard pid = d.heard pid) : d'.Agrees where
  tree := hwm.symm ▸ h.tree
  distinct := hwm.symm ▸ h.distinct
  alive slot hslot halive := by
    rw [hwm] at halive ⊢
    rw [hasked, hheard]
    exact h.alive slot hslot halive
  fresh pid hpid := by
    rw [hheard]
    exact h.fresh pid (hasked ▸ hpid)

theorem heard_congr (hqueue : d'.queue pid ++ messagesTo pid d'.outbox =
    d.queue pid ++ messagesTo pid d.outbox) (hsize : d'.size pid = d.size pid) :
    d'.heard pid = d.heard pid := by
  rw [heard, heard, hqueue, hsize]

/-- A message without a size may get lost. -/
theorem foldl_learn_skip {q q' : List Message} (h : NoSize m) (size : Option (ℤ × ℤ)) :
    (q ++ m :: q').foldl learn size = (q ++ q').foldl learn size := by
  rw [List.foldl_append, List.foldl_cons, learn_noSize h, List.foldl_append]

/-- Receiving a message does not change what will be heard. -/
theorem Agrees.recv (h : d.Agrees) (hstep : d.apply screen (.recv pid) = some d') :
    d'.Agrees := by
  obtain ⟨⟨m, q⟩, hrecv, rfl⟩ := Option.map_eq_some_iff.mp hstep
  have hqueue := Mailbox.recv_eq hrecv
  refine h.congr rfl rfl fun pid' => ?_
  by_cases hpid : pid' = pid
  · subst hpid
    simp only [heard, Function.update_self]
    rw [hqueue, List.cons_append, List.foldl_cons]
  · exact heard_congr (by simp only [Function.update_of_ne hpid])
      (by simp only [Function.update_of_ne hpid])

/-- Messages of other processes say nothing about sizes. -/
theorem Agrees.other (h : d.Agrees) (hstep : d.apply screen (.other pid m) = some d') :
    d'.Agrees := by
  rw [apply] at hstep
  split_ifs at hstep with hm
  obtain rfl := Option.some_inj.mp hstep
  refine h.congr rfl rfl fun pid' => ?_
  by_cases hpid : pid' = pid
  · subst hpid
    simp only [heard, Function.update_self, Mailbox.send]
    split_ifs
    · rfl
    · rw [List.append_assoc, List.singleton_append, foldl_learn_skip hm]
  · exact heard_congr (by simp only [Function.update_of_ne hpid]) rfl

/-- A message that is sent will be heard, if it says something and there is room for it. -/
theorem Agrees.send (h : d.Agrees) (hsafe : Event.send.Safe d)
    (hstep : d.apply screen .send = some d') : d'.Agrees := by
  rw [apply] at hstep
  rw [Event.Safe] at hsafe
  cases hout : d.outbox with
  | nil =>
    rw [hout] at hstep
    exact absurd hstep.symm (Option.some_ne_none _)
  | cons q outbox =>
    rw [hout] at hstep hsafe
    obtain rfl := Option.some_inj.mp hstep
    have hroom := hsafe q rfl
    refine h.congr rfl rfl fun pid => ?_
    by_cases hpid : q.pid = pid
    · subst hpid
      simp only [heard, Function.update_self, hout, messagesTo_cons_self, Mailbox.send]
      by_cases hfull : msgQueueSize ≤ (d.queue q.pid).length
      · have hm : NoSize q.message := by
          by_contra hm
          exact absurd (hroom hm) (not_lt.mpr hfull)
        rw [if_pos hfull, foldl_learn_skip hm]
      · rw [if_neg hfull, List.append_assoc, List.singleton_append]
    · refine heard_congr ?_ rfl
      simp only [Function.update_of_ne (Ne.symm hpid), hout]
      rw [messagesTo_cons_of_ne hpid]

/-- What a client hears after an event of the window manager. -/
theorem heard_handle {wm : Wm} {posts : List Post} {asked : List ℤ} (hout : d.outbox = [])
    (pid : ℤ) : heard { d with wm := wm, outbox := posts, asked := asked } pid =
      (messagesTo pid posts).foldl learn (d.heard pid) := by
  have hnone : messagesTo pid ([] : List Post) = [] := rfl
  simp only [heard]
  rw [hout, hnone, List.append_nil, List.foldl_append]

/-- A client that knew the old size of its window knows the new one after a layout. -/
theorem foldl_learn_resize {win : Window} {r : Rect} (hsize : r.SizeInt32) :
    ((win.resizePosts r).map Post.message).foldl learn (some (win.width, win.height)) =
      some (r.w, r.h) := by
  rw [Window.resizePosts]
  split_ifs with hne
  · obtain ⟨⟨hwlow, hwhigh⟩, hhlow, hhhigh⟩ := hsize
    rw [List.map_singleton, List.foldl_cons, List.foldl_nil]
    simp only [learn, Post.message, if_true, toInt32_toU64 hwlow hwhigh, toInt32_toU64 hhlow hhhigh]
  · rw [not_or, not_not, not_not] at hne
    rw [hne.1, hne.2]
    rfl

/-- A client without a window does not listen to sizes. -/
theorem foldl_learn_resize_none {win : Window} {r : Rect} :
    ((win.resizePosts r).map Post.message).foldl learn none = none := by
  rw [Window.resizePosts]
  split_ifs
  · rfl
  · rfl

section Handle

variable {s₁ s₂ : Wm} {b : BinTree} {slot : ℕ} {wm : Wm} {asked : List ℤ}

/-- After a layout the client of a window knows the new size, if it knew the old one. -/
theorem foldl_learn_layout (htree : s₁.WindowTree (some b)) (hdistinct : s₁.Distinct)
    (hlaid : s₁.LaidOut s₂ b screen.rect) (hslot : slot < maxWindows)
    (halive : (s₁.windows slot).alive = true) :
    (messagesTo (s₁.windows slot).pid ((tileRects s₁.dirs b screen.rect).flatMap
        s₁.leafPosts)).foldl learn (some ((s₁.windows slot).width, (s₁.windows slot).height)) =
      some ((s₂.windows slot).width, (s₂.windows slot).height) := by
  obtain ⟨hposts, q, hq, hrect⟩ := s₁.messagesTo_layout htree hdistinct hlaid hslot halive
  rw [hposts]
  refine foldl_learn_resize ?_
  rw [hrect]
  exact tileRects_sizeInt32 ⟨toInt32_bounds _, toInt32_bounds _⟩ q hq

/-- An event that sends nothing and leaves the windows as they are. -/
theorem Agrees.silent {tree : Option BinTree} (h : d.Agrees) (hout : d.outbox = [])
    (htree : wm.WindowTree tree) (hwindows : wm.windows = d.wm.windows) (hasked : d.asked ⊆ asked) :
    Agrees { d with wm := wm, outbox := [], asked := asked } where
  tree := ⟨tree, htree⟩
  distinct := by
    rw [Wm.Distinct, hwindows]
    exact h.distinct
  alive slot hslot halive := by
    simp only [hwindows] at halive ⊢
    rw [heard_handle hout]
    obtain ⟨hmem, hheard⟩ := h.alive slot hslot halive
    exact ⟨hasked hmem, hheard⟩
  fresh pid hpid := by
    rw [heard_handle hout]
    exact h.fresh pid fun hmem => hpid (hasked hmem)

/-- A new client hears the size of its window, and the others hear theirs. -/
theorem Agrees.handleNewClient {shared : ℕ × ℕ} {posts : List Post} (h : d.Agrees)
    (hout : d.outbox = []) (hpid : pid ∉ d.asked)
    (hhandle : d.wm.handleNewClient screen pid shared = some (wm, posts)) :
    Agrees { d with wm := wm, outbox := posts, asked := pid :: d.asked } := by
  obtain ⟨tree, htree⟩ := h.tree
  rcases htree.handleNewClient screen pid shared with heq |
    ⟨slot, s₁, s₂, b, hslot, hdead, htree₁, hwindows, -, hlaid, htree₂, heq⟩
  · obtain ⟨rfl, rfl⟩ := Prod.mk.inj (Option.some_inj.mp (heq.symm.trans hhandle))
    exact h.silent hout htree rfl (List.subset_cons_self _ _)
  obtain ⟨rfl, rfl⟩ := Prod.mk.inj (Option.some_inj.mp (heq.symm.trans hhandle))
  have hnew : s₁.windows slot = (d.wm.windows slot).setup slot pid shared := by
    rw [hwindows, Function.update_self]
  have hold : ∀ slot', slot' ≠ slot → s₁.windows slot' = d.wm.windows slot' := fun slot' hne => by
    rw [hwindows, Function.update_of_ne hne]
  -- the other windows belong to clients that have asked before
  have hother : ∀ slot' < maxWindows, slot' ≠ slot → (s₁.windows slot').alive = true →
      (s₁.windows slot').pid ∈ d.asked := fun slot' hslot' hne halive => by
    rw [hold slot' hne] at halive ⊢
    exact (h.alive slot' hslot' halive).1
  have hnewPid : (s₁.windows slot).pid = pid := by
    rw [hnew]
    rfl
  have hdistinct : s₁.Distinct := by
    intro a ha c hc halive halive' hsame
    by_cases hac : a = slot
    · by_contra hne
      have hcs : c ≠ slot := fun heq => hne (hac.trans heq.symm)
      refine hpid (hnewPid ▸ hac ▸ hsame ▸ hother c hc hcs halive')
    · by_cases hcs : c = slot
      · exact absurd (hnewPid ▸ hcs ▸ hsame ▸ hother a ha hac halive) hpid
      · rw [hold a hac] at halive hsame
        rw [hold c hcs] at halive' hsame
        exact h.distinct a ha c hc halive halive' hsame
  have hcreated : ∀ pid', pid ≠ pid' → ∀ q : Post, q.pid = pid → messagesTo pid' [q] = [] :=
    fun pid' hne q hq => messagesTo_cons_of_ne fun heq => hne (hq.symm.trans heq)
  refine ⟨⟨_, htree₂⟩, hdistinct.moved hlaid.moved, fun slot' hslot' halive => ?_,
    fun pid' hpid' => ?_⟩
  · rw [hlaid.moved.alive] at halive
    rw [heard_handle hout, hlaid.moved.pid, messagesTo_append, List.foldl_append]
    by_cases hne : slot' = slot
    · subst hne
      obtain ⟨hposts, q, hq, hrect⟩ :=
        s₁.messagesTo_layout htree₁ hdistinct hlaid hslot' halive
      obtain ⟨⟨hwlow, hwhigh⟩, hhlow, hhhigh⟩ : (s₂.windows slot').rect.SizeInt32 := by
        rw [hrect]
        exact tileRects_sizeInt32 ⟨toInt32_bounds _, toInt32_bounds _⟩ q hq
      refine ⟨hnewPid ▸ List.mem_cons_self, ?_⟩
      have hlast : messagesTo pid [⟨pid, msgWindowCreated, toU64 (s₂.windows slot').width,
          toU64 (s₂.windows slot').height, (s₂.windows slot').bufferClientPtr⟩] =
          [⟨1, msgWindowCreated, toU64 (s₂.windows slot').width,
            toU64 (s₂.windows slot').height, (s₂.windows slot').bufferClientPtr⟩] :=
        messagesTo_cons_self rfl
      rw [hnewPid] at hposts ⊢
      rw [hposts, h.fresh pid hpid, foldl_learn_resize_none, hlast]
      exact congrArg some (Prod.ext (toInt32_toU64 hwlow hwhigh) (toInt32_toU64 hhlow hhhigh))
    · have hmem := hother slot' hslot' hne halive
      refine ⟨List.mem_cons_of_mem _ hmem, ?_⟩
      rw [hcreated _ (fun heq => hpid (heq ▸ hmem)) _ rfl, List.foldl_nil]
      have hheard : d.heard (s₁.windows slot').pid =
          some ((s₁.windows slot').width, (s₁.windows slot').height) := by
        rw [hold slot' hne] at halive ⊢
        exact (h.alive slot' hslot' halive).2
      rw [hheard]
      exact foldl_learn_layout htree₁ hdistinct hlaid hslot' halive
  · obtain ⟨hne, hpid'⟩ := not_or.mp fun hmem => hpid' (List.mem_cons.mpr hmem)
    rw [heard_handle hout, messagesTo_append, hcreated _ (Ne.symm hne) _ rfl, List.append_nil,
      s₁.messagesTo_layout_none htree₁, h.fresh pid' hpid', List.foldl_nil]
    intro slot' hslot' halive heq
    by_cases hslotNe : slot' = slot
    · exact hne (heq.symm.trans (hslotNe ▸ hnewPid))
    · exact hpid' (heq ▸ hother slot' hslot' hslotNe halive)

/-- When a window is killed, the other clients hear their sizes. -/
theorem Agrees.killFocused {posts : List Post} (h : d.Agrees) (hout : d.outbox = [])
    (hhandle : d.wm.killFocused screen = some (wm, posts)) :
    Agrees { d with wm := wm, outbox := posts } := by
  obtain ⟨tree, htree⟩ := h.tree
  rcases htree.killFocused screen with ⟨-, heq⟩ |
    ⟨slot, s₁, s₂, tree', layout, hslot, hkilled, htree₁, hwindows, hcases, htree₂, heq⟩
  · obtain ⟨rfl, rfl⟩ := Prod.mk.inj (Option.some_inj.mp (heq.symm.trans hhandle))
    exact h.silent hout htree rfl (List.Subset.refl _)
  obtain ⟨rfl, rfl⟩ := Prod.mk.inj (Option.some_inj.mp (heq.symm.trans hhandle))
  have hold : ∀ slot', (s₁.windows slot').alive = true →
      slot' ≠ slot ∧ s₁.windows slot' = d.wm.windows slot' := fun slot' halive => by
    by_cases hne : slot' = slot
    · rw [hwindows, hne, Function.update_self] at halive
      exact absurd halive Bool.false_ne_true
    · exact ⟨hne, by rw [hwindows, Function.update_of_ne hne]⟩
  have hdistinct : s₁.Distinct := by
    intro a ha c hc halive halive' hsame
    have ha' := (hold a halive).2
    have hc' := (hold c halive').2
    rw [ha'] at halive hsame
    rw [hc'] at halive' hsame
    exact h.distinct a ha c hc halive halive' hsame
  -- the client of the killed window is told to quit
  have hquit : ∀ pid size, (messagesTo pid (⟨(d.wm.windows slot).pid, msgQuitRequest, 0, 0, 0⟩ ::
      layout)).foldl learn size = (messagesTo pid layout).foldl learn size := by
    intro pid size
    by_cases hpid : (d.wm.windows slot).pid = pid
    · have hnone : NoSize ⟨1, msgQuitRequest, 0, 0, 0⟩ := by decide
      rw [messagesTo_cons_self hpid, List.foldl_cons]
      exact congrArg (fun size => List.foldl learn size _) (learn_noSize hnone size)
    · rw [messagesTo_cons_of_ne hpid]
  have hheard : ∀ slot' < maxWindows, (s₁.windows slot').alive = true →
      (s₁.windows slot').pid ∈ d.asked ∧ d.heard (s₁.windows slot').pid =
        some ((s₁.windows slot').width, (s₁.windows slot').height) := fun slot' hslot' halive => by
    have hsame := (hold slot' halive).2
    rw [hsame] at halive ⊢
    exact h.alive slot' hslot' halive
  rcases hcases with ⟨-, rfl, rfl⟩ | ⟨b, rfl, hlaid, rfl⟩
  · refine ⟨⟨_, htree₂⟩, hdistinct, fun slot' hslot' halive => ?_, fun pid hpid => ?_⟩
    · rw [heard_handle hout, hquit]
      exact hheard slot' hslot' halive
    · rw [heard_handle hout, hquit]
      exact h.fresh pid hpid
  · refine ⟨⟨_, htree₂⟩, hdistinct.moved hlaid.moved, fun slot' hslot' halive => ?_,
      fun pid hpid => ?_⟩
    · rw [hlaid.moved.alive] at halive
      obtain ⟨hmem, hknown⟩ := hheard slot' hslot' halive
      rw [heard_handle hout, hlaid.moved.pid, hquit, hknown]
      exact ⟨hmem, foldl_learn_layout htree₁ hdistinct hlaid hslot' halive⟩
    · rw [heard_handle hout, hquit, s₁.messagesTo_layout_none htree₁, h.fresh pid hpid,
        List.foldl_nil]
      exact fun slot' hslot' halive heq => hpid (heq ▸ (hheard slot' hslot' halive).1)

end Handle

/-- One event of the window manager. -/
theorem Agrees.handle {e : Wm.Event} (h : d.Agrees)
    (hstep : d.apply screen (.handle e) = some d') : d'.Agrees := by
  rw [apply] at hstep
  cases hout : d.outbox with
  | cons q outbox =>
    rw [hout] at hstep
    exact absurd hstep.symm (Option.some_ne_none _)
  | nil =>
    rw [hout] at hstep
    obtain ⟨asked, hask, hstep⟩ := Option.bind_eq_some_iff.mp hstep
    obtain ⟨⟨wm, posts⟩, hhandle, hstep⟩ := Option.bind_eq_some_iff.mp hstep
    obtain rfl := Option.some_inj.mp hstep
    obtain ⟨tree, htree⟩ := h.tree
    cases e with
    | newClient pid shared =>
      rw [ask] at hask
      split_ifs at hask with hpid
      obtain rfl := Option.some_inj.mp hask
      exact h.handleNewClient hout hpid hhandle
    | kill =>
      obtain rfl := Option.some_inj.mp hask
      exact h.killFocused hout hhandle
    | focusNext =>
      obtain rfl := Option.some_inj.mp hask
      obtain ⟨s', heq, htree', hrest⟩ := htree.focusNext
      rw [Wm.handle, heq] at hhandle
      obtain ⟨rfl, rfl⟩ := Prod.mk.inj (Option.some_inj.mp hhandle)
      exact h.silent hout htree' (by rw [hrest]) (List.Subset.refl _)
    | splitMode mode =>
      obtain rfl := Option.some_inj.mp hask
      obtain ⟨s', posts', tree', heq, htree'⟩ := htree.handle screen (.splitMode mode)
      obtain ⟨rfl, rfl⟩ := Prod.mk.inj (Option.some_inj.mp (heq.symm.trans hhandle))
      obtain ⟨rfl, rfl⟩ := Prod.mk.inj (Option.some_inj.mp hhandle)
      exact h.silent hout htree' rfl (List.Subset.refl _)

/-- One step keeps what clients will know. -/
theorem Agrees.step {e : Event} (h : d.Agrees) (hsafe : e.Safe d) (hstep : Step screen d e d') :
    d'.Agrees := by
  cases e with
  | handle e => exact h.handle hstep
  | send => exact h.send hsafe hstep
  | recv pid => exact h.recv hstep
  | other pid m => exact h.other hstep

theorem start_agrees : start.Agrees where
  tree := ⟨none, Wm.windowTree_start⟩
  distinct _ _ _ _ halive := absurd halive Bool.false_ne_true
  alive _ _ halive := absurd halive Bool.false_ne_true
  fresh _ _ := rfl

/-- In a run in which every size that is sent finds room in the queue of its client, a client whose
window is alive and that has received everything knows the size of its window. -/
theorem size_agrees {trace : List (Transition Desktop Event)}
    (run : Reaches (Traced (Step screen)) start trace d)
    (hsafe : ∀ u ∈ trace, u.label.Safe u.before) {slot : ℕ} (hslot : slot < maxWindows)
    (halive : (d.wm.windows slot).alive = true) (hidle : d.outbox = [])
    (hdrained : d.queue (d.wm.windows slot).pid = []) :
    d.size (d.wm.windows slot).pid =
      some ((d.wm.windows slot).width, (d.wm.windows slot).height) := by
  have hagrees : d.Agrees := by
    clear hslot halive hidle hdrained
    induction run with
    | start => exact start_agrees
    | snoc _ hlast ih =>
      obtain ⟨hbefore, hlabel⟩ := List.forall_mem_cons.mp hsafe |>.symm
      obtain ⟨hsame, -, hstep⟩ := hlast
      exact (ih hbefore).step (hsame ▸ hlabel) hstep
  have hknown := (hagrees.alive slot hslot halive).2
  rw [heard, hidle, hdrained] at hknown
  exact hknown

/-- Events as a run, from the last to the first. -/
def replay (screen : Screen) : List Event → Option Desktop
  | [] => some start
  | e :: history => (replay screen history).bind fun d => d.apply screen e

instance (e : Event) (d : Desktop) : Decidable (e.Safe d) := by
  cases e with
  | send =>
    exact inferInstanceAs (Decidable (∀ q ∈ d.outbox.head?, ¬NoSize q.message →
      (d.queue q.pid).length < msgQueueSize))
  | _ => exact inferInstanceAs (Decidable True)

/-- Every size that is sent in a run finds room. -/
def safe (screen : Screen) : List Event → Bool
  | [] => true
  | e :: history => safe screen history && (replay screen history).all fun d => decide (e.Safe d)

theorem reaches_replay {history : List Event} (h : replay screen history = some d) :
    ∃ trace, Reaches (Traced (Step screen)) start trace d ∧
      (safe screen history = true → ∀ u ∈ trace, u.label.Safe u.before) := by
  induction history generalizing d with
  | nil =>
    obtain rfl := Option.some_inj.mp h
    exact ⟨[], .start, fun _ u hu => absurd hu List.not_mem_nil⟩
  | cons e history ih =>
    obtain ⟨d₁, hreplay, hlast⟩ := Option.bind_eq_some_iff.mp h
    obtain ⟨trace, run, hsafe⟩ := ih hreplay
    refine ⟨⟨d₁, e, d⟩ :: trace, run.snoc ⟨rfl, rfl, hlast⟩, fun hall => ?_⟩
    rw [safe, hreplay, Option.all_some, Bool.and_eq_true] at hall
    exact List.forall_mem_cons.mpr ⟨of_decide_eq_true hall.2, hsafe hall.1⟩

/-- A client gets its window and receives its messages. -/
def firstWindow : List Event :=
  [.recv 7, .recv 7, .send, .send, .handle (.newClient 7 (0x10000, 0x800000000))]

/-- A second client gets half of the screen, and both receive their messages. -/
def bothWindows : List Event :=
  [.recv 8, .recv 8, .recv 7, .send, .send, .send,
    .handle (.newClient 8 (0x20000, 0x800000000))] ++ firstWindow

/-- The first client knows the size that its window has been given since. -/
theorem size_agrees_bothWindows : ∃ trace d, Reaches (Traced (Step ⟨640, 480⟩)) start trace d ∧
    (d.wm.windows 0).pid = 7 ∧ (d.wm.windows 0).width = 320 ∧
    d.size 7 = some (320, (d.wm.windows 0).height) := by
  have hsome : ((replay ⟨640, 480⟩ bothWindows).map fun d => ((d.wm.windows 0).alive,
      d.outbox.length, (d.queue 7).length, (d.wm.windows 0).pid, (d.wm.windows 0).width)) =
        some (true, 0, 0, 7, 320) := by
    decide +kernel
  have hall : safe ⟨640, 480⟩ bothWindows = true := by decide +kernel
  obtain ⟨d, hreplay, hd⟩ := Option.map_eq_some_iff.mp hsome
  simp only [Prod.mk.injEq, List.length_eq_zero_iff] at hd
  obtain ⟨halive, hidle, hdrained, hpid, hwidth⟩ := hd
  obtain ⟨trace, run, hsafe⟩ := reaches_replay hreplay
  have hsize := size_agrees run (hsafe hall) (by decide : 0 < maxWindows) halive hidle
    (hpid.symm ▸ hdrained)
  rw [hpid, hwidth] at hsize
  exact ⟨trace, d, run, hpid, hwidth, hsize⟩

/-- The queue of the first client is filled with other messages, and a second one gets a window. The
new size of the first window is refused. -/
def secondWindow : List Event :=
  List.replicate 16 (.recv 7) ++
    [.send, .send, .send, .handle (.newClient 8 (0x20000, 0x800000000))] ++
    List.replicate 16 (.other 7 ⟨1, 500, 0, 0, 0⟩) ++ firstWindow

theorem size_refused : ∃ trace d, Reaches (Traced (Step ⟨640, 480⟩)) start trace d ∧
    (d.wm.windows 0).alive = true ∧ d.outbox = [] ∧ (d.wm.windows 0).pid = 7 ∧ d.queue 7 = [] ∧
    (d.wm.windows 0).width = 320 ∧ d.size 7 = some (640, 480) := by
  have hsome : ((replay ⟨640, 480⟩ secondWindow).any fun d => decide
      ((d.wm.windows 0).alive = true ∧ d.outbox.length = 0 ∧ (d.wm.windows 0).pid = 7 ∧
        (d.queue 7).length = 0 ∧ (d.wm.windows 0).width = 320 ∧
        d.size 7 = some (640, 480))) = true := by decide +kernel
  obtain ⟨d, hreplay, hd⟩ := (Option.any_eq_true _ _).mp hsome
  obtain ⟨halive, hidle, hpid, hdrained, hsize⟩ := of_decide_eq_true hd
  obtain ⟨trace, run, -⟩ := reaches_replay hreplay
  exact ⟨trace, d, run, halive, List.length_eq_zero_iff.mp hidle, hpid,
    List.length_eq_zero_iff.mp hdrained, hsize⟩

end Desktop

end OpenIDP.Userspace
