import OpenIDP.Math.Word
import OpenIDP.Userspace.Mailbox

/-!
# The window manager

`src/userspace/idpwm.c` keeps the windows in a binary tree whose nodes come from a pool: a new
window splits the focused one, and when a window is killed its sibling takes the place of both.
The screen is divided among the leaves. Pointers to nodes are indices into the pool.

Messages are collected in the order in which they are sent; their results are not looked at.
Recursive functions have no result when they do not end.

## Main definitions

* `TreeNode`, `Window`, `Wm` — the data
* `Wm.treeAlloc`, `Wm.treeFree` — the pool
* `Wm.insertWindowIntoTree`, `Wm.deleteNode` — the tree
* `Wm.updateLayout` — the sizes of the windows
* `Wm.handleNewClient`, `Wm.killFocused`, `Wm.focusNext` — what happens to windows
-/

namespace OpenIDP.Userspace

open OpenIDP.Math OpenIDP.Process

/-- `MAX_WINDOWS` -/
def maxWindows : ℕ := 16

/-- The number of nodes in the pool. -/
def maxNodes : ℕ := maxWindows * 2

/-- `MSG_WINDOW_CREATED` -/
def msgWindowCreated : ℤ := 200

/-- `MSG_WINDOW_RESIZE` -/
def msgWindowResize : ℤ := 201

/-- `MSG_QUIT_REQUEST` -/
def msgQuitRequest : ℤ := 0xDEAD

/-- `split_dir_t` -/
inductive SplitDir
  | splitH
  | splitV
  deriving DecidableEq

/-- What `parent` points to: nothing, a node, or the address that marks a free node. -/
inductive NodePtr
  | null
  | node (index : ℕ)
  | deadDead
  deriving DecidableEq

/-- Following a pointer: nothing for `NULL`, and no result for the mark of a free node. -/
def NodePtr.follow : NodePtr → Option (Option ℕ)
  | .null => some none
  | .node index => some (some index)
  | .deadDead => none

/-- `tree_node_t` -/
structure TreeNode where
  parent : NodePtr
  left : Option ℕ
  right : Option ℕ
  isLeaf : Bool
  splitDir : SplitDir
  win : Option ℕ
  x : ℤ
  y : ℤ
  w : ℤ
  h : ℤ

/-- `memset(node, 0, sizeof(tree_node_t))` -/
def TreeNode.zero : TreeNode := ⟨.null, none, none, false, .splitH, none, 0, 0, 0, 0⟩

/-- `window_t` -/
structure Window where
  id : ℤ
  pid : ℤ
  alive : Bool
  x : ℤ
  y : ℤ
  width : ℤ
  height : ℤ
  bufferWmPtr : ℕ
  bufferClientPtr : ℕ

/-- What `wm_handle_new_client` writes into a window. -/
def Window.setup (win : Window) (slot : ℕ) (pid : ℤ) (shared : ℕ × ℕ) : Window :=
  { win with
    id := slot
    pid := pid
    alive := true
    bufferWmPtr := shared.1
    bufferClientPtr := shared.2 }

/-- A window that was never used. -/
def Window.zero : Window := ⟨0, 0, false, 0, 0, 0, 0, 0, 0⟩

/-- What must not happen to the tree: `tree_free` finds its stack full or the node free,
`tree_alloc` finds no node, or `collect_leaves` writes past the array. -/
inductive TreeFault
  | overflow
  | doubleFree
  | noNode
  | leavesOverflow
  deriving DecidableEq

/-- The static variables. `freeStackSize` is one more than `free_stack_top`. What has gone wrong
so far is recorded in `faults`. -/
structure Wm where
  windows : ℕ → Window
  nodes : ℕ → TreeNode
  nodePoolIdx : ℕ
  freeStack : ℕ → ℕ
  freeStackSize : ℕ
  root : Option ℕ
  focusedNode : Option ℕ
  nextSplitMode : SplitDir
  faults : List TreeFault

/-- What is known of the framebuffer when windows are laid out. -/
structure Screen where
  fbWidth : ℕ
  fbHeight : ℕ

/-- A message to a process: its pid, the type and the data. -/
structure Post where
  pid : ℤ
  type : ℤ
  data1 : ℕ
  data2 : ℕ
  data3 : ℕ

namespace Wm

/-- The window manager at its start. -/
def start : Wm where
  windows _ := Window.zero
  nodes _ := TreeNode.zero
  nodePoolIdx := 0
  freeStack _ := 0
  freeStackSize := 0
  root := none
  focusedNode := none
  nextSplitMode := .splitV
  faults := []

variable (s : Wm)

/-- Writes a node. -/
def setNode (index : ℕ) (n : TreeNode) : Wm := { s with nodes := Function.update s.nodes index n }

/-- Writes a window. -/
def setWindow (slot : ℕ) (win : Window) : Wm :=
  { s with windows := Function.update s.windows slot win }

/-- `tree_free` -/
def treeFree (index : ℕ) : Wm :=
  if maxNodes ≤ index then s
  else
    let full := if maxNodes ≤ s.freeStackSize then [TreeFault.overflow] else []
    let again := if (s.nodes index).parent = .deadDead then [TreeFault.doubleFree] else []
    { s.setNode index { s.nodes index with parent := .deadDead } with
      freeStack := Function.update s.freeStack s.freeStackSize index
      freeStackSize := s.freeStackSize + 1
      faults := s.faults ++ full ++ again }

/-- `tree_alloc` -/
def treeAlloc : Option ℕ × Wm :=
  if 0 < s.freeStackSize then
    let index := s.freeStack (s.freeStackSize - 1)
    (some index, { s.setNode index TreeNode.zero with freeStackSize := s.freeStackSize - 1 })
  else if s.nodePoolIdx < maxNodes then
    (some s.nodePoolIdx,
      { s.setNode s.nodePoolIdx TreeNode.zero with nodePoolIdx := s.nodePoolIdx + 1 })
  else
    (none, { s with faults := s.faults ++ [.noNode] })

/-- `get_sibling` -/
def getSibling (index : ℕ) : Option ℕ :=
  match (s.nodes index).parent with
  | .node parent =>
    if (s.nodes parent).left = some index then (s.nodes parent).right else (s.nodes parent).left
  | _ => none

/-- `while (!node->is_leaf) node = node->left` -/
def leftmostLeaf : ℕ → ℕ → Option ℕ
  | 0, _ => none
  | fuel + 1, index =>
    if (s.nodes index).isLeaf then some index
    else (s.nodes index).left.bind (leftmostLeaf fuel)

/-- Replaces a child of the node that `parent` points to, or else the root. -/
def replaceChild (parent : Option ℕ) (old new : ℕ) : Wm :=
  match parent with
  | some p =>
    if (s.nodes p).left = some old then s.setNode p { s.nodes p with left := some new }
    else s.setNode p { s.nodes p with right := some new }
  | none => { s with root := some new }

/-- The part of `wm_insert_window_into_tree` that puts the container in the place of the target,
and the target and the new leaf below it. -/
def splitLeaf (target container newLeaf : ℕ) : Option Wm := do
  let parent ← (s.nodes target).parent.follow
  let s₁ := s.setNode container
    { s.nodes container with
      isLeaf := false
      splitDir := s.nextSplitMode
      parent := (s.nodes target).parent }
  let s₂ := s₁.replaceChild parent target container
  let s₃ := s₂.setNode container { s₂.nodes container with left := some target }
  let s₄ := s₃.setNode target { s₃.nodes target with parent := .node container }
  let s₅ := s₄.setNode container { s₄.nodes container with right := some newLeaf }
  some (s₅.setNode newLeaf { s₅.nodes newLeaf with parent := .node container })

/-- `wm_insert_window_into_tree` -/
def insertWindowIntoTree (win : ℕ) : Option Wm :=
  match s.treeAlloc with
  | (none, s₁) => some s₁
  | (some newLeaf, s₁) =>
    let s₂ := s₁.setNode newLeaf
      { s₁.nodes newLeaf with isLeaf := true, win := some win, parent := .null }
    match s₂.root with
    | none => some { s₂ with root := some newLeaf, focusedNode := some newLeaf }
    | some root => do
      let target ← s₂.leftmostLeaf (maxNodes + 1) (s₂.focusedNode.getD root)
      match s₂.treeAlloc with
      | (none, s₃) => some s₃
      | (some container, s₃) => do
        let s₄ ← s₃.splitLeaf target container newLeaf
        some { s₄ with focusedNode := some newLeaf }

/-- The part of `wm_delete_node` that unmaps the buffer of the window. -/
def dropBuffer (index : ℕ) : Wm :=
  match (s.nodes index).isLeaf, (s.nodes index).win with
  | true, some w =>
    if (s.windows w).bufferWmPtr ≠ 0 then s.setWindow w { s.windows w with bufferWmPtr := 0 }
    else s
  | _, _ => s

/-- The part of `wm_delete_node` that puts the sibling in the place of the parent. -/
def promote (parent : ℕ) (sibling : Option ℕ) : Option Wm := do
  let grandparent ← (s.nodes parent).parent.follow
  match sibling with
  | some sib =>
    some ((s.setNode sib { s.nodes sib with parent := (s.nodes parent).parent }).replaceChild
      grandparent parent sib)
  | none => some s

/-- The part of `wm_delete_node` that moves the focus to the sibling. -/
def refocus (index : ℕ) (sibling : Option ℕ) : Option Wm :=
  if s.focusedNode = some index then
    match sibling with
    | some sib => do
      let candidate ← s.leftmostLeaf (maxNodes + 1) sib
      some { s with focusedNode := some candidate }
    | none => some { s with focusedNode := none }
  else
    some s

/-- `wm_delete_node` -/
def deleteNode (index : ℕ) : Option Wm := do
  let s₁ := s.dropBuffer index
  let parent ← (s₁.nodes index).parent.follow
  match parent with
  | none =>
    let s₂ := if s₁.root = some index then { s₁ with root := none } else s₁
    some ({ s₂ with focusedNode := none }.treeFree index)
  | some parent => do
    let sibling := s₁.getSibling index
    let s₂ ← s₁.promote parent sibling
    let s₃ ← s₂.refocus index sibling
    some ((s₃.treeFree index).treeFree parent)

/-- `layout_recursive`, with the messages it sends. -/
def layoutRecursive : ℕ → Option ℕ → ℤ → ℤ → ℤ → ℤ → Wm → Option (Wm × List Post)
  | 0, _, _, _, _, _, _ => none
  | _, none, _, _, _, _, s => some (s, [])
  | fuel + 1, some index, x, y, w, h, s =>
    let s₁ := s.setNode index { s.nodes index with x := x, y := y, w := w, h := h }
    let node := s₁.nodes index
    if node.isLeaf then
      match node.win with
      | none => some (s₁, [])
      | some slot =>
        let win := s₁.windows slot
        let s₂ := s₁.setWindow slot { win with x := x, y := y, width := w, height := h }
        if win.width ≠ w ∨ win.height ≠ h then
          some (s₂, [⟨win.pid, msgWindowResize, toU64 w, toU64 h, 0⟩])
        else
          some (s₂, [])
    else do
      let halfW := if node.splitDir = .splitV then w.tdiv 2 else w
      let halfH := if node.splitDir = .splitH then h.tdiv 2 else h
      let nextX := if node.splitDir = .splitV then x + halfW else x
      let nextY := if node.splitDir = .splitH then y + halfH else y
      let remW := if node.splitDir = .splitV then w - halfW else w
      let remH := if node.splitDir = .splitH then h - halfH else h
      let (s₂, posts) ← layoutRecursive fuel node.left x y halfW halfH s₁
      let (s₃, posts') ← layoutRecursive fuel (s₂.nodes index).right nextX nextY remW remH s₂
      some (s₃, posts ++ posts')

/-- `wm_update_layout` -/
def updateLayout (screen : Screen) : Option (Wm × List Post) :=
  match s.root with
  | none => some (s, [])
  | some root =>
    layoutRecursive (maxNodes + 1) (some root) 0 0 (toInt32 screen.fbWidth)
      (toInt32 screen.fbHeight) s

/-- `collect_leaves` -/
def collectLeaves : ℕ → Option ℕ → Option (List ℕ)
  | 0, _ => none
  | _, none => some []
  | fuel + 1, some index =>
    if (s.nodes index).isLeaf then some [index]
    else do
      let left ← collectLeaves fuel (s.nodes index).left
      let right ← collectLeaves fuel (s.nodes index).right
      some (left ++ right)

/-- The index after that of the focused leaf. -/
def nextIndex (leaves : List ℕ) : ℕ :=
  match leaves.findIdx? fun leaf => s.focusedNode = some leaf with
  | some i => i + 1
  | none => 0

/-- `wm_focus_next` -/
def focusNext : Option Wm :=
  match s.root with
  | none => some s
  | some root => do
    let leaves ← s.collectLeaves (maxNodes + 1) (some root)
    let full := if maxWindows < leaves.length then [TreeFault.leavesOverflow] else []
    if leaves.length = 0 then
      some s
    else
      some { s with
        focusedNode := leaves[s.nextIndex leaves % leaves.length]?
        faults := s.faults ++ full }

/-- The search for a window that is not alive. -/
def freeSlot : Option ℕ := (List.range maxWindows).find? fun i => !(s.windows i).alive

/-- `wm_handle_new_client`, up to the layout. `shared` is what `sys_share_mem` gives: the address
for the window manager and that for the client. -/
def addClient (pid : ℤ) (shared : ℕ × ℕ) : Option (Option ℕ × Wm) :=
  match s.freeSlot with
  | none => some (none, s)
  | some slot =>
    if shared.1 = 0 then some (none, s)
    else
      ((s.setWindow slot ((s.windows slot).setup slot pid shared)).insertWindowIntoTree slot).map
        fun s₁ => (some slot, s₁)

/-- `wm_handle_new_client`, with the messages it sends. -/
def handleNewClient (screen : Screen) (pid : ℤ) (shared : ℕ × ℕ) : Option (Wm × List Post) := do
  let (slot, s₁) ← s.addClient pid shared
  match slot with
  | none => some (s₁, [])
  | some slot => do
    let (s₂, posts) ← s₁.updateLayout screen
    let win := s₂.windows slot
    some (s₂, posts ++
      [⟨pid, msgWindowCreated, toU64 win.width, toU64 win.height, win.bufferClientPtr⟩])

/-- The part of `wm_kill_focused` that takes the window out of the tree: the pid that is told to
quit, and the state. -/
def removeFocused : Option (Option ℤ × Wm) :=
  match s.focusedNode with
  | none => some (none, s)
  | some node =>
    match (s.nodes node).win with
    | none => some (none, s)
    | some slot =>
      let s₁ := s.setWindow slot { s.windows slot with alive := false }
      (s₁.deleteNode node).map fun s₂ => (some (s.windows slot).pid, s₂)

/-- `wm_kill_focused`, with the messages it sends. -/
def killFocused (screen : Screen) : Option (Wm × List Post) := do
  let (pid, s₁) ← s.removeFocused
  match pid with
  | none => some (s₁, [])
  | some pid => do
    let (s₂, posts) ← s₁.updateLayout screen
    some (s₂, ⟨pid, msgQuitRequest, 0, 0, 0⟩ :: posts)

/-- What happens to the windows: a client asks for one, and an Alt combination is pressed. -/
inductive Event
  | newClient (pid : ℤ) (shared : ℕ × ℕ)
  | kill
  | focusNext
  | splitMode (mode : SplitDir)

/-- The window manager handles an event. -/
def handle (screen : Screen) : Event → Option (Wm × List Post)
  | .newClient pid shared => s.handleNewClient screen pid shared
  | .kill => s.killFocused screen
  | .focusNext => s.focusNext.map (·, [])
  | .splitMode mode => some ({ s with nextSplitMode := mode }, [])

end Wm

end OpenIDP.Userspace
