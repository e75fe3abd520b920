import PWebServer.Globals
import PWebServer.Lib.Program
import PWebServer.Lib.RedBlack

/-!
# Base.RbTree

`rb_tree.c` on a heap of nodes with parent pointers.  The nodes are any type
`ν`; a pointer is `NULL`, the sentinel or a node.  The two rotations, and the
two halves of each loop, are mirror images and are written once, with the side
as a parameter.
-/

namespace PWebServer

open Program RedBlack

/-- `rbtree_node_t *` -/
inductive Ptr (ν : Type) where
  | null
  | sentinel
  | node (n : ν)
  deriving DecidableEq, Repr

namespace Ptr

variable {ν : Type} {n : ν}

theorem node_ne_null : node n ≠ null := nofun

theorem sentinel_ne_null : (sentinel : Ptr ν) ≠ null := nofun

theorem sentinel_ne_node : sentinel ≠ node n := nofun

theorem node_ne_sentinel : node n ≠ sentinel := nofun

end Ptr

/-- `rbtree_node_s`, zeroed. -/
structure RbNode (ν : Type) where
  key : BitVec 32 := 0
  parent : Ptr ν := .null
  left : Ptr ν := .null
  right : Ptr ν := .null
  color : Color := .black
  deriving DecidableEq, Repr

/-- The child on a side. -/
def RbNode.child (r : RbNode ν) : Dir → Ptr ν
  | .left => r.left
  | .right => r.right

/-- The node with another child on a side. -/
def RbNode.setChild (r : RbNode ν) (d : Dir) (p : Ptr ν) : RbNode ν :=
  match d with
  | .left => { r with left := p }
  | .right => { r with right := p }

/-- The node with another parent. -/
def RbNode.setParent (r : RbNode ν) (p : Ptr ν) : RbNode ν := { r with parent := p }

/-- The node in another color. -/
def RbNode.setColor (r : RbNode ν) (c : Color) : RbNode ν := { r with color := c }

/-- The node with another key. -/
def RbNode.setKey (r : RbNode ν) (k : BitVec 32) : RbNode ν := { r with key := k }

/-- `rbtree_s` with what its pointers point to. -/
structure RbTree (ν : Type) where
  root : Ptr ν := .sentinel
  heap : Ptr ν → RbNode ν

/-- A function of `rb_tree.c`. -/
abbrev RbM (ν : Type) := StateT (RbTree ν) (Except Fault)

variable {ν : Type} [DecidableEq ν]

/-! ## fields -/

/-- `*p` -/
def loadNode (p : Ptr ν) : RbM ν (RbNode ν) := fun t =>
  if p = .null then .error .null else .ok (t.heap p, t)

/-- An assignment to a field of `*p`. -/
def storeNode (p : Ptr ν) (f : RbNode ν → RbNode ν) : RbM ν Unit := fun t =>
  if p = .null then .error .null
  else .ok ((), { t with heap := Function.update t.heap p (f (t.heap p)) })

/-- `*root` -/
def getRoot : RbM ν (Ptr ν) := fun t => .ok (t.root, t)

/-- `*root = p` -/
def setRoot (p : Ptr ν) : RbM ν Unit := fun t => .ok ((), { t with root := p })

/-- `p->key` -/
def getKey (p : Ptr ν) : RbM ν (BitVec 32) := return (← loadNode p).key

/-- `p->parent` -/
def getParent (p : Ptr ν) : RbM ν (Ptr ν) := return (← loadNode p).parent

/-- `p->left` or `p->right` -/
def getChild (d : Dir) (p : Ptr ν) : RbM ν (Ptr ν) := return (← loadNode p).child d

/-- `rbt_is_red` -/
def isRed (p : Ptr ν) : RbM ν Bool := return (← loadNode p).color = .red

/-- `rbt_is_black` -/
def isBlack (p : Ptr ν) : RbM ν Bool := return (← loadNode p).color = .black

/-- `p->key = k` -/
def setKey (p : Ptr ν) (k : BitVec 32) : RbM ν Unit := storeNode p (·.setKey k)

/-- `p->parent = q` -/
def setParent (p q : Ptr ν) : RbM ν Unit := storeNode p (·.setParent q)

/-- `p->left = q` or `p->right = q` -/
def setChild (d : Dir) (p q : Ptr ν) : RbM ν Unit := storeNode p (·.setChild d q)

/-- `rbt_red` and `rbt_black` -/
def paint (p : Ptr ν) (c : Color) : RbM ν Unit := storeNode p (·.setColor c)

/-- `rbt_copy_color` -/
def copyColor (p q : Ptr ν) : RbM ν Unit := do
  let r ← loadNode q
  paint p r.color

/-! ## rotations -/

/-- `if (p != sentinel) p->parent = q` -/
def adopt (p q : Ptr ν) : RbM ν Unit := do
  if p ≠ .sentinel then
    setParent p q

/-- `temp` takes the place of `node` at the root or under the parent of `node`,
whose child on side `d` is looked at first. -/
def relink (d : Dir) (node temp : Ptr ν) : RbM ν Unit := do
  if node = (← getRoot) then
    setRoot temp
  else if node = (← getChild d (← getParent node)) then
    setChild d (← getParent node) temp
  else
    setChild d.flip (← getParent node) temp

/-- `rbtree_left_rotate` and `rbtree_right_rotate`: the child on the other side
of `d` takes the place of `node`. -/
def rotate (d : Dir) (node : Ptr ν) : RbM ν Unit := do
  let temp ← getChild d.flip node
  setChild d.flip node (← getChild d temp)
  adopt (← getChild d temp) node
  setParent temp (← getParent node)
  relink d node temp
  setChild d temp node
  setParent node temp

/-- `rbtree_left_rotate` -/
def rbtreeLeftRotate (node : Ptr ν) : RbM ν Unit := rotate .left node

/-- `rbtree_right_rotate` -/
def rbtreeRightRotate (node : Ptr ν) : RbM ν Unit := rotate .right node

/-! ## insertion -/

/-- The end of `rbtree_insert_timer_value`: `node` becomes a red leaf below
`temp`. -/
def hang (side : Dir) (temp node : Ptr ν) : RbM ν Unit := do
  setChild side temp node
  setParent node temp
  setChild .left node .sentinel
  setChild .right node .sentinel
  paint node .red

/-- `rbtree_insert_timer_value` -/
def rbtreeInsertTimerValue (fuel : Nat) (temp node : Ptr ν) : RbM ν Unit :=
  loop Fault.fuel (fun temp => do
    let side := if (← getKey node) < (← getKey temp) then Dir.left else Dir.right
    let p ← getChild side temp
    if p = .sentinel then
      hang side temp node
      pure (.inr ())
    else
      pure (.inl p)) fuel temp

/-- `node->parent->parent` -/
def grandFather (node : Ptr ν) : RbM ν (Ptr ν) := do getParent (← getParent node)

/-- The body of the loop of `rbtree_insert`, for a parent on side `d`. -/
def insertTurn (d : Dir) (node : Ptr ν) : RbM ν (Ptr ν) := do
  let temp ← getChild d.flip (← grandFather node)
  if ← isRed temp then
    paint (← getParent node) .black
    paint temp .black
    paint (← grandFather node) .red
    grandFather node
  else
    let mut node := node
    if node = (← getChild d.flip (← getParent node)) then
      node ← getParent node
      rotate d node
    paint (← getParent node) .black
    paint (← grandFather node) .red
    rotate d.flip (← grandFather node)
    pure node

/-- The loop of `rbtree_insert`. -/
def insertFix (fuel : Nat) (node : Ptr ν) : RbM ν Unit :=
  loop Fault.fuel (fun node => do
    if node = (← getRoot) then
      pure (.inr ())
    else if ← isRed (← getParent node) then
      if (← getParent node) = (← getChild .left (← grandFather node)) then
        return .inl (← insertTurn .left node)
      else
        return .inl (← insertTurn .right node)
    else
      pure (.inr ())) fuel node

/-- `rbtree_insert` -/
def rbtreeInsert (fuel : Nat) (node : Ptr ν) : RbM ν Unit := do
  if (← getRoot) = .sentinel then
    setParent node .null
    setChild .left node .sentinel
    setChild .right node .sentinel
    paint node .black
    setRoot node
  else
    rbtreeInsertTimerValue fuel (← getRoot) node
    insertFix fuel node
    paint (← getRoot) .black

/-! ## deletion -/

/-- `rbtree_min` -/
def rbtreeMin (fuel : Nat) (node : Ptr ν) : RbM ν (Ptr ν) :=
  loop Fault.fuel (fun node => do
    let left ← getChild .left node
    if left = .sentinel then
      pure (.inr node)
    else
      pure (.inl left)) fuel node

/-- What `rbtree_delete` leaves in the deleted node. -/
def clearNode (node : Ptr ν) : RbM ν Unit := do
  setChild .left node .sentinel
  setChild .right node .sentinel
  setParent node .sentinel
  setKey node 0

/-- The body of the last loop of `rbtree_delete`, for a `temp` on side `d`. -/
def deleteTurn (d : Dir) (temp : Ptr ν) : RbM ν (Ptr ν) := do
  let mut w ← getChild d.flip (← getParent temp)
  if ← isRed w then
    paint w .black
    paint (← getParent temp) .red
    rotate d (← getParent temp)
    w ← getChild d.flip (← getParent temp)
  let blackLeft ← isBlack (← getChild .left w)
  if ← (if blackLeft then isBlack =<< getChild .right w else pure false) then
    paint w .red
    getParent temp
  else
    if ← isBlack (← getChild d.flip w) then
      paint (← getChild d w) .black
      paint w .red
      rotate d.flip w
      w ← getChild d.flip (← getParent temp)
    copyColor w (← getParent temp)
    paint (← getParent temp) .black
    paint (← getChild d.flip w) .black
    rotate d (← getParent temp)
    getRoot

/-- The last loop of `rbtree_delete`; what it returns is its last `temp`. -/
def deleteFix (fuel : Nat) (temp : Ptr ν) : RbM ν (Ptr ν) :=
  loop Fault.fuel (fun temp => do
    if temp = (← getRoot) then
      pure (.inr temp)
    else if ← isBlack temp then
      if temp = (← getChild .left (← getParent temp)) then
        return .inl (← deleteTurn .left temp)
      else
        return .inl (← deleteTurn .right temp)
    else
      pure (.inr temp)) fuel temp

/-- The successor `subst` takes the place of `node` and `temp` its own. -/
def replaceBySubst (node subst temp : Ptr ν) : RbM ν Unit := do
  if (← getParent subst) = node then
    setParent temp subst
  else
    setParent temp (← getParent subst)
  setChild .left subst (← getChild .left node)
  setChild .right subst (← getChild .right node)
  setParent subst (← getParent node)
  copyColor subst node
  relink .left node subst
  adopt (← getChild .left subst) subst
  adopt (← getChild .right subst) subst

/-- `rbtree_delete` -/
def rbtreeDelete (fuel : Nat) (node : Ptr ν) : RbM ν Unit := do
  let (subst, temp) ← (do
    if (← getChild .left node) = .sentinel then
      return (node, ← getChild .right node)
    else if (← getChild .right node) = .sentinel then
      return (node, ← getChild .left node)
    else
      let subst ← rbtreeMin fuel (← getChild .right node)
      if (← getChild .left subst) ≠ .sentinel then
        return (subst, ← getChild .left subst)
      else
        return (subst, ← getChild .right subst) : RbM ν (Ptr ν × Ptr ν))
  if subst = (← getRoot) then
    setRoot temp
    paint temp .black
    clearNode node
  else
    let red ← isRed subst
    if subst = (← getChild .left (← getParent subst)) then
      setChild .left (← getParent subst) temp
    else
      setChild .right (← getParent subst) temp
    if subst = node then
      setParent temp (← getParent subst)
    else
      replaceBySubst node subst temp
    clearNode node
    if !red then
      paint (← deleteFix fuel temp) .black

end PWebServer
