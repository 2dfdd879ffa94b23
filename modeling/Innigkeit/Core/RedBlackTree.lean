import Innigkeit.Library.RedBlack.Balance
import Innigkeit.Zig.Checked

/-!
The intrusive red-black tree of the core library, on the memory of its nodes. A node
knows its children, its parent and its side; a tree is a root, its first and last
node and its size. A callback runs after every rotation and may change what lies
beside the nodes, which is the field `aug` here; it reads the links of the nodes.

A walk of the code along the links goes on for as long as there are links. Here it has
a bound for the number of nodes that it passes. Insertions take it from the size; a query
or an iterator is given one, which may be anything above the number of nodes.
-/

namespace Innigkeit.Core

open Zig Function RedBlack

/-- A node; `extra` is spread over the fields. -/
structure Node (Ptr : Type) where
  left : Option Ptr := none
  right : Option Ptr := none
  color : Color := .black
  side : Side := .left
  isolated : Bool := true
  parent : Option Ptr := none
  deriving DecidableEq, Repr

namespace Node

variable {Ptr : Type}

def link (node : Node Ptr) : Side → Option Ptr
  | .left => node.left
  | .right => node.right

def setLink (node : Node Ptr) (side : Side) (child : Option Ptr) : Node Ptr :=
  match side with
  | .left => { node with left := child }
  | .right => { node with right := child }

end Node

structure RedBlackTree (Ptr Aug : Type) where
  root : Option Ptr := none
  first : Option Ptr := none
  last : Option Ptr := none
  size : ℕ := 0
  nodes : Ptr → Node Ptr
  aug : Aug

namespace RedBlackTree

/-- The callback `on_rotate`, with the node that moved down and the one that moved up. -/
abbrev OnRotate (Ptr Aug : Type) := (Ptr → Node Ptr) → Aug → Ptr → Ptr → Aug

/-- A place that holds a pointer to a node. -/
inductive Slot (Ptr : Type) where
  | root
  | child (parent : Ptr) (side : Side)
  deriving DecidableEq, Repr

structure Entry (Ptr : Type) where
  parent : Option Ptr
  this : Slot Ptr
  deriving DecidableEq, Repr

variable {Ptr Aug : Type} [DecidableEq Ptr]

def modify (s : RedBlackTree Ptr Aug) (p : Ptr) (f : Node Ptr → Node Ptr) :
    RedBlackTree Ptr Aug :=
  { s with nodes := update s.nodes p (f (s.nodes p)) }

def setChild (s : RedBlackTree Ptr Aug) (p : Ptr) (side : Side) (child : Option Ptr) :
    RedBlackTree Ptr Aug :=
  s.modify p fun node => node.setLink side child

def setParent (s : RedBlackTree Ptr Aug) (p : Ptr) (parent : Option Ptr) :
    RedBlackTree Ptr Aug :=
  s.modify p fun node => { node with parent }

def setColor (s : RedBlackTree Ptr Aug) (p : Ptr) (color : Color) : RedBlackTree Ptr Aug :=
  s.modify p fun node => { node with color }

omit [DecidableEq Ptr] in
def child (s : RedBlackTree Ptr Aug) (p : Ptr) (side : Side) : Checked (Option Ptr) := do
  match (s.nodes p).link side with
  | none => return none
  | some c =>
    assert ((s.nodes c).side = side)
    return some c

def sideOf (s : RedBlackTree Ptr Aug) (p parent : Ptr) : Side :=
  if (s.nodes parent).left = some p then .left else .right

def resetSide (s : RedBlackTree Ptr Aug) (p : Ptr) : RedBlackTree Ptr Aug :=
  match (s.nodes p).parent with
  | none => s
  | some parent => s.modify p fun node => { node with side := s.sideOf p parent }

def fixChildParentPointers (s : RedBlackTree Ptr Aug) (p : Ptr) : RedBlackTree Ptr Aug :=
  let s := match (s.nodes p).left with
    | none => s
    | some left => s.setParent left (some p)
  match (s.nodes p).right with
  | none => s
  | some right => s.setParent right (some p)

omit [DecidableEq Ptr] in
def read (s : RedBlackTree Ptr Aug) : Slot Ptr → Option Ptr
  | .root => s.root
  | .child p side => (s.nodes p).link side

def write (s : RedBlackTree Ptr Aug) (slot : Slot Ptr) (value : Option Ptr) :
    RedBlackTree Ptr Aug :=
  match slot with
  | .root => { s with root := value }
  | .child p side => s.setChild p side value

/-- The first writes of `rotate_node`: a subtree becomes the child of a node. -/
def adopt (s : RedBlackTree Ptr Aug) (node : Ptr) (side : Side) (newChild : Option Ptr) :
    RedBlackTree Ptr Aug :=
  let s := s.setChild node side newChild
  match newChild with
  | none => s
  | some newChild => (s.setParent newChild (some node)).resetSide newChild

/-- The writes of `rotate_node` above the rotated nodes. -/
def relink (s : RedBlackTree Ptr Aug) (subtreeParent : Option Ptr) (node newSubtreeRoot : Ptr) :
    RedBlackTree Ptr Aug :=
  match subtreeParent with
  | none => { s with root := some newSubtreeRoot }
  | some parent => s.setChild parent (s.sideOf node parent) (some newSubtreeRoot)

def rotateNode (onRotate : OnRotate Ptr Aug) (s : RedBlackTree Ptr Aug) (node : Ptr)
    (side : Side) : Checked (RedBlackTree Ptr Aug) := do
  let subtreeParent := (s.nodes node).parent
  let newSubtreeRoot ← unwrap (← s.child node side.flip)
  let newChild ← s.child newSubtreeRoot side
  let s := s.adopt node side.flip newChild
  let s := s.setChild newSubtreeRoot side (some node)
  let s := s.setParent newSubtreeRoot subtreeParent
  let s := s.setParent node (some newSubtreeRoot)
  let s := s.relink subtreeParent node newSubtreeRoot
  let s := (s.resetSide newSubtreeRoot).resetSide node
  return { s with aug := onRotate s.nodes s.aug node newSubtreeRoot }

section

variable (onRotate : OnRotate Ptr Aug)

def putCase6 (s : RedBlackTree Ptr Aug) (parent grandparent : Ptr) (dir : Side) :
    Checked (RedBlackTree Ptr Aug) := do
  let s ← s.rotateNode onRotate grandparent dir.flip
  return (s.setColor parent .black).setColor grandparent .red

def putCase5 (s : RedBlackTree Ptr Aug) (parent grandparent : Ptr) (dir : Side) :
    Checked (RedBlackTree Ptr Aug) := do
  let s ← s.rotateNode onRotate parent dir
  let parent ← unwrap (← s.child grandparent dir)
  s.putCase6 onRotate parent grandparent dir

/-- The loop, from its state `start`; the states that only return are folded into it. -/
def putStart : ℕ → RedBlackTree Ptr Aug → Ptr → Ptr → Checked (RedBlackTree Ptr Aug)
  | 0, _, _, _ => .error .panic
  | fuel + 1, s, node, parent => do
    assert ((s.nodes node).color = .red)
    if (s.nodes parent).color = .black then return s
    match (s.nodes parent).parent with
    | none => return s.setColor parent .black
    | some grandparent =>
      let dir := (s.nodes parent).side
      let uncle ← s.child grandparent dir.flip
      assert (uncle ≠ some parent)
      match uncle.filter fun uncle => (s.nodes uncle).color = .red with
      | none =>
        if (← s.child parent dir.flip) = some node then s.putCase5 onRotate parent grandparent dir
        else s.putCase6 onRotate parent grandparent dir
      | some uncle =>
        let s := ((s.setColor parent .black).setColor uncle .black).setColor grandparent .red
        match (s.nodes grandparent).parent with
        | none => return s
        | some parent => putStart fuel s grandparent parent

def rebalanceAfterPut (s : RedBlackTree Ptr Aug) (node : Ptr) : Checked (RedBlackTree Ptr Aug) :=
  match (s.nodes node).parent with
  | none => .ok s
  | some parent => s.putStart onRotate s.size node parent

end

section

omit [DecidableEq Ptr]

def repeatLoop (s : RedBlackTree Ptr Aug) (side : Side) : ℕ → Ptr → Checked Ptr
  | 0, _ => .error .panic
  | fuel + 1, cur => do
    match ← s.child cur side with
    | none => return cur
    | some next => s.repeatLoop side fuel next

/-- `repeat` is `leftmost` and `rightmost`. -/
def repeat_ (s : RedBlackTree Ptr Aug) (bound : ℕ) (subtree : Ptr) (side : Side) : Checked Ptr :=
  s.repeatLoop side (bound + 1) subtree

/-- The way back up in `advance`. -/
def climb (s : RedBlackTree Ptr Aug) (dir : Side) : ℕ → Ptr → Checked (Option Ptr)
  | 0, _ => .error .panic
  | fuel + 1, cur =>
    match (s.nodes cur).parent with
    | none => .ok none
    | some parent =>
      if (s.nodes cur).side = dir then s.climb dir fuel parent else .ok (some parent)

def advance (s : RedBlackTree Ptr Aug) (bound : ℕ) (node : Ptr) (dir : Side) :
    Checked (Option Ptr) := do
  match ← s.child node dir with
  | some subtree => return some (← s.repeat_ bound subtree dir.flip)
  | none => s.climb dir (bound + 1) node

def successor (s : RedBlackTree Ptr Aug) (bound : ℕ) (node : Ptr) : Checked (Option Ptr) :=
  s.advance bound node .right

def predecessor (s : RedBlackTree Ptr Aug) (bound : ℕ) (node : Ptr) : Checked (Option Ptr) :=
  s.advance bound node .left

def getEntryLoop (comparator : Ptr → Ptr → Ordering) (s : RedBlackTree Ptr Aug) (node : Ptr) :
    ℕ → Entry Ptr → Checked (Entry Ptr)
  | 0, _ => .error .panic
  | fuel + 1, entry =>
    match s.read entry.this with
    | none => .ok entry
    | some cur =>
      match comparator node cur with
      | .gt => getEntryLoop comparator s node fuel ⟨some cur, .child cur .right⟩
      | .lt => getEntryLoop comparator s node fuel ⟨some cur, .child cur .left⟩
      | .eq => .ok entry

def getEntry (comparator : Ptr → Ptr → Ordering) (s : RedBlackTree Ptr Aug) (node : Ptr) :
    Checked (Entry Ptr) :=
  s.getEntryLoop comparator node (s.size + 1) ⟨none, .root⟩

def get (comparator : Ptr → Ptr → Ordering) (s : RedBlackTree Ptr Aug) (node : Ptr) :
    Checked (Option Ptr) := do
  return s.read (← s.getEntry comparator node).this

end

section

variable (onRotate : OnRotate Ptr Aug)

/-- Case 0 of `putEntry`: the new node takes over what the old one held. -/
def replace (s : RedBlackTree Ptr Aug) (old node : Ptr) : RedBlackTree Ptr Aug :=
  let s := s.modify node fun _ => s.nodes old
  let s := s.modify old fun node => { node with isolated := true }
  let s := s.fixChildParentPointers node
  let s := if s.first = some old then { s with first := some node } else s
  if s.last = some old then { s with last := some node } else s

/-- The new node below `parent`, before the rebalancing. -/
def attach (s : RedBlackTree Ptr Aug) (node : Ptr) (parent : Option Ptr) :
    RedBlackTree Ptr Aug :=
  let s := s.modify node fun node =>
    { node with left := none, right := none, color := .red, isolated := false, parent }
  let s := s.resetSide node
  let s := { s with size := s.size + 1 }
  let s := if s.first = none ∨ s.first = parent ∧ (s.nodes node).side = .left then
      { s with first := some node } else s
  if s.last = none ∨ s.last = parent ∧ (s.nodes node).side = .right then
    { s with last := some node } else s

def putEntry (s : RedBlackTree Ptr Aug) (entry : Entry Ptr) (node : Ptr) :
    Checked (Option Ptr × RedBlackTree Ptr Aug) := do
  assert ((s.nodes node).isolated = true)
  let taken := s.read entry.this
  let s := s.write entry.this (some node)
  match taken with
  | some old => return (some old, s.replace old node)
  | none => return (none, ← (s.attach node entry.parent).rebalanceAfterPut onRotate node)

def put (comparator : Ptr → Ptr → Ordering) (s : RedBlackTree Ptr Aug) (node : Ptr) :
    Checked (Option Ptr × RedBlackTree Ptr Aug) := do
  s.putEntry onRotate (← s.getEntry comparator node) node

end

end RedBlackTree

end Innigkeit.Core
