import Lsmlite.Wal
import Lsmlite.Lib.RedBlack

/-!
# The memtable

`memtable/inner.rs`: a red-black tree in an arena. Nodes hold indices of their children and
parent, and every access to the arena can panic.
-/

namespace Lsmlite
open Bytes

inductive MemtableQuery where
  | data (value : Blob)
  | tombstone
  | none
  deriving DecidableEq, Repr

inductive MemtableError where
  | tableFull (key : Blob) (value : Option Blob)
  deriving DecidableEq, Repr

abbrev Color := RedBlack.Color

structure MemtableNode where
  record : Record
  left : Option Nat
  right : Option Nat
  parent : Option Nat
  color : Color
  deriving DecidableEq, Repr

inductive ChildType where
  | inner
  | outer
  deriving DecidableEq, Repr

inductive RotationDirection where
  | left
  | right
  deriving DecidableEq, Repr

inductive Child where
  | left
  | right
  deriving DecidableEq, Repr

inductive InsertionPosition where
  | newNode (parent : Nat) (child : Child)
  | existingNode (idx : Nat)
  deriving DecidableEq, Repr

abbrev Arena := List MemtableNode

namespace Arena

/-- `arena[i]` changed by `f`. -/
def modify (arena : Arena) (i : Nat) (f : MemtableNode → MemtableNode) : Option Arena :=
  (arena[i]?).map fun n => arena.set i (f n)

end Arena

namespace MemtableNode

def newFromRecord (record : Record) : MemtableNode := ⟨record, none, none, none, .red⟩

def newDataRecord (key value : Blob) : Option MemtableNode :=
  (Record.newDataRecord key value).map newFromRecord

def newTombstoneRecord (key : Blob) : Option MemtableNode :=
  (Record.newTombstoneRecord key).map newFromRecord

def uncle (n : MemtableNode) (arena : Arena) : Option (Option Nat) :=
  match n.parent with
  | none => some none
  | some p => do
    let parent ← arena[p]?
    match parent.parent with
    | none => some none
    | some g => do
      let grandparent ← arena[g]?
      return if grandparent.left = n.parent then grandparent.right else grandparent.left

/-- A node as its colour and links. -/
def colored (c : Color) (n : MemtableNode) : MemtableNode := { n with color := c }

def linkChild (child : Child) (idx : Nat) (n : MemtableNode) : MemtableNode :=
  match child with
  | .left => { n with left := some idx }
  | .right => { n with right := some idx }

end MemtableNode

def childType (grandparentLeft : Option Nat) (parent : Nat) (parentLeft : Option Nat)
    (node : Nat) : ChildType :=
  let isParentLeft : Bool := grandparentLeft = some parent
  let isNodeLeft : Bool := parentLeft = some node
  if isParentLeft = isNodeLeft then .outer else .inner

def deriveInnerRotation (grandparentLeft : Option Nat) (parent : Nat) : RotationDirection :=
  if grandparentLeft = some parent then .left else .right

def deriveOuterRotation (grandparentLeft : Option Nat) (parent : Nat) : RotationDirection :=
  if grandparentLeft = some parent then .right else .left

def deriveRotationDirection (grandparentLeft : Option Nat) (parent : Nat)
    (parentLeft : Option Nat) (node : Nat) : ChildType × RotationDirection :=
  match childType grandparentLeft parent parentLeft node with
  | .outer => (.outer, deriveOuterRotation grandparentLeft parent)
  | .inner => (.inner, deriveInnerRotation grandparentLeft parent)

structure MemtableInner where
  arena : Arena
  capacity : Nat
  maxSize : Nat
  rootNode : Option Nat
  currentSize : Nat
  wal : Wal
  deriving DecidableEq, Repr

namespace MemtableInner

def new (maxSize maxNodes : Nat) (wal : Wal) : MemtableInner where
  arena := []
  capacity := maxNodes
  maxSize := maxSize
  rootNode := none
  currentSize := 0
  wal := wal

def full (t : MemtableInner) : Bool :=
  t.arena.length = t.capacity || t.maxSize ≤ t.currentSize

/-! ## Rotations and the fix-up -/

/-- `self.arena[self.root_node.unwrap()].color = Color::Black` -/
def blackenRoot (t : MemtableInner) : Option MemtableInner := do
  let root ← t.rootNode
  let arena ← t.arena.modify root (.colored .black)
  return { t with arena }

def insertRecolor (t : MemtableInner) (parent grandparent : Nat) : Option MemtableInner := do
  let arena ← t.arena.modify parent (.colored .black)
  let arena ← arena.modify grandparent (.colored .red)
  return { t with arena }

/-- `if let Some(child) = .. { self.arena[child].parent = Some(n) }` -/
def adopt (arena : Arena) (child : Option Nat) (n : Nat) : Option Arena :=
  match child with
  | some child => arena.modify child ({ · with parent := some n })
  | none => some arena

/-- The `match self.arena[n].parent` of a rotation: `n`'s parent, or the root, points to `r`. -/
def relinkParent (t : MemtableInner) (parent : Option Nat) (n r : Nat) : Option MemtableInner :=
  match parent with
  | some p => do
    let pNode ← t.arena[p]?
    let arena ← t.arena.modify p fun m =>
      if pNode.left = some n then { m with left := some r } else { m with right := some r }
    return { t with arena }
  | none => some { t with rootNode := some r }

def leftRotate (t : MemtableInner) (n : Nat) : Option MemtableInner := do
  let node ← t.arena[n]?
  let r ← node.right
  let rNode ← t.arena[r]?
  -- R's left child becomes N's right child.
  let arena ← t.arena.modify n ({ · with right := rNode.left })
  let arena ← adopt arena rNode.left n
  -- Swap R and N.
  let arena ← arena.modify r ({ · with parent := node.parent })
  let t ← relinkParent { t with arena } node.parent n r
  let arena ← t.arena.modify r ({ · with left := some n })
  let arena ← arena.modify n ({ · with parent := some r })
  return { t with arena }

def rightRotate (t : MemtableInner) (n : Nat) : Option MemtableInner := do
  let node ← t.arena[n]?
  let l ← node.left
  let lNode ← t.arena[l]?
  -- L's right child becomes N's left child.
  let arena ← t.arena.modify n ({ · with left := lNode.right })
  let arena ← adopt arena lNode.right n
  -- Swap L and N.
  let arena ← arena.modify l ({ · with parent := node.parent })
  let t ← relinkParent { t with arena } node.parent n l
  let arena ← t.arena.modify l ({ · with right := some n })
  let arena ← arena.modify n ({ · with parent := some l })
  return { t with arena }

/-- One `match` of the fix-up loop: `some (u, _)` for a red uncle `u`. -/
def redUncle (t : MemtableInner) (node : MemtableNode) : Option (Option Nat) := do
  match ← node.uncle t.arena with
  | some u => do
    let uncle ← t.arena[u]?
    return if uncle.color = .red then some u else none
  | none => return none

/-- The loop of `insert_fix_tree`, with the assignment behind it. Running out of `fuel` would
be a loop that does not end. -/
def insertFixTree : Nat → MemtableInner → Nat → Option MemtableInner
  | 0, _, _ => none
  | fuel + 1, t, nodeIdx => do
    let node ← t.arena[nodeIdx]?
    match node.parent with
    | none => t.blackenRoot
    | some parentIdx => do
      let parent ← t.arena[parentIdx]?
      if parent.color = .black then t.blackenRoot
      else do
        let grandparentIdx ← parent.parent
        match ← t.redUncle node with
        | some u => do
          let arena ← t.arena.modify u (.colored .black)
          let arena ← arena.modify parentIdx (.colored .black)
          let arena ← arena.modify grandparentIdx (.colored .red)
          insertFixTree fuel { t with arena } grandparentIdx
        | none => do
          let grandparent ← t.arena[grandparentIdx]?
          match deriveRotationDirection grandparent.left parentIdx parent.left nodeIdx with
          | (.inner, .right) => do insertFixTree fuel (← t.rightRotate parentIdx) parentIdx
          | (.inner, .left) => do insertFixTree fuel (← t.leftRotate parentIdx) parentIdx
          | (.outer, .right) => do
            let t ← t.insertRecolor parentIdx grandparentIdx
            let t ← t.rightRotate grandparentIdx
            t.blackenRoot
          | (.outer, .left) => do
            let t ← t.insertRecolor parentIdx grandparentIdx
            let t ← t.leftRotate grandparentIdx
            t.blackenRoot

/-! ## Search and insertion -/

/-- The loop of `find_insert_position` from `curr`. -/
def findInsertPosition (arena : Arena) (key : Blob) : Nat → Nat → Option InsertionPosition
  | 0, _ => none
  | fuel + 1, curr => do
    let node ← arena[curr]?
    let nodeKey ← node.record.keySlice
    if key = nodeKey then return .existingNode curr
    else if key < nodeKey then
      match node.left with
      | some child => findInsertPosition arena key fuel child
      | none => return .newNode curr .left
    else
      match node.right with
      | some child => findInsertPosition arena key fuel child
      | none => return .newNode curr .right

def setRoot (t : MemtableInner) (node : MemtableNode) (nodeIdx : Nat) : MemtableInner :=
  { t with rootNode := some nodeIdx, arena := t.arena ++ [{ node with color := .black }] }

/-- `insert_node`, with the rounds its two loops may take. -/
def insertNodeWithin (search fixUp : Nat) (t : MemtableInner) (node : MemtableNode) :
    Option MemtableInner := do
  let nodeIdx := t.arena.length
  match t.rootNode with
  | none => return t.setRoot node nodeIdx
  | some root => do
    let key ← node.record.keySlice
    match ← findInsertPosition t.arena key search root with
    | .existingNode curr => do
      let curNode ← t.arena[curr]?
      let record ← curNode.record.updateFromRecord node.record
      return { t with arena := t.arena.set curr { curNode with record } }
    | .newNode parent child => do
      let arena ← t.arena.modify parent (.linkChild child nodeIdx)
      let t := { t with
        arena := arena ++ [{ node with parent := some parent }]
        currentSize := t.currentSize + node.record.size }
      insertFixTree fixUp t nodeIdx

/-- No path is longer than the arena with the new node. -/
def insertNode (t : MemtableInner) (node : MemtableNode) : Option MemtableInner :=
  t.insertNodeWithin (t.arena.length + 1) (t.arena.length + 2) node

def insertDataRecord (t : MemtableInner) (key value : Blob) (clock : Clock) :
    Option (Except MemtableError MemtableInner) :=
  if t.full then some (.error (.tableFull key (some value)))
  else do
    let node ← MemtableNode.newDataRecord key value
    let t := { t with wal := t.wal.writeLog node.record clock }
    return .ok (← t.insertNode node)

def insertTombstoneRecord (t : MemtableInner) (key : Blob) (clock : Clock) :
    Option (Except MemtableError MemtableInner) :=
  if t.full then some (.error (.tableFull key none))
  else do
    let node ← MemtableNode.newTombstoneRecord key
    let t := { t with wal := t.wal.writeLog node.record clock }
    return .ok (← t.insertNode node)

/-- A full table is the `todo!`. -/
def insertRecordFromWal (t : MemtableInner) (record : Record) : Option MemtableInner :=
  if t.full then none else t.insertNode (.newFromRecord record)

/-- `from_wal` on a log file's content; the new table logs to `wal`. -/
def fromWal (log : Blob) (maxSize maxNodes : Nat) (wal : Wal) : Option MemtableInner := do
  let records ← (WalIterator.new log).collect (log.length + 1)
  records.foldlM insertRecordFromWal (new maxSize maxNodes wal)

/-- The loop of `get_search` from `curr`. -/
def getSearch (arena : Arena) (key : Blob) : Nat → Nat → Option (Option Nat)
  | 0, _ => none
  | fuel + 1, curr => do
    let node ← arena[curr]?
    let nodeKey ← node.record.keySlice
    if key = nodeKey then return some curr
    else if key < nodeKey then
      match node.left with
      | some left => getSearch arena key fuel left
      | none => return none
    else
      match node.right with
      | some right => getSearch arena key fuel right
      | none => return none

/-- `get`, with the rounds its search may take. -/
def getWithin (rounds : Nat) (t : MemtableInner) (key : Blob) : Option MemtableQuery := do
  match t.rootNode with
  | none => return .none
  | some root =>
    match ← getSearch t.arena key rounds root with
    | none => return .none
    | some idx => do
      let node ← t.arena[idx]?
      match ← node.record.valueSlice with
      | some value => return .data value
      | none => return .tombstone

def get (t : MemtableInner) (key : Blob) : Option MemtableQuery :=
  t.getWithin (t.arena.length + 1) key

end MemtableInner

end Lsmlite
