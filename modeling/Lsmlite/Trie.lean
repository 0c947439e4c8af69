import Lsmlite.Util

/-!
# The trie index

`ssindex/trie.rs`: an arena of nodes, the root first. The top bit of a node's offset word marks
the end of a key.
-/

namespace Lsmlite
open Bytes

abbrev wordEndFlag : Nat := 2 ^ 63
abbrev offsetMask : Nat := 2 ^ 63 - 1
abbrev unmarkedFlag : Nat := 0

abbrev sizePerChildNode : Nat := 5
abbrev trieNodeHeaderSize : Nat := 9
abbrev trieHeaderSize : Nat := 4

abbrev TriePointer := UInt8 × Nat

/-- The probes of `binary_search_by`: `size` elements from `base` are left. -/
def binarySearchLoop (children : List TriePointer) (c : UInt8) : Nat → Nat → Nat → Nat
  | 0, _, base => base
  | fuel + 1, size, base =>
    if 1 < size then
      let half := size / 2
      let mid := base + half
      let base := match children[mid]? with
        | some child => if c < child.1 then base else mid
        | none => base
      binarySearchLoop children c fuel (size - half) base
    else base

/-- `binary_search_by` on the characters: the index found, or the one to insert at. -/
def binarySearch (children : List TriePointer) (c : UInt8) : Except Nat Nat :=
  let base := binarySearchLoop children c children.length children.length 0
  match children[base]? with
  | none => .error 0
  | some child =>
    if child.1 = c then .ok base
    else if child.1 < c then .error (base + 1)
    else .error base

structure TrieNode where
  offset : Nat
  children : List TriePointer
  deriving DecidableEq, Repr

namespace TrieNode

def default : TrieNode := ⟨unmarkedFlag, []⟩

/-- The loop over the children of `deserialize_from_disk`. -/
def readChildren (buffer : Blob) : Nat → Nat → Option (List TriePointer × Nat)
  | 0, offset => some ([], offset)
  | n + 1, offset => do
    let c ← buffer[offset]?
    let arenaIdx ← slice buffer (offset + 1) (offset + 1 + 4)
    let (children, offset) ← readChildren buffer n (offset + 1 + 4)
    return ((c, fromBe arenaIdx) :: children, offset)

def deserializeFromDisk (buffer : Blob) (bufferOffset : Nat) : Option (TrieNode × Nat) := do
  let numChildren ← buffer[bufferOffset]?
  let offset ← slice buffer (bufferOffset + 1) (bufferOffset + 1 + 8)
  let (children, bufferOffset) ← readChildren buffer numChildren.toNat (bufferOffset + 1 + 8)
  return (⟨fromBe offset, children⟩, bufferOffset)

def serializedSize (n : TrieNode) : Nat :=
  trieNodeHeaderSize + sizePerChildNode * n.children.length

def writeChildren (buffer : Blob) (offset : Nat) : List TriePointer → Option (Blob × Nat)
  | [] => some (buffer, offset)
  | (c, arenaIdx) :: children => do
    let buffer ← overwrite buffer offset (offset + 1) [c]
    let buffer ← overwrite buffer (offset + 1) (offset + 1 + 4) (toBe 4 arenaIdx)
    writeChildren buffer (offset + 1 + 4) children

/-- The number of children is cast to one byte. -/
def serializeIntoBuffer (n : TrieNode) (buffer : Blob) (offset : Nat) : Option (Blob × Nat) := do
  let buffer ← overwrite buffer offset (offset + 1) [UInt8.ofNat n.children.length]
  let buffer ← overwrite buffer (offset + 1) (offset + 1 + 8) (toBe 8 n.offset)
  writeChildren buffer (offset + 1 + 8) n.children

def setOffset (n : TrieNode) (offset : Nat) : TrieNode :=
  { n with offset := offset ||| wordEndFlag }

def getOffset (n : TrieNode) : Option Nat :=
  if n.offset = unmarkedFlag then none else some (n.offset &&& offsetMask)

/-- The child's index in the arena, or the position to insert it at. -/
def getChildIdx (n : TrieNode) (c : UInt8) : Option (Except Nat Nat) :=
  match binarySearch n.children c with
  | .ok childIdx => (n.children[childIdx]?).map fun child => .ok child.2
  | .error pos => some (.error pos)

def insertChild (n : TrieNode) (pos : Nat) (c : UInt8) (idx : Nat) : TrieNode :=
  { n with children := n.children.insertIdx pos (c, idx) }

end TrieNode

structure Trie where
  arena : List TrieNode
  deriving DecidableEq, Repr

namespace Trie

def new : Trie := ⟨[]⟩

def readNodes (buffer : Blob) : Nat → Nat → Option (List TrieNode)
  | 0, _ => some []
  | n + 1, offset => do
    let (node, offset) ← TrieNode.deserializeFromDisk buffer offset
    return node :: (← readNodes buffer n offset)

def deserializeFromDisk (buffer : Blob) : Option Trie := do
  let arenaSize ← slice buffer 0 4
  return ⟨← readNodes buffer (fromBe arenaSize) 4⟩

/-- `size_of::<TrieNode>()`: the offset, and the three words of the children's `Vec`. -/
abbrev nodeSize : Nat := 32

/-- `deserialize_from_disk` with `memory` for its arena, which is allocated before the first node is
read. -/
def deserializeWithin (memory : Nat) (buffer : Blob) : Option Trie := do
  let arenaSize ← slice buffer 0 4
  allocate memory (nodeSize * fromBe arenaSize)
  deserializeFromDisk buffer

def serializedSize (t : Trie) : Nat :=
  trieHeaderSize + (t.arena.map TrieNode.serializedSize).sum

def writeNodes (buffer : Blob) (offset : Nat) : List TrieNode → Option Blob
  | [] => some buffer
  | node :: nodes => do
    let (buffer, offset) ← node.serializeIntoBuffer buffer offset
    writeNodes buffer offset nodes

def serialize (t : Trie) : Option Blob := do
  let buffer ← makeBlobBuffer t.serializedSize
  let buffer ← overwrite buffer 0 4 (toBe 4 t.arena.length)
  writeNodes buffer 4 t.arena

/-- The arena index is cast to 32 bits. -/
def getOrInsertNode (t : Trie) (arenaIdx : Nat) (c : UInt8) : Option (Trie × Nat) := do
  let node ← t.arena[arenaIdx]?
  match ← node.getChildIdx c with
  | .ok childIdx => return (t, childIdx)
  | .error childInsert => do
    let childIdx := t.arena.length
    let arena := t.arena ++ [TrieNode.default]
    return (⟨arena.set arenaIdx (node.insertChild childInsert c (childIdx % 2 ^ 32))⟩, childIdx)

def descend (t : Trie) (arenaIdx : Nat) : Blob → Option (Trie × Nat)
  | [] => some (t, arenaIdx)
  | c :: key => do
    let (t, arenaIdx) ← t.getOrInsertNode arenaIdx c
    t.descend arenaIdx key

def insert (t : Trie) (key : Blob) (offset : Nat) : Option Trie := do
  let t : Trie := if t.arena = [] then ⟨[TrieNode.default]⟩ else t
  let (t, arenaIdx) ← t.descend 0 key
  let node ← t.arena[arenaIdx]?
  return ⟨t.arena.set arenaIdx (node.setOffset offset)⟩

def walk (t : Trie) (arenaIdx : Nat) : Blob → Option (Option Nat)
  | [] => do
    let node ← t.arena[arenaIdx]?
    return node.getOffset
  | c :: key => do
    let node ← t.arena[arenaIdx]?
    match ← node.getChildIdx c with
    | .ok idx => t.walk idx key
    | .error _ => return none

def get (t : Trie) (key : Blob) : Option (Option Nat) :=
  if t.arena = [] then some none else t.walk 0 key

end Trie

end Lsmlite
