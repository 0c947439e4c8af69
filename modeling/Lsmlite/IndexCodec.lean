import Lsmlite.BloomFilter
import Lsmlite.RecordCodec
import Lsmlite.TrieMap

/-!
# The index on disk

The trie and the bloom filter are read back from the bytes they are written as, and the bloom
filter misses no key that was inserted.
-/

namespace Lsmlite
open Bytes

/-! ## The trie -/

/-- The child pointers of a node as bytes. -/
def pointerBytes (children : List TriePointer) : Blob :=
  children.flatMap fun p => p.1 :: toBe 4 p.2

def TrieNode.bytes (n : TrieNode) : Blob :=
  [UInt8.ofNat n.children.length] ++ (toBe 8 n.offset ++ pointerBytes n.children)

def Trie.bytes (t : Trie) : Blob := toBe 4 t.arena.length ++ t.arena.flatMap TrieNode.bytes

/-- The numbers of the node fit the bytes they are written in. -/
structure TrieNode.Sized (n : TrieNode) : Prop where
  count : n.children.length < 256
  pointers : ∀ p ∈ n.children, p.2 < 2 ^ 32
  offset : n.offset < 2 ^ 64

theorem pointerBytes_length (children : List TriePointer) :
    (pointerBytes children).length = sizePerChildNode * children.length := by
  induction children with
  | nil => rfl
  | cons p children ih =>
    simp only [pointerBytes, List.flatMap_cons, List.length_append, List.length_cons, toBe_length]
      at ih ⊢
    rw [ih, Nat.mul_add]
    simp only [sizePerChildNode]
    omega

theorem TrieNode.bytes_length (n : TrieNode) : n.bytes.length = n.serializedSize := by
  simp only [bytes, List.length_append, List.length_singleton, toBe_length, pointerBytes_length,
    serializedSize, trieNodeHeaderSize]
  omega

theorem Trie.bytes_length (t : Trie) : t.bytes.length = t.serializedSize := by
  simp only [bytes, List.length_append, toBe_length, serializedSize, List.length_flatMap]
  congr 2
  exact List.map_congr_left fun n _ => n.bytes_length

theorem writeChildren_eq (children : List TriePointer) (done rest : Blob)
    (hfit : (pointerBytes children).length ≤ rest.length) {offset : Nat}
    (ho : offset = done.length) :
    TrieNode.writeChildren (done ++ rest) offset children =
      some (done ++ pointerBytes children ++ rest.drop (pointerBytes children).length,
        offset + (pointerBytes children).length) := by
  induction children generalizing done rest offset with
  | nil => simp [TrieNode.writeChildren, pointerBytes]
  | cons p children ih =>
    obtain ⟨c, idx⟩ := p
    have hcons :
        pointerBytes ((c, idx) :: children) = [c] ++ (toBe 4 idx ++ pointerBytes children) := by
      simp [pointerBytes]
    rw [hcons] at hfit ⊢
    simp only [List.length_append, List.length_singleton, toBe_length] at hfit
    simp only [TrieNode.writeChildren, Option.bind_eq_bind]
    rw [overwrite_next done rest [c] ho (show offset + 1 = offset + [c].length from rfl)
      (by simp; omega)]
    simp only [Option.bind_some]
    rw [overwrite_next (done ++ [c]) _ (toBe 4 idx) (by simp [ho]) (by simp) (by simp; omega)]
    simp only [Option.bind_some]
    rw [ih _ _ (by simp; omega) (by simp [ho])]
    simp [Nat.add_assoc, Nat.add_comm, Nat.add_left_comm]

theorem serializeIntoBuffer_eq (n : TrieNode) (done rest : Blob)
    (hfit : n.bytes.length ≤ rest.length) {offset : Nat} (ho : offset = done.length) :
    n.serializeIntoBuffer (done ++ rest) offset =
      some (done ++ n.bytes ++ rest.drop n.bytes.length, offset + n.bytes.length) := by
  have hlen : n.bytes.length = 1 + (8 + (pointerBytes n.children).length) := by
    simp [TrieNode.bytes]
    omega
  simp only [TrieNode.serializeIntoBuffer, Option.bind_eq_bind]
  rw [overwrite_next done rest [UInt8.ofNat n.children.length] ho
    (show offset + 1 = offset + [UInt8.ofNat n.children.length].length from rfl) (by simp; omega)]
  simp only [Option.bind_some]
  rw [overwrite_next _ _ (toBe 8 n.offset) (by simp [ho]) (by simp) (by simp; omega)]
  simp only [Option.bind_some]
  rw [writeChildren_eq _ _ _ (by simp; omega) (by simp [ho])]
  simp [TrieNode.bytes, Nat.add_assoc, Nat.add_comm, Nat.add_left_comm]

theorem writeNodes_eq (nodes : List TrieNode) (done rest : Blob)
    (hfit : (nodes.flatMap TrieNode.bytes).length = rest.length) {offset : Nat}
    (ho : offset = done.length) :
    Trie.writeNodes (done ++ rest) offset nodes = some (done ++ nodes.flatMap TrieNode.bytes) := by
  induction nodes generalizing done rest offset with
  | nil =>
    have hnil : rest = [] := List.length_eq_zero_iff.mp hfit.symm
    simp [Trie.writeNodes, hnil]
  | cons n nodes ih =>
    rw [List.flatMap_cons, List.length_append] at hfit
    simp only [Trie.writeNodes, Option.bind_eq_bind]
    rw [serializeIntoBuffer_eq n done rest (by omega) ho]
    simp only [Option.bind_some]
    rw [ih _ _ (by rw [List.length_drop]; omega) (by simp [ho])]
    simp

/-- What `serialize` writes. -/
theorem Trie.serialize_eq {t : Trie} (h : t.bytes.length < 2 ^ 63) :
    t.serialize = some t.bytes := by
  have hsize := t.bytes_length
  have hlen : (t.arena.flatMap TrieNode.bytes).length + 4 = t.serializedSize := by
    rw [← hsize, bytes, List.length_append, toBe_length]
    omega
  simp only [Trie.serialize, makeBlobBuffer, if_pos (show t.serializedSize < 2 ^ 63 by omega),
    Option.bind_eq_bind, Option.bind_some]
  have hfirst := overwrite_next [] (List.replicate t.serializedSize (0 : UInt8))
    (toBe 4 t.arena.length) (show 0 = ([] : Blob).length from rfl) (show 4 = _ by simp)
    (by simp; omega)
  rw [List.nil_append] at hfirst
  rw [hfirst]
  simp only [Option.bind_some]
  rw [writeNodes_eq _ _ _
    (by simp only [List.length_drop, List.length_replicate, toBe_length]; omega) (by simp)]
  simp [bytes]

theorem readChildren_eq (children : List TriePointer) (hp : ∀ p ∈ children, p.2 < 2 ^ 32)
    (pre suf : Blob) {offset : Nat} (ho : offset = pre.length) :
    TrieNode.readChildren (pre ++ (pointerBytes children ++ suf)) children.length offset =
      some (children, offset + (pointerBytes children).length) := by
  induction children generalizing pre offset with
  | nil => rfl
  | cons p children ih =>
    obtain ⟨c, idx⟩ := p
    have hidx : idx < 256 ^ 4 := hp (c, idx) (List.mem_cons_self ..)
    have hcat : pre ++ (pointerBytes ((c, idx) :: children) ++ suf) =
        (pre ++ [c]) ++ (toBe 4 idx ++ (pointerBytes children ++ suf)) := by simp [pointerBytes]
    have hnext : offset + 1 + 4 = (pre ++ [c] ++ toBe 4 idx).length := by simp [ho]
    have hrest := ih (fun p hp' => hp p (List.mem_cons_of_mem _ hp')) _ hnext
    simp only [List.append_assoc] at hrest hcat
    simp only [List.length_cons, TrieNode.readChildren]
    rw [hcat,
        show (pre ++ ([c] ++ (toBe 4 idx ++ (pointerBytes children ++ suf))))[offset]? = some c by
      simp [ho]]
    simp only [Option.bind_eq_bind, Option.bind_some]
    rw [← List.append_assoc pre, slice_mid (pre ++ [c]) _ _ (by simp [ho]) (by simp)]
    simp only [Option.bind_some, List.append_assoc, hrest, Option.pure_def, fromBe_toBe hidx,
      Option.some.injEq, Prod.mk.injEq, true_and]
    simp [pointerBytes]
    omega

theorem TrieNode.deserialize_bytes {n : TrieNode} (h : n.Sized) (pre suf : Blob) {offset : Nat}
    (ho : offset = pre.length) :
    TrieNode.deserializeFromDisk (pre ++ (n.bytes ++ suf)) offset =
      some (n, offset + n.bytes.length) := by
  have hoff : n.offset < 256 ^ 8 := h.offset
  have hcat : pre ++ (n.bytes ++ suf) = (pre ++ [UInt8.ofNat n.children.length]) ++
      (toBe 8 n.offset ++ (pointerBytes n.children ++ suf)) := by simp [bytes]
  have hnext : offset + 1 + 8 =
      (pre ++ [UInt8.ofNat n.children.length] ++ toBe 8 n.offset).length := by simp [ho]
  have hread := readChildren_eq n.children h.pointers _ suf hnext
  simp only [List.append_assoc] at hread hcat
  simp only [TrieNode.deserializeFromDisk]
  rw [hcat, show (pre ++ ([UInt8.ofNat n.children.length] ++ (toBe 8 n.offset ++
    (pointerBytes n.children ++ suf))))[offset]? =
      some (UInt8.ofNat n.children.length) by simp [ho]]
  simp only [Option.bind_eq_bind, Option.bind_some]
  rw [← List.append_assoc pre, slice_mid (pre ++ [_]) _ _ (by simp [ho]) (by simp)]
  simp only [Option.bind_some, List.append_assoc, UInt8.toNat_ofNat', Nat.mod_eq_of_lt h.count,
    hread, Option.pure_def, fromBe_toBe hoff, Option.some.injEq, Prod.mk.injEq, true_and]
  simp [bytes]
  omega

theorem readNodes_eq (nodes : List TrieNode) (h : ∀ n ∈ nodes, n.Sized) (pre suf : Blob)
    {offset : Nat} (ho : offset = pre.length) :
    Trie.readNodes (pre ++ (nodes.flatMap TrieNode.bytes ++ suf)) nodes.length offset =
      some nodes := by
  induction nodes generalizing pre offset with
  | nil => rfl
  | cons n nodes ih =>
    have hnext : offset + n.bytes.length = (pre ++ n.bytes).length := by simp [ho]
    have hrest := ih (fun n' hn' => h n' (List.mem_cons_of_mem _ hn')) _ hnext
    rw [List.append_assoc] at hrest
    simp only [List.length_cons, Trie.readNodes, List.flatMap_cons,
      List.append_assoc, Option.bind_eq_bind]
    rw [TrieNode.deserialize_bytes (h n (List.mem_cons_self ..)) pre _ ho]
    simp only [Option.bind_some, hrest, Option.pure_def]

/-- A trie is read back from its bytes, whatever comes behind them. -/
theorem Trie.deserialize_bytes {t : Trie} (hlen : t.arena.length < 2 ^ 32)
    (h : ∀ n ∈ t.arena, n.Sized) (suf : Blob) :
    Trie.deserializeFromDisk (t.bytes ++ suf) = some t := by
  have hcount : t.arena.length < 256 ^ 4 := hlen
  have hread := readNodes_eq t.arena h (toBe 4 t.arena.length) suf (toBe_length 4 _).symm
  have hslice : slice (t.bytes ++ suf) 0 4 = some (toBe 4 t.arena.length) := by
    simp [slice, bytes]
  simp only [Trie.deserializeFromDisk, hslice, Option.bind_eq_bind, Option.bind_some,
    fromBe_toBe hcount]
  rw [bytes, List.append_assoc, hread]
  rfl

theorem Trie.deserialize_self {t : Trie} (hlen : t.arena.length < 2 ^ 32)
    (h : ∀ n ∈ t.arena, n.Sized) : Trie.deserializeFromDisk t.bytes = some t := by
  rw [← List.append_nil t.bytes]
  exact Trie.deserialize_bytes hlen h []

/-- The node count has 32 bits, so the arena itself is never too large. -/
theorem Trie.deserializeWithin_isizeMax (buffer : Blob) :
    deserializeWithin isizeMax buffer = deserializeFromDisk buffer := by
  rw [deserializeWithin, deserializeFromDisk]
  cases hcount : slice buffer 0 4 with
  | none => rfl
  | some count =>
    obtain ⟨_, _, _, hlength⟩ := slice_eq_some hcount
    have hlt := fromBe_lt count
    rw [hlength] at hlt
    have hfits : allocate isizeMax (nodeSize * fromBe count) = some () :=
      if_pos (allocates_isizeMax.mpr (by simp only [nodeSize]; omega))
    simp only [Option.bind_eq_bind, Option.bind_some, hfits]

/-- Children have different bytes. -/
theorem Ascending.bytes_nodup {children : List TriePointer} (h : Ascending children) :
    (children.map (·.1)).Nodup := by
  have hasc : (children.map (·.1)).Pairwise (· < ·) := List.pairwise_map.mpr h
  exact hasc.imp ne_of_lt

theorem length_le_256 {bytes : List UInt8} (h : bytes.Nodup) : bytes.length ≤ 256 := by
  have hnodup : (bytes.map UInt8.toNat).Nodup := h.map fun a b hab => UInt8.toNat_inj.mp hab
  have hbelow : bytes.map UInt8.toNat ⊆ List.range 256 := by
    intro n hn
    obtain ⟨b, _, rfl⟩ := List.mem_map.mp hn
    exact List.mem_range.mpr b.toNat_lt
  have hle := (List.subperm_of_subset hnodup hbelow).length_le
  rwa [List.length_map, List.length_range] at hle

namespace Trie

theorem Labeled.children_le {t : Trie} {all labels : List Blob} {m : Blob → Option Nat}
    (h : t.Labeled all labels m) {node : TrieNode} (hnode : node ∈ t.arena) :
    node.children.length ≤ 256 := by
  have hle := length_le_256 (h.ascending node hnode).bytes_nodup
  rwa [List.length_map] at hle

theorem Labeled.label {t : Trie} {all labels : List Blob} {m : Blob → Option Nat}
    (h : t.Labeled all labels m) {node : TrieNode} (hnode : node ∈ t.arena) :
    ∃ (i : Nat) (label : Blob), t.arena[i]? = some node ∧ labels[i]? = some label := by
  obtain ⟨i, hi⟩ := List.mem_iff_getElem?.mp hnode
  have hlt := (List.getElem?_eq_some_iff.mp hi).1
  exact ⟨i, _, hi, List.getElem?_eq_getElem (h.length ▸ hlt)⟩

theorem Labeled.pointers_lt {t : Trie} {all labels : List Blob} {m : Blob → Option Nat}
    (h : t.Labeled all labels m) {node : TrieNode} (hnode : node ∈ t.arena) :
    ∀ p ∈ node.children, p.2 < t.arena.length := by
  intro p hp
  obtain ⟨i, label, hi, hlabel⟩ := h.label hnode
  have hj := (h.child i node _ p.1 p.2 hi hlabel).mp hp
  rw [← h.length]
  exact (List.getElem?_eq_some_iff.mp hj).1

theorem Labeled.offset_lt {t : Trie} {all labels : List Blob} {m : Blob → Option Nat}
    (h : t.Labeled all labels m) {node : TrieNode} (hnode : node ∈ t.arena) :
    node.offset < 2 ^ 64 := by
  obtain ⟨i, label, hi, hlabel⟩ := h.label hnode
  rw [h.offset i node _ hi hlabel]
  cases hm : m label with
  | none => decide
  | some offset =>
    have hoff := h.below _ offset hm
    exact Nat.or_lt_two_pow (by omega) (by decide)

/-- A node is sized if some byte leads nowhere. -/
theorem Labeled.sized {t : Trie} {all labels : List Blob} {m : Blob → Option Nat}
    (h : t.Labeled all labels m) (hnodes : t.arena.length < 2 ^ 32)
    (hfree : ∀ label ∈ labels, ∃ c : UInt8, label ++ [c] ∉ labels) {node : TrieNode}
    (hnode : node ∈ t.arena) :
    node.Sized := by
  refine ⟨?_, ?_, h.offset_lt hnode⟩
  · obtain ⟨i, label, hi, hlabel⟩ := h.label hnode
    obtain ⟨c, hc⟩ := hfree _ (List.mem_of_getElem? hlabel)
    have hfree : c ∉ node.children.map (·.1) := by
      intro hmem
      obtain ⟨⟨c', j⟩, hp, rfl⟩ := List.mem_map.mp hmem
      have hj := (h.child i node _ c' j hi hlabel).mp hp
      exact hc (List.mem_of_getElem? hj)
    have hle := length_le_256 (List.nodup_cons.mpr ⟨hfree, (h.ascending node hnode).bytes_nodup⟩)
    rw [List.length_cons, List.length_map] at hle
    omega
  · intro p hp
    have hlt := h.pointers_lt hnode p hp
    omega

end Trie

/-- A trie of roomy prefixes is written and read back. -/
theorem Trie.Maps.codec {t : Trie} {all : List Blob} {m : Blob → Option Nat} (h : t.Maps all m)
    (hroom : Roomy all) : Trie.deserializeFromDisk t.bytes = some t := by
  rcases h with ⟨hnil, _⟩ | ⟨labels, h⟩
  · refine Trie.deserialize_self ?_ ?_
    · rw [hnil]
      decide
    · intro n hn
      rw [hnil] at hn
      cases hn
  · have hlength := h.length_le
    have hnodes := hroom.nodes
    refine Trie.deserialize_self (by omega) fun n hn =>
      h.sized (by omega) (fun label hlabel => ?_) hn
    obtain ⟨c, hc⟩ := hroom.children label (h.within hlabel)
    exact ⟨c, fun hmem => hc (h.within hmem)⟩

theorem sum_serializedSize_le {nodes : List TrieNode} {k : Nat}
    (h : ∀ n ∈ nodes, n.serializedSize ≤ k) :
    (nodes.map TrieNode.serializedSize).sum ≤ k * nodes.length := by
  induction nodes with
  | nil => simp
  | cons n nodes ih =>
    have hn := h n (List.mem_cons_self ..)
    have hrest := ih fun n' hn' => h n' (List.mem_cons_of_mem _ hn')
    rw [List.map_cons, List.sum_cons, List.length_cons, Nat.mul_add]
    omega

theorem Trie.Labeled.bytes_lt {t : Trie} {all labels : List Blob} {m : Blob → Option Nat}
    (h : t.Labeled all labels m) (hnodes : t.arena.length < 2 ^ 32) : t.bytes.length < 2 ^ 62 := by
  have hnode : ∀ n ∈ t.arena, n.serializedSize ≤ 1289 := by
    intro n hn
    have hcount := h.children_le hn
    simp only [TrieNode.serializedSize, trieNodeHeaderSize, sizePerChildNode]
    omega
  have hsum := sum_serializedSize_le hnode
  rw [Trie.bytes_length, Trie.serializedSize, trieHeaderSize]
  omega

theorem Trie.Maps.bytes_lt {t : Trie} {all : List Blob} {m : Blob → Option Nat} (h : t.Maps all m)
    (hnodes : all.length < 2 ^ 32) : t.bytes.length < 2 ^ 62 := by
  rcases h with ⟨hnil, _⟩ | ⟨labels, h⟩
  · simp [Trie.bytes, hnil]
  · exact h.bytes_lt (h.length_le.trans_lt hnodes)

/-! ## The bloom filter -/

namespace BloomFilter

/-- The words are 64 bits wide and there is at least one. -/
structure Formed (f : BloomFilter) : Prop where
  nonempty : f.bits ≠ []
  numBits : f.numBits = 64 * f.bits.length
  words : ∀ word ∈ f.bits, word < 2 ^ 64
  numHashes : f.numHashes < 2 ^ 64

def isSet (f : BloomFilter) (bit : Nat) : Prop :=
  ∃ word, f.bits[bit / 64]? = some word ∧ word.testBit (bit % 64) = true

/-- `g` has every bit of `f` and is of the same shape. -/
structure Extends (g f : BloomFilter) : Prop where
  formed : g.Formed
  numBits : g.numBits = f.numBits
  numHashes : g.numHashes = f.numHashes
  length : g.bits.length = f.bits.length
  bits : ∀ bit, f.isSet bit → g.isSet bit

/-- Every bit of the key is set. -/
def Added (f : BloomFilter) (h : Hashing) (key : Blob) : Prop :=
  ∀ i < f.numHashes, ∀ bit,
    f.bitIdx (h.hash1 key).toNat (h.hash2 key).toNat i = some bit → f.isSet bit

theorem formed_new (h : Hashing) (size : Nat) : (new h size).Formed := by
  refine ⟨?_, ?_, ?_, ?_⟩
  · have hpos : (size * 10 + 63 + 63) / 64 ≠ 0 := by omega
    simp only [new, ne_eq, List.replicate_eq_nil_iff]
    exact hpos
  · simp [new]
  · intro word hword
    rw [List.eq_of_mem_replicate hword]
    decide
  · have := (h.rounds (64 * ((size * 10 + 63 + 63) / 64)) size).toNat_lt
    simp only [new]
    omega

theorem Formed.bitIdx {f : BloomFilter} (hf : f.Formed) (h1 h2 i : Nat) :
    ∃ bit word, f.bitIdx h1 h2 i = some bit ∧ f.bits[bit / 64]? = some word := by
  have hpos : 0 < f.bits.length := List.length_pos_iff.mpr hf.nonempty
  have hne : f.numBits ≠ 0 := by
    rw [hf.numBits]
    omega
  have hlt : (h1 + i * h2 % 2 ^ 64) % 2 ^ 64 % f.numBits < f.numBits := Nat.mod_lt _ (by omega)
  rw [hf.numBits] at hlt
  have hword : (h1 + i * h2 % 2 ^ 64) % 2 ^ 64 % f.numBits / 64 < f.bits.length := by
    rw [hf.numBits]
    omega
  exact ⟨_, _, by rw [BloomFilter.bitIdx, if_neg hne], List.getElem?_eq_getElem hword⟩

theorem Extends.refl {f : BloomFilter} (hf : f.Formed) : f.Extends f :=
  ⟨hf, rfl, rfl, rfl, fun _ => id⟩

theorem Extends.trans {f g k : BloomFilter} (hkg : k.Extends g) (hgf : g.Extends f) : k.Extends f :=
  ⟨hkg.formed, hkg.numBits.trans hgf.numBits, hkg.numHashes.trans hgf.numHashes,
    hkg.length.trans hgf.length, fun bit hbit => hkg.bits bit (hgf.bits bit hbit)⟩

theorem Extends.bitIdx {f g : BloomFilter} (h : g.Extends f) (h1 h2 i : Nat) :
    g.bitIdx h1 h2 i = f.bitIdx h1 h2 i := by
  rw [BloomFilter.bitIdx, BloomFilter.bitIdx, h.numBits]

theorem Extends.added {f g : BloomFilter} (hgf : g.Extends f) {h : Hashing} {key : Blob}
    (hadded : f.Added h key) : g.Added h key := by
  intro i hi bit hbit
  rw [hgf.numHashes] at hi
  rw [hgf.bitIdx] at hbit
  exact hgf.bits bit (hadded i hi bit hbit)

/-- Setting one bit keeps the others. -/
theorem Formed.setBit {f : BloomFilter} (hf : f.Formed) {bit word : Nat}
    (hword : f.bits[bit / 64]? = some word) :
    let g : BloomFilter := { f with bits := f.bits.set (bit / 64) (word ||| 1 <<< (bit % 64)) }
    g.Extends f ∧ g.isSet bit := by
  intro g
  have hlt : bit / 64 < f.bits.length := (List.getElem?_eq_some_iff.mp hword).1
  have hself : g.isSet bit :=
    ⟨word ||| 1 <<< (bit % 64), List.getElem?_set_self hlt, by
      simp [Nat.testBit_or, Nat.one_shiftLeft, Nat.testBit_two_pow_self]⟩
  refine ⟨⟨⟨?_, ?_, ?_, hf.numHashes⟩, rfl, rfl, List.length_set, ?_⟩, hself⟩
  · intro hnil
    have := congrArg List.length hnil
    simp only [g, List.length_set, List.length_nil] at this
    omega
  · simpa [g] using hf.numBits
  · intro w hw
    rcases List.mem_or_eq_of_mem_set hw with hw | rfl
    · exact hf.words w hw
    · have hmem := hf.words word (List.mem_of_getElem? hword)
      refine Nat.or_lt_two_pow hmem ?_
      rw [Nat.one_shiftLeft]
      exact Nat.pow_lt_pow_right (by decide) (by omega)
  · rintro b ⟨w, hw, hbit⟩
    by_cases hb : bit / 64 = b / 64
    · rw [← hb, hword] at hw
      cases hw
      refine ⟨word ||| 1 <<< (bit % 64), ?_, by simp [Nat.testBit_or, hbit]⟩
      rw [← hb]
      exact List.getElem?_set_self hlt
    · exact ⟨w, by simpa only [g, List.getElem?_set_ne hb] using hw, hbit⟩

theorem insertLoop_extends (h1 h2 n i : Nat) {f : BloomFilter} (hf : f.Formed) :
    ∃ g, insertLoop h1 h2 n i f = some g ∧ g.Extends f ∧
      ∀ k, i ≤ k → k < i + n → ∀ bit, g.bitIdx h1 h2 k = some bit → g.isSet bit := by
  induction n generalizing i f with
  | zero => exact ⟨f, rfl, Extends.refl hf, fun k hk hk' => by omega⟩
  | succ n ih =>
    obtain ⟨bit, word, hbit, hword⟩ := hf.bitIdx h1 h2 i
    obtain ⟨hext, hset⟩ := hf.setBit hword
    obtain ⟨g, hloop, hg, hrest⟩ := ih (i + 1) hext.formed
    refine ⟨g, ?_, hg.trans hext, fun k hk hk' b hb => ?_⟩
    · simp only [insertLoop, hbit, hword, Option.bind_eq_bind, Option.bind_some, hloop]
    · by_cases hki : k = i
      · subst hki
        rw [(hg.trans hext).bitIdx, hbit] at hb
        cases hb
        exact hg.bits bit hset
      · exact hrest k (by omega) (by omega) b hb

theorem Formed.insert {f : BloomFilter} (hf : f.Formed) (h : Hashing) (key : Blob) :
    ∃ g, f.insert h key = some g ∧ g.Extends f ∧ g.Added h key := by
  obtain ⟨g, hloop, hg, hset⟩ :=
    insertLoop_extends (h.hash1 key).toNat (h.hash2 key).toNat f.numHashes 0 hf
  refine ⟨g, hloop, hg, fun i hi bit hbit => ?_⟩
  rw [hg.numHashes] at hi
  exact hset i (by omega) (by omega) bit hbit

theorem containsLoop_isSome {f : BloomFilter} (hf : f.Formed) (h1 h2 n i : Nat) :
    ∃ b, f.containsLoop h1 h2 n i = some b ∧
      ((∀ k, i ≤ k → k < i + n → ∀ bit, f.bitIdx h1 h2 k = some bit → f.isSet bit) → b = true) := by
  induction n generalizing i with
  | zero => exact ⟨true, rfl, fun _ => rfl⟩
  | succ n ih =>
    obtain ⟨bit, word, hbit, hword⟩ := hf.bitIdx h1 h2 i
    obtain ⟨b, hloop, hb⟩ := ih (i + 1)
    by_cases hzero : word &&& 1 <<< (bit % 64) = 0
    · refine ⟨false, by simp [containsLoop, hbit, hword, hzero], fun hall => ?_⟩
      obtain ⟨w, hw, hset⟩ := hall i (Nat.le_refl _) (by omega) bit hbit
      rw [hword] at hw
      cases hw
      have hbit := congrArg (Nat.testBit · (bit % 64)) hzero
      simp [Nat.testBit_and, Nat.one_shiftLeft, Nat.testBit_two_pow_self, hset] at hbit
    · refine ⟨b, by
        simp [containsLoop, hbit, hword, hzero, hloop], fun hall => hb fun k hk hk' => ?_⟩
      exact hall k (by omega) (by omega)

/-- A lookup does not panic. -/
theorem Formed.contains_isSome {f : BloomFilter} (hf : f.Formed) (h : Hashing) (key : Blob) :
    ∃ b, f.contains h key = some b :=
  let ⟨b, hb, _⟩ := containsLoop_isSome hf (h.hash1 key).toNat (h.hash2 key).toNat f.numHashes 0
  ⟨b, hb⟩

/-- No inserted key is missed. -/
theorem Formed.contains {f : BloomFilter} (hf : f.Formed) {h : Hashing} {key : Blob}
    (hadded : f.Added h key) : f.contains h key = some true := by
  obtain ⟨b, hb, hall⟩ :=
    containsLoop_isSome hf (h.hash1 key).toNat (h.hash2 key).toNat f.numHashes 0
  obtain rfl := hall fun k _ hk bit hbit => hadded k (by omega) bit hbit
  exact hb

/-- The filter on disk. -/
def bytes (f : BloomFilter) : Blob :=
  leb f.bits.length ++ (f.bits.flatMap (toBe 8) ++ toBe 8 f.numHashes)

theorem flatMap_toBe_length (words : List Nat) :
    (words.flatMap (toBe 8)).length = 8 * words.length := by
  induction words with
  | nil => rfl
  | cons word words ih =>
    rw [List.flatMap_cons, List.length_append, ih, toBe_length, List.length_cons]
    omega

theorem bytes_length (f : BloomFilter) :
    f.bytes.length = (leb f.bits.length).length + 8 * (f.bits.length + 1) := by
  simp only [bytes, List.length_append, flatMap_toBe_length, toBe_length]
  omega

theorem writeWords_eq (words : List Nat) (done rest : Blob)
    (hfit : 8 * words.length ≤ rest.length) {offset : Nat} (ho : offset = done.length) :
    writeWords (done ++ rest) offset words =
      some (done ++ words.flatMap (toBe 8) ++ rest.drop (8 * words.length),
        offset + 8 * words.length) := by
  induction words generalizing done rest offset with
  | nil => simp [writeWords]
  | cons word words ih =>
    rw [List.length_cons] at hfit
    simp only [writeWords, Option.bind_eq_bind]
    rw [overwrite_next done rest (toBe 8 word) ho (by simp) (by simp; omega)]
    simp only [Option.bind_some]
    rw [ih _ _ (by simp; omega) (by simp [ho])]
    simp [Nat.mul_add, Nat.add_comm, Nat.add_assoc]

/-- What `serialize` writes. -/
theorem serialize_eq {f : BloomFilter} (h : f.bytes.length < 2 ^ 63) :
    f.serialize = some f.bytes := by
  have hlen := f.bytes_length
  have hword : f.bits.length < 2 ^ 64 := by omega
  have hslice : slice (leb f.bits.length ++ List.replicate (10 - (leb f.bits.length).length) 0) 0
      (leb f.bits.length).length = some (leb f.bits.length) := Record.slice_varint _ _
  have hbody := writeWords_eq f.bits (leb f.bits.length)
    (List.replicate (8 * (f.bits.length + 1)) 0) (by rw [List.length_replicate]; omega) rfl
  have hfirst := overwrite_next [] (List.replicate ((leb f.bits.length).length +
    8 * (f.bits.length + 1)) (0 : UInt8)) (leb f.bits.length) (show 0 = ([] : Blob).length from rfl)
    (Nat.zero_add _).symm (by simp)
  simp only [List.nil_append, List.drop_replicate, Nat.add_sub_cancel_left] at hfirst hbody
  have hguard : (guard ((leb f.bits.length).length + 8 * (f.bits.length + 1) < 2 ^ 63) :
      Option Unit) = some () := by
    rw [guard, if_pos (by omega)]
    rfl
  have hlast := overwrite_next (leb f.bits.length ++ f.bits.flatMap (toBe 8))
    (List.replicate (8 * (f.bits.length + 1) - 8 * f.bits.length) (0 : UInt8)) (toBe 8 f.numHashes)
    (show (leb f.bits.length).length + 8 * f.bits.length = _ by
      rw [List.length_append, flatMap_toBe_length])
    (show (leb f.bits.length).length + 8 * f.bits.length + 8 = _ by rw [toBe_length])
    (by rw [List.length_replicate, toBe_length]; omega)
  simp only [serialize, encodeVarint_eq hword, Option.bind_eq_bind, Option.bind_some, hguard,
    hslice, hfirst, hbody, hlast]
  simp [bytes, show 8 * (f.bits.length + 1) - 8 * f.bits.length - 8 = 0 by omega]

theorem readWords_eq (words : List Nat) (h : ∀ word ∈ words, word < 2 ^ 64) (pre suf : Blob)
    {offset : Nat} (ho : offset = pre.length) :
    readWords (pre ++ (words.flatMap (toBe 8) ++ suf)) words.length offset =
      some (words, offset + 8 * words.length) := by
  induction words generalizing pre offset with
  | nil => rfl
  | cons word words ih =>
    have hword : word < 256 ^ 8 := h word (List.mem_cons_self ..)
    have hnext : offset + 8 = (pre ++ toBe 8 word).length := by simp [ho]
    have hrest := ih (fun w hw => h w (List.mem_cons_of_mem _ hw)) _ hnext
    rw [List.append_assoc] at hrest
    simp only [List.length_cons, readWords, List.flatMap_cons,
      List.append_assoc, Option.bind_eq_bind]
    rw [slice_mid pre _ _ ho (by simp)]
    simp only [Option.bind_some, hrest, Option.pure_def, fromBe_toBe hword]
    congr 2
    omega

/-- A filter is read back from its bytes. -/
theorem Formed.codec {f : BloomFilter} (hf : f.Formed) (h : f.bytes.length < 2 ^ 63) :
    fromBytes f.bytes = some f := by
  have hlen := f.bytes_length
  have hhashes : f.numHashes < 256 ^ 8 := hf.numHashes
  have hdec := decodeVarint_leb [] (f.bits.flatMap (toBe 8) ++ toBe 8 f.numHashes) f.bits.length
    rfl (by omega)
  have hread := readWords_eq f.bits hf.words (leb f.bits.length) (toBe 8 f.numHashes) rfl
  have hslice : slice f.bytes ((leb f.bits.length).length + 8 * f.bits.length)
      ((leb f.bits.length).length + 8 * f.bits.length + 8) = some (toBe 8 f.numHashes) := by
    have := slice_mid (leb f.bits.length ++ f.bits.flatMap (toBe 8)) (toBe 8 f.numHashes) []
      (show (leb f.bits.length).length + 8 * f.bits.length = _ by
        rw [List.length_append, flatMap_toBe_length])
      (show _ = _ + (toBe 8 f.numHashes).length by rw [toBe_length])
    simpa [bytes] using this
  have hguard : (guard (8 * f.bits.length < 2 ^ 63) : Option Unit) = some () := by
    rw [guard, if_pos (by omega)]
    rfl
  rw [List.nil_append] at hdec
  simp only [fromBytes]
  rw [show decodeVarint f.bytes 0 = _ from hdec]
  simp only [Option.bind_eq_bind, Option.bind_some, hguard]
  rw [show readWords f.bytes f.bits.length (leb f.bits.length).length = _ from hread]
  simp only [Option.bind_some, hslice, Option.pure_def, fromBe_toBe hhashes, ← hf.numBits]

end BloomFilter

end Lsmlite
