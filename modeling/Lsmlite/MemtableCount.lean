import Lsmlite.Lib.FirstWrites
import Lsmlite.Replay

/-!
# What a memtable counts

`current_size` counts a record when its node is new and is not the root. So the counts of the live
table and of a replay are functions of the writes alone.
-/

namespace Lsmlite
open KeyValue

def recordSize (key : Blob) (e : Entry) : Nat := (Record.of key e).size

/-- What `current_size` is after these writes. -/
def counted (ws : Entries) : Nat := firstsWeight recordSize ws

/-- What the writes made `current_size` count for `key`. -/
def countedFor (key : Blob) (ws : Entries) : Nat := firstWeight recordSize key ws

theorem counted_snoc (ws : Entries) (w : Blob × Entry) :
    counted (ws ++ [w]) =
      counted ws + if ws = [] ∨ (last w.1 ws).isSome then 0 else recordSize w.1 w.2 :=
  firstsWeight_snoc recordSize ws w

namespace MemtableInner

theorem Holds.root_eq_none {t : MemtableInner} {es : Entries} (h : t.Holds es) :
    t.rootNode = none ↔ es = [] := by
  obtain ⟨⟨tree, slot, htree, rfl⟩, _, _⟩ := h
  have hroot : t.rootNode = tree.root := htree.held.root
  rw [hroot]
  cases tree <;> simp [RedBlack.RbTree.root, RedBlack.RbTree.inorder]

/-- An insertion counts the record of a new key, unless it becomes the root. -/
theorem Holds.insertNode_currentSize {t t' : MemtableInner} {es : Entries} (h : t.Holds es)
    {key : Blob} {e : Entry} (hi : t.insertNode (.newFromRecord (Record.of key e)) = some t') :
    t'.currentSize = t.currentSize + if es = [] ∨ (last key es).isSome then 0
      else recordSize key e := by
  cases hroot : t.rootNode with
  | none =>
    rw [if_pos (Or.inl (h.root_eq_none.mp hroot))]
    simp only [MemtableInner.insertNode, insertNodeWithin, hroot,
      Option.pure_def, Option.some.injEq] at hi
    rw [← hi]
    rfl
  | some root =>
    have hne : es ≠ [] := fun hnil => by
      rw [h.root_eq_none.mpr hnil] at hroot
      cases hroot
    have hsorted := h.sorted
    obtain ⟨tree, slot, htree, rfl, hpos⟩ := h.position key hroot
    have hkey := (Record.canonical_of key e).keySlice
    rcases hpos with ⟨j, n, hj, hn, rfl, hfind⟩ | ⟨f, fs, rfl, hbefore, hafter, hfind⟩
    · have hlast := last_of_mem hsorted (List.mem_map.mpr ⟨j, hj, rfl⟩)
      rw [insertNode_existing hroot hkey hfind hn, Option.map_eq_some_iff] at hi
      obtain ⟨r, _, rfl⟩ := hi
      rw [if_pos (Or.inr (by rw [hlast]; rfl))]
      rfl
    · obtain ⟨arena', t1, hmod, hfix, hhung⟩ := insert_hung htree.held htree.black htree.perm
        (Record.of key e) (t.currentSize + (Record.of key e).size)
      rw [insertNode_new hroot hkey hfind hmod] at hi
      cases hi.symm.trans hfix
      rw [hhung.currentSize, if_neg]
      · rfl
      · rw [not_or, last_of_between hbefore hafter]
        exact ⟨hne, by simp⟩

/-- The table is what these writes make of an empty one with these limits. -/
structure Counts (t : MemtableInner) (maxSize maxNodes : Nat) (ws : Entries) : Prop where
  holds : t.Holds (ofWrites ws)
  currentSize : t.currentSize = counted ws
  capacity : t.capacity = maxNodes
  maxSize : t.maxSize = maxSize
  room : (keys ws).card ≤ maxNodes

theorem counts_new (maxSize maxNodes : Nat) (wal : Wal) :
    (new maxSize maxNodes wal).Counts maxSize maxNodes [] where
  holds := holds_new ..
  currentSize := rfl
  capacity := rfl
  maxSize := rfl
  room := Nat.zero_le _

section
variable {maxSize maxNodes : Nat} {t t' : MemtableInner} {ws : Entries}

theorem Counts.full_iff (h : t.Counts maxSize maxNodes ws) :
    t.full = false ↔ (keys ws).card < maxNodes ∧ counted ws < maxSize := by
  have hroom := h.room
  have hlength : t.arena.length = (keys ws).card := by
    rw [← h.holds.length, length_ofWrites]
  rw [full, h.currentSize, h.capacity, h.maxSize, hlength, Bool.or_eq_false_iff]
  simp only [decide_eq_false_iff_not, not_le]
  exact and_congr_left fun _ => (Nat.lt_iff_le_and_ne.trans (and_iff_right hroom)).symm

theorem Counts.inserted (h : t.Counts maxSize maxNodes ws) (hfull : t.full = false)
    {w : Blob × Entry} (hfits : Record.Fits w.1 w.2)
    (hi : t.insertNode (.newFromRecord (Record.of w.1 w.2)) = some t') :
    t'.Counts maxSize maxNodes (ws ++ [w]) ∧ Writable (ofWrites ws) w.1 w.2 ∧ t'.wal = t.wal := by
  by_cases hreach : Writable (ofWrites ws) w.1 w.2
  · obtain ⟨t1, h1, hins⟩ := h.holds.insertNode hfits hreach
    cases hi.symm.trans h1
    have hnil : ofWrites ws = [] ↔ ws = [] := by
      rw [← List.length_eq_zero_iff, length_ofWrites, Finset.card_eq_zero]
      cases ws with
      | nil => simp
      | cons w ws => simp [keys]
    refine ⟨⟨?_, ?_, hins.capacity.trans h.capacity, hins.maxSize.trans h.maxSize, ?_⟩, hreach,
      hins.wal⟩
    · rw [ofWrites_snoc]
      exact hins.holds
    · simp only [h.holds.insertNode_currentSize hi, counted_snoc,
        h.currentSize, last_ofWrites, hnil]
    · exact (card_keys_snoc ws w).trans (h.full_iff.mp hfull).1
  · rw [h.holds.insertNode_panics hfits hreach] at hi
    cases hi

/-- A replay as far as it goes. -/
theorem counts_replay (hfits : ∀ w ∈ ws, Record.Fits w.1 w.2) {wal : Wal}
    (hr : (ws.map fun w => Record.of w.1 w.2).foldlM insertRecordFromWal
      (new maxSize maxNodes wal) = some t) :
    t.Counts maxSize maxNodes ws ∧ t.wal = wal := by
  induction ws using List.reverseRecOn generalizing t with
  | nil =>
    cases hr
    exact ⟨counts_new .., rfl⟩
  | append_singleton ws w ih =>
    rw [List.map_append, List.foldlM_append, Option.bind_eq_bind, Option.bind_eq_some_iff] at hr
    obtain ⟨t1, h1, hr⟩ := hr
    obtain ⟨hcounts, hwal⟩ := ih (fun w' hw' => hfits w' (List.mem_append_left _ hw')) h1
    simp only [List.map_cons, List.map_nil, List.foldlM_cons, List.foldlM_nil, Option.bind_eq_bind,
      Option.pure_def, Option.bind_fun_some] at hr
    unfold insertRecordFromWal at hr
    split at hr
    · cases hr
    · rename_i hfull
      have hw := hfits w (List.mem_append_right _ (List.mem_singleton_self w))
      obtain ⟨hcounts', _, hwal'⟩ := hcounts.inserted (by simpa using hfull) hw hr
      exact ⟨hcounts', hwal'.trans hwal⟩

end

/-- The writes before each write leave room for a node, and the write does not panic in place. -/
def NodesFit (maxNodes : Nat) (ws : Entries) : Prop :=
  ∀ pre w rest, ws = pre ++ w :: rest → (keys pre).card < maxNodes ∧ Writable (ofWrites pre) w.1 w.2

/-- The writes before each write count less than the limit. -/
def SizesFit (maxSize : Nat) (ws : Entries) : Prop :=
  ∀ pre w rest, ws = pre ++ w :: rest → counted pre < maxSize

theorem snoc_split {ws pre rest : Entries} {v w : Blob × Entry} (h : ws ++ [v] = pre ++ w :: rest) :
    (rest = [] ∧ pre = ws ∧ w = v) ∨ ∃ rest', ws = pre ++ w :: rest' := by
  rcases List.eq_nil_or_concat rest with rfl | ⟨rest', u, rfl⟩
  · obtain ⟨hws, hv⟩ := List.append_inj' h rfl
    cases hv
    exact Or.inl ⟨rfl, hws.symm, rfl⟩
  · rw [List.concat_eq_append, ← List.cons_append, ← List.append_assoc] at h
    obtain ⟨hws, _⟩ := List.append_inj' h rfl
    exact Or.inr ⟨rest', hws⟩

theorem NodesFit.snoc {maxNodes : Nat} {ws : Entries} (h : NodesFit maxNodes ws) {v : Blob × Entry}
    (hnodes : (keys ws).card < maxNodes) (hreach : Writable (ofWrites ws) v.1 v.2) :
    NodesFit maxNodes (ws ++ [v]) := by
  intro pre w rest heq
  rcases snoc_split heq with ⟨_, rfl, rfl⟩ | ⟨rest', hws⟩
  · exact ⟨hnodes, hreach⟩
  · exact h pre w rest' hws

theorem SizesFit.snoc {maxSize : Nat} {ws : Entries} (h : SizesFit maxSize ws) {v : Blob × Entry}
    (hsize : counted ws < maxSize) : SizesFit maxSize (ws ++ [v]) := by
  intro pre w rest heq
  rcases snoc_split heq with ⟨_, rfl, _⟩ | ⟨rest', hws⟩
  · exact hsize
  · exact h pre w rest' hws

theorem SizesFit.front {maxSize : Nat} {xs ys : Entries} (h : SizesFit maxSize (xs ++ ys)) :
    SizesFit maxSize xs := by
  intro pre w rest heq
  refine h pre w (rest ++ ys) ?_
  rw [heq, List.append_assoc, List.cons_append]

theorem NodesFit.front {maxNodes : Nat} {xs ys : Entries} (h : NodesFit maxNodes (xs ++ ys)) :
    NodesFit maxNodes xs := by
  intro pre w rest heq
  refine h pre w (rest ++ ys) ?_
  rw [heq, List.append_assoc, List.cons_append]

/-- Writes that leave room for their nodes can be replayed if and only if their sizes fit. -/
theorem replay_iff {maxSize maxNodes : Nat} {ws : Entries} (hfits : ∀ w ∈ ws, Record.Fits w.1 w.2)
    (hnodes : NodesFit maxNodes ws) (wal : Wal) :
    (∃ t, (ws.map fun w => Record.of w.1 w.2).foldlM insertRecordFromWal
      (new maxSize maxNodes wal) = some t) ↔ SizesFit maxSize ws := by
  constructor
  · rintro ⟨t, hr⟩ pre w rest rfl
    rw [List.map_append, List.map_cons, List.foldlM_append] at hr
    obtain ⟨t1, h1, hr⟩ := Option.bind_eq_some_iff.mp hr
    rw [List.foldlM_cons] at hr
    obtain ⟨t2, h2, _⟩ := Option.bind_eq_some_iff.mp hr
    have hcounts := (counts_replay (fun w' hw' => hfits w' (List.mem_append_left _ hw')) h1).1
    unfold insertRecordFromWal at h2
    split at h2
    · cases h2
    · rename_i hfull
      exact (hcounts.full_iff.mp (by simpa using hfull)).2
  · intro hsizes
    induction ws using List.reverseRecOn with
    | nil => exact ⟨_, rfl⟩
    | append_singleton ws w ih =>
      have hfits' : ∀ w' ∈ ws, Record.Fits w'.1 w'.2 := fun w' hw' =>
        hfits w' (List.mem_append_left _ hw')
      have hw := hfits w (List.mem_append_right _ (List.mem_singleton_self w))
      obtain ⟨t1, h1⟩ := ih hfits' hnodes.front hsizes.front
      have hcounts := (counts_replay hfits' h1).1
      obtain ⟨hcard, hreach⟩ := hnodes ws w [] rfl
      have hfull := hcounts.full_iff.mpr ⟨hcard, hsizes ws w [] rfl⟩
      obtain ⟨t2, h2, _⟩ := hcounts.holds.insertNode hw hreach
      refine ⟨t2, ?_⟩
      rw [List.map_append, List.foldlM_append, h1]
      simp only [List.map_cons, List.map_nil, List.foldlM_cons, List.foldlM_nil,
        insertRecordFromWal, hfull, h2, Option.bind_eq_bind, Option.bind_some, Option.pure_def,
        Bool.false_eq_true, ↓reduceIte]

theorem fromWal_iff {maxSize maxNodes : Nat} {ws : Entries} (hfits : ∀ w ∈ ws, Record.Fits w.1 w.2)
    (hnodes : NodesFit maxNodes ws) (wal : Wal) :
    (∃ t, fromWal (logBlob ws) maxSize maxNodes wal = some t) ↔ SizesFit maxSize ws := by
  rw [← replay_iff hfits hnodes wal, fromWal_logBlob hfits]

end MemtableInner

end Lsmlite
