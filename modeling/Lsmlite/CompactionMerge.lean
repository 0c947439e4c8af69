import Lsmlite.SSTableMap

/-!
# The merge

What `run_compaction` pushes. Its heap orders nodes by key alone, so among the nodes of one key
the root is whichever the heap's shape brings up, and a round is about the root's record. The
newest table wins exactly in the rounds where the root carries its record (`RootNewest`).
-/

namespace Lsmlite

/-- Records of strictly increasing key. -/
def Increasing (rs : List Record) : Prop := rs.Pairwise (·.keyBytes < ·.keyBytes)

/-- The record of the lowest-indexed table that has the key. -/
def newestRecord (key : Blob) (tables : List (List Record)) : Option Record :=
  tables.findSome? fun rs => rs.find? (·.keyBytes = key)

/-- For every key, the newest table's record was pushed if it is data, and nothing else. -/
def NewestPushed (tables : List (List Record)) (pushed : List Record) : Prop :=
  ∀ key, pushed.filter (·.keyBytes = key) =
    (newestRecord key tables).toList.filter (·.recordType = .data)

/-! ## The iterators -/

namespace SSTableIterator

theorem next_some {it it' : SSTableIterator} {r : Record} (h : it.next = some (some r, it')) :
    it'.buffer = it.buffer ∧ it.offset < it'.offset ∧ it'.offset ≤ it.buffer.length ∧
      r.keySlice = some r.keyBytes := by
  unfold next at h
  split at h
  · cases h
  · rw [Option.map_eq_some_iff] at h
    obtain ⟨⟨r', offset⟩, hdec, h⟩ := h
    cases h
    obtain ⟨h1, h2, h3⟩ := Record.decodeDiskRecord_some hdec
    exact ⟨rfl, h1, h2, h3⟩

theorem Yields.length_le {it : SSTableIterator} {rs : List Record} (h : it.Yields rs) :
    rs.length ≤ it.buffer.length - it.offset := by
  induction h with
  | done => exact Nat.zero_le _
  | record h _ ih =>
    obtain ⟨hbuffer, hlt, hle, _⟩ := next_some h
    rw [hbuffer] at ih
    rw [List.length_cons]
    omega

theorem Yields.keys {it : SSTableIterator} {rs : List Record} (h : it.Yields rs) :
    ∀ r ∈ rs, r.keySlice = some r.keyBytes := by
  induction h with
  | done => simp
  | record h _ ih =>
    intro r hr
    rcases List.mem_cons.mp hr with rfl | hr
    · exact (next_some h).2.2.2
    · exact ih r hr

end SSTableIterator

/-! ## The heap -/

namespace MergeHeap

theorem reverseLe_total (a b : HeapNode) : a.reverseLe b = true ∨ b.reverseLe a = true := by
  simp only [HeapNode.reverseLe, decide_eq_true_eq]
  exact le_total _ _

theorem reverseLe_trans (a b c : HeapNode) (hab : a.reverseLe b = true)
    (hbc : b.reverseLe c = true) :
    a.reverseLe c = true := by
  simp only [HeapNode.reverseLe, decide_eq_true_eq] at *
  exact le_trans hbc hab

end MergeHeap

namespace Merge

/-- The tables have still to give `rem`; the head of a seeded table's list is in the heap. -/
structure Seeds (m : Merge) (rem : List (List Record)) (seeded : Nat → Prop) : Prop where
  length : m.tableIters.length = rem.length
  ready : ∀ (i : Nat) (it : SSTableIterator) (r : Record) (rs : List Record), seeded i →
    m.tableIters[i]? = some it → rem[i]? = some (r :: rs) → it.Yields rs
  waiting : ∀ (i : Nat) (it : SSTableIterator) (rs : List Record), ¬ seeded i →
    m.tableIters[i]? = some it → rem[i]? = some rs → it.Yields rs
  nodes : ∀ node : HeapNode, node ∈ m.heap ↔
    seeded node.tableIdx ∧ ∃ rs, rem[node.tableIdx]? = some (node.record :: rs)
  nodup : m.heap.Nodup
  heap : ArrayHeap.IsHeap HeapNode.reverseLe m.heap
  keys : ∀ rs ∈ rem, ∀ r ∈ rs, r.keySlice = some r.keyBytes

theorem Seeds.congr {m : Merge} {rem : List (List Record)} {seeded seeded' : Nat → Prop}
    (h : m.Seeds rem seeded) (hs : ∀ i, i < rem.length → (seeded i ↔ seeded' i)) :
    m.Seeds rem seeded' := by
  refine ⟨h.length, fun i it r rs hi hit hrs => ?_, fun i it rs hi hit hrs => ?_, fun node => ?_,
    h.nodup, h.heap, h.keys⟩
  · exact h.ready i it r rs ((hs i (List.getElem?_eq_some_iff.mp hrs).1).mpr hi) hit hrs
  · exact h.waiting i it rs
      (fun hi' => hi ((hs i (List.getElem?_eq_some_iff.mp hrs).1).mp hi')) hit hrs
  · rw [h.nodes]
    refine and_congr_left fun hrs => ?_
    obtain ⟨rs, hrs⟩ := hrs
    exact hs _ (List.getElem?_eq_some_iff.mp hrs).1

/-- A table without its head in the heap gets it there. -/
theorem Seeds.refill {m : Merge} {rem : List (List Record)} {seeded : Nat → Prop}
    (h : m.Seeds rem seeded) {i : Nat} (hi : i < rem.length) (hseeded : ¬ seeded i) :
    ∃ m', m.refill i = some m' ∧ m'.Seeds rem (fun j => seeded j ∨ j = i) := by
  obtain ⟨it, hit⟩ : ∃ it, m.tableIters[i]? = some it :=
    ⟨_, List.getElem?_eq_getElem (h.length ▸ hi)⟩
  obtain ⟨rs, hrs⟩ : ∃ rs, rem[i]? = some rs := ⟨_, List.getElem?_eq_getElem hi⟩
  have hother : ∀ {it' : SSTableIterator} {j : Nat} {it'' : SSTableIterator}, j ≠ i →
      (m.tableIters.set i it')[j]? = some it'' → m.tableIters[j]? = some it'' := by
    intro it' j it'' hj hget
    rwa [List.getElem?_set_ne (Ne.symm hj)] at hget
  cases h.waiting i it rs hseeded hit hrs with
  | @done _ it' hnext =>
    refine ⟨⟨m.heap, m.tableIters.set i it'⟩, ?_, ?_⟩
    · simp only [Merge.refill, hit, hnext, Option.bind_eq_bind, Option.bind_some, Option.pure_def]
    · refine ⟨by simpa using h.length, fun j jt r rs' hj hjt hrs' => ?_,
        fun j jt rs' hj hjt hrs' => ?_, fun node => ?_, h.nodup, h.heap, h.keys⟩
      · have hji : j ≠ i := by
          rintro rfl
          cases hrs.symm.trans hrs'
        exact h.ready j jt r rs' (hj.resolve_right hji) (hother hji hjt) hrs'
      · rw [not_or] at hj
        exact h.waiting j jt rs' hj.1 (hother hj.2 hjt) hrs'
      · rw [h.nodes]
        refine and_congr_left fun hrs' => ⟨Or.inl, fun hj => hj.resolve_right ?_⟩
        rintro hji
        obtain ⟨rs', hrs'⟩ := hrs'
        rw [hji] at hrs'
        cases hrs.symm.trans hrs'
  | @record _ it' r rs' hnext hrest =>
    have hperm := ArrayHeap.push_perm HeapNode.reverseLe m.heap ⟨r, i⟩
    have hnew : (⟨r, i⟩ : HeapNode) ∉ m.heap := fun hmem => hseeded ((h.nodes _).mp hmem).1
    refine ⟨⟨m.heap.push ⟨r, i⟩, m.tableIters.set i it'⟩, ?_, ?_⟩
    · simp only [Merge.refill, hit, hnext, Option.bind_eq_bind, Option.bind_some, Option.pure_def]
    · refine ⟨by simpa using h.length, fun j jt r' rs'' hj hjt hrs'' => ?_,
        fun j jt rs'' hj hjt hrs'' => ?_, fun node => ?_, ?_, ?_, h.keys⟩
      · by_cases hji : j = i
        · subst hji
          cases hrs.symm.trans hrs''
          rw [List.getElem?_set_self (List.getElem?_eq_some_iff.mp hit).1] at hjt
          cases hjt
          exact hrest
        · exact h.ready j jt r' rs'' (hj.resolve_right hji) (hother hji hjt) hrs''
      · rw [not_or] at hj
        exact h.waiting j jt rs'' hj.1 (hother hj.2 hjt) hrs''
      · rw [MergeHeap.push, hperm.mem_iff, List.mem_cons, h.nodes]
        constructor
        · rintro (rfl | ⟨hs, hrs'⟩)
          · exact ⟨Or.inr rfl, rs', hrs⟩
          · exact ⟨Or.inl hs, hrs'⟩
        · rintro ⟨hs | hji, rs'', hrs''⟩
          · exact Or.inr ⟨hs, rs'', hrs''⟩
          · left
            obtain ⟨record, tableIdx⟩ := node
            simp only at hji hrs''
            subst hji
            cases hrs.symm.trans hrs''
            rfl
      · exact hperm.nodup_iff.mpr (List.nodup_cons.mpr ⟨hnew, h.nodup⟩)
      · exact ArrayHeap.push_heap MergeHeap.reverseLe_total MergeHeap.reverseLe_trans h.heap _

/-- The root's table gives its record. -/
theorem Seeds.pop {m : Merge} {rem : List (List Record)} {seeded : Nat → Prop}
    (h : m.Seeds rem seeded) {node : HeapNode} {heap : MergeHeap}
    (hpop : m.heap.pop = some (node, heap)) :
    m.heap.head? = some node ∧ seeded node.tableIdx ∧
      ∃ rs, rem[node.tableIdx]? = some (node.record :: rs) ∧
      Seeds ⟨heap, m.tableIters⟩ (rem.set node.tableIdx rs) (fun j => seeded j ∧
        j ≠ node.tableIdx) := by
  obtain ⟨hhead, hperm⟩ := ArrayHeap.pop_cases _ hpop
  have hnode : node ∈ m.heap := List.mem_of_head? hhead
  obtain ⟨hseeded, rs, hrs⟩ := (h.nodes node).mp hnode
  have hlt := (List.getElem?_eq_some_iff.mp hrs).1
  obtain ⟨hfresh, hnodup⟩ := List.nodup_cons.mp (hperm.nodup_iff.mp h.nodup)
  have hother : ∀ {j : Nat} {rs' : List Record}, j ≠ node.tableIdx →
      (rem.set node.tableIdx rs)[j]? = some rs' → rem[j]? = some rs' := by
    intro j rs' hj hget
    rwa [List.getElem?_set_ne (Ne.symm hj)] at hget
  refine ⟨hhead, hseeded, rs, hrs, ⟨by simpa using h.length, fun j it r rs' hj hit hrs' => ?_,
    fun j it rs' hj hit hrs' => ?_, fun n => ?_, hnodup, ?_, ?_⟩⟩
  · exact h.ready j it r rs' hj.1 hit (hother hj.2 hrs')
  · by_cases hji : j = node.tableIdx
    · subst hji
      rw [List.getElem?_set_self hlt] at hrs'
      cases hrs'
      exact h.ready _ it _ rs hseeded hit hrs
    · exact h.waiting j it rs' (fun hs => hj ⟨hs, hji⟩) hit (hother hji hrs')
  · have hmem : n ∈ heap ↔ n ∈ m.heap ∧ n ≠ node := by
      rw [hperm.mem_iff, List.mem_cons]
      constructor
      · intro hn
        exact ⟨Or.inr hn, fun he => hfresh (he ▸ hn)⟩
      · rintro ⟨hn | hn, hne⟩
        · exact absurd hn hne
        · exact hn
    rw [hmem, h.nodes]
    constructor
    · rintro ⟨⟨hs, rs', hrs'⟩, hne⟩
      have hidx : n.tableIdx ≠ node.tableIdx := by
        intro he
        rw [he] at hrs'
        have hsame := Option.some.inj (hrs.symm.trans hrs')
        refine hne ?_
        obtain ⟨record, tableIdx⟩ := n
        obtain ⟨record', tableIdx'⟩ := node
        rw [HeapNode.mk.injEq]
        exact ⟨(List.cons.inj hsame).1.symm, he⟩
      exact ⟨⟨hs, hidx⟩, rs', by rwa [List.getElem?_set_ne (Ne.symm hidx)]⟩
    · rintro ⟨⟨hs, hidx⟩, rs', hrs'⟩
      exact ⟨⟨hs, rs', hother hidx hrs'⟩, fun he => hidx (by rw [he])⟩
  · exact ArrayHeap.pop_heap MergeHeap.reverseLe_total MergeHeap.reverseLe_trans h.heap hpop
  · intro rs' hrs' r hr
    rcases List.mem_or_eq_of_mem_set hrs' with hrs' | rfl
    · exact h.keys rs' hrs' r hr
    · exact h.keys _ (List.mem_of_getElem? hrs) r (List.mem_cons_of_mem _ hr)

/-- The root's key is the least in the heap. -/
theorem Seeds.root_le {m : Merge} {rem : List (List Record)} {seeded : Nat → Prop}
    (h : m.Seeds rem seeded) {root : HeapNode} (hroot : m.heap.head? = some root) {node : HeapNode}
    (hnode : node ∈ m.heap) : root.record.keyBytes ≤ node.record.keyBytes := by
  have :=
    ArrayHeap.heap_root MergeHeap.reverseLe_total MergeHeap.reverseLe_trans h.heap hroot node hnode
  simpa only [HeapNode.reverseLe, decide_eq_true_eq] using this

/-! ## One round -/

/-- The tables without the records of a key. -/
def without (key : Blob) (rem : List (List Record)) : List (List Record) :=
  rem.map fun rs => rs.filter (·.keyBytes ≠ key)

/-- The number of records left. -/
def left (rem : List (List Record)) : Nat := (rem.map List.length).sum

theorem without_of_ne {key : Blob} {rem : List (List Record)}
    (h : ∀ rs ∈ rem, ∀ r ∈ rs, r.keyBytes ≠ key) : without key rem = rem := by
  rw [without]
  conv_rhs => rw [← List.map_id rem]
  refine List.map_congr_left fun rs hrs => ?_
  rw [id, List.filter_eq_self]
  exact fun r hr => decide_eq_true (h rs hrs r hr)

/-- Taking a record of the key away first changes nothing. -/
theorem without_set {key : Blob} {rem : List (List Record)} {i : Nat} {r : Record}
    {rs : List Record} (hi : rem[i]? = some (r :: rs)) (hr : r.keyBytes = key) :
    without key (rem.set i rs) = without key rem := by
  obtain ⟨hlt, hget⟩ := List.getElem?_eq_some_iff.mp hi
  rw [without, without, List.map_set]
  refine List.ext_getElem? fun j => ?_
  by_cases hj : i = j
  · subst hj
    rw [List.getElem?_set_self (by simpa using hlt), List.getElem?_map, hi, Option.map_some,
      List.filter_cons_of_neg (by simp [hr])]
  · rw [List.getElem?_set_ne hj]

theorem left_set {rem : List (List Record)} {i : Nat} {r : Record} {rs : List Record}
    (hi : rem[i]? = some (r :: rs)) : left (rem.set i rs) + 1 = left rem := by
  induction rem generalizing i with
  | nil => simp at hi
  | cons first rem ih =>
    cases i with
    | zero =>
      cases hi
      simp only [List.set_cons_zero, left, List.map_cons, List.sum_cons, List.length_cons]
      omega
    | succ i =>
      have := ih hi
      simp only [left, List.set_cons_succ, List.map_cons, List.sum_cons] at this ⊢
      omega

theorem left_without_le (key : Blob) (rem : List (List Record)) :
    left (without key rem) ≤ left rem := by
  induction rem with
  | nil => exact Nat.le_refl _
  | cons rs rem ih =>
    have := List.length_filter_le (fun r : Record => decide (r.keyBytes ≠ key)) rs
    simp only [left, without, List.map_cons, List.sum_cons] at ih ⊢
    omega

/-- What a table has left is in order and not before `key`. -/
def From (key : Blob) (rem : List (List Record)) : Prop :=
  ∀ rs ∈ rem, ∀ r ∈ rs, key ≤ r.keyBytes

/-- The heads bound everything behind them. -/
theorem from_of_heads {rem : List (List Record)} (hinc : ∀ rs ∈ rem, Increasing rs) {key : Blob}
    (hheads : ∀ r rs, r :: rs ∈ rem → key ≤ r.keyBytes) : From key rem := by
  intro rs hrs r hr
  cases rs with
  | nil => cases hr
  | cons first rest =>
    have hfirst := hheads first rest hrs
    rcases List.mem_cons.mp hr with rfl | hr
    · exact hfirst
    · exact le_trans hfirst (le_of_lt ((List.pairwise_cons.mp (hinc _ hrs)).1 r hr))

theorem increasing_set {rem : List (List Record)} (hinc : ∀ rs ∈ rem, Increasing rs) {i : Nat}
    {r : Record} {rs : List Record} (hi : rem[i]? = some (r :: rs)) :
    ∀ rs' ∈ rem.set i rs, Increasing rs' := by
  intro rs' hrs'
  rcases List.mem_or_eq_of_mem_set hrs' with hrs' | rfl
  · exact hinc rs' hrs'
  · exact (List.pairwise_cons.mp (hinc _ (List.mem_of_getElem? hi))).2

/-- The inner loop takes the records of the key from all seeded tables. -/
theorem Seeds.dropEqual {key : Blob} {fuel : Nat} {m : Merge} {rem : List (List Record)}
    {seeded : Nat → Prop} (h : m.Seeds rem seeded) (hinc : ∀ rs ∈ rem, Increasing rs)
    (hfrom : From key rem)
    (hrest : ∀ i rs, ¬ seeded i → rem[i]? = some rs → ∀ r ∈ rs, r.keyBytes ≠ key)
    (hfuel : left rem < fuel) :
    ∃ m', m.dropEqual key fuel = some m' ∧ m'.Seeds (without key rem) seeded := by
  induction fuel generalizing m rem with
  | zero => omega
  | succ fuel ih =>
    -- No table has a record of the key where no node has one.
    have hnone : (∀ node ∈ m.heap, node.record.keyBytes ≠ key) → without key rem = rem := by
      intro hnodes
      refine without_of_ne fun rs hrs r hr hkey => ?_
      obtain ⟨i, hi⟩ := List.mem_iff_getElem?.mp hrs
      by_cases hs : seeded i
      · cases rs with
        | nil => cases hr
        | cons first rest =>
          have hfirst := hnodes ⟨first, i⟩ ((h.nodes _).mpr ⟨hs, rest, hi⟩)
          have hle := hfrom _ hrs first (List.mem_cons_self ..)
          rcases List.mem_cons.mp hr with rfl | hr
          · exact hfirst hkey
          · have hlt := (List.pairwise_cons.mp (hinc _ hrs)).1 r hr
            rw [hkey] at hlt
            exact absurd hlt (not_lt_of_ge hle)
      · exact hrest i rs hs hi r hr hkey
    unfold Merge.dropEqual
    cases hhead : m.heap.head? with
    | none =>
      rw [List.head?_eq_none_iff] at hhead
      refine ⟨m, rfl, ?_⟩
      rw [hnone (by rw [hhead]; simp)]
      exact h
    | some node =>
      have hmem := List.mem_of_head? hhead
      obtain ⟨hseeded, rs, hrs⟩ := (h.nodes node).mp hmem
      have hkeys := h.keys _ (List.mem_of_getElem? hrs) node.record (List.mem_cons_self ..)
      simp only [hkeys, Option.bind_eq_bind, Option.bind_some]
      split
      · rename_i hne
        refine ⟨m, rfl, ?_⟩
        rw [hnone fun n hn heq => hne ?_]
        · exact h
        · have hle := h.root_le hhead hn
          rw [heq] at hle
          exact le_antisymm hle (hfrom _ (List.mem_of_getElem? hrs) _ (List.mem_cons_self ..))
      · rename_i heq
        rw [not_not] at heq
        obtain ⟨⟨node', heap⟩, hpop⟩ : ∃ popped, m.heap.pop = some popped := by
          rw [← Option.ne_none_iff_exists']
          intro hpop
          rw [ArrayHeap.pop_eq_none_iff _ |>.mp hpop] at hhead
          cases hhead
        obtain ⟨hhead', _, rs', hrs', hpopped⟩ := h.pop hpop
        cases hhead.symm.trans hhead'
        cases hrs.symm.trans hrs'
        have hlt := (List.getElem?_eq_some_iff.mp hrs).1
        obtain ⟨m1, hrefill, h1⟩ := hpopped.refill (i := node.tableIdx) (by simpa using hlt)
          fun hs => hs.2 rfl
        have h2 : m1.Seeds (rem.set node.tableIdx rs) seeded := by
          refine h1.congr fun i _ => ⟨?_, fun hi => ?_⟩
          · rintro (hi | rfl)
            · exact hi.1
            · exact hseeded
          · by_cases hij : i = node.tableIdx
            · exact Or.inr hij
            · exact Or.inl ⟨hi, hij⟩
        have hleft := left_set hrs
        obtain ⟨m', hdrop, h'⟩ := ih h2 (increasing_set hinc hrs)
          (fun rs' hrs' r hr => by
            rcases List.mem_or_eq_of_mem_set hrs' with hrs' | rfl
            · exact hfrom rs' hrs' r hr
            · exact hfrom _ (List.mem_of_getElem? hrs) r (List.mem_cons_of_mem _ hr))
          (fun i rs' hi hget => by
            have hij : node.tableIdx ≠ i := fun hij => hi (hij ▸ hseeded)
            rw [List.getElem?_set_ne hij] at hget
            exact hrest i rs' hi hget) (by omega)
        rw [without_set hrs heq] at h'
        simp only [hpop, hrefill, Option.bind_some]
        exact ⟨m', hdrop, h'⟩

/-- A round is about the root's record and takes every record of its key. -/
theorem Seeds.round {m : Merge} {rem : List (List Record)} (h : m.Seeds rem fun _ => True)
    (hinc : ∀ rs ∈ rem, Increasing rs) {fuel : Nat} (hfuel : left rem ≤ fuel) :
    (m.heap = [] ∧ m.round fuel = some none ∧ ∀ rs ∈ rem, rs = []) ∨
    ∃ root m', m.heap.head? = some root ∧ m.round fuel = some (some (root.record, m')) ∧
      m'.Seeds (without root.record.keyBytes rem) (fun _ => True) ∧
      From root.record.keyBytes rem ∧ left (without root.record.keyBytes rem) < left rem := by
  cases hpop : m.heap.pop with
  | none =>
    have hnil := (ArrayHeap.pop_eq_none_iff _).mp hpop
    refine Or.inl ⟨hnil, by rw [Merge.round, hpop], fun rs hrs => ?_⟩
    cases rs with
    | nil => rfl
    | cons r rs =>
      obtain ⟨i, hi⟩ := List.mem_iff_getElem?.mp hrs
      have := (h.nodes ⟨r, i⟩).mpr ⟨trivial, rs, hi⟩
      rw [hnil] at this
      cases this
  | some popped =>
    obtain ⟨root, heap⟩ := popped
    obtain ⟨hhead, _, rs, hrs, hpopped⟩ := h.pop hpop
    have hmem := List.mem_of_getElem? hrs
    have hlt := (List.getElem?_eq_some_iff.mp hrs).1
    have hfrom : From root.record.keyBytes rem := by
      refine from_of_heads hinc fun r rs' hrs' => ?_
      obtain ⟨i, hi⟩ := List.mem_iff_getElem?.mp hrs'
      exact h.root_le hhead ((h.nodes ⟨r, i⟩).mpr ⟨trivial, rs', hi⟩)
    have hrest : ∀ r ∈ rs, r.keyBytes ≠ root.record.keyBytes := fun r hr =>
      ne_of_gt ((List.pairwise_cons.mp (hinc _ hmem)).1 r hr)
    have hleft := left_set hrs
    have hfrom' : From root.record.keyBytes (rem.set root.tableIdx rs) := by
      intro rs' hrs' r hr
      rcases List.mem_or_eq_of_mem_set hrs' with hrs' | rfl
      · exact hfrom rs' hrs' r hr
      · exact hfrom _ hmem r (List.mem_cons_of_mem _ hr)
    obtain ⟨m1, hdrop, h1⟩ := hpopped.dropEqual (increasing_set hinc hrs) hfrom'
      (fun i rs' hi hget => by
        have hi' : i = root.tableIdx := by
          by_contra hne
          exact hi ⟨trivial, hne⟩
        rw [hi', List.getElem?_set_self hlt] at hget
        cases hget
        exact hrest) (show _ < fuel by omega)
    rw [without_set hrs rfl] at h1
    have hlen : (without root.record.keyBytes rem).length = rem.length := List.length_map _
    obtain ⟨m2, hrefill, h2⟩ := h1.refill (i := root.tableIdx) (by omega) fun hs => hs.2 rfl
    refine Or.inr ⟨root, m2, hhead, ?_, h2.congr fun i _ => ?_, hfrom, ?_⟩
    · have hkeys := h.keys _ hmem root.record (List.mem_cons_self ..)
      simp only [Merge.round, hpop, hkeys, hdrop, hrefill, Option.bind_eq_bind, Option.bind_some,
        Option.pure_def]
    · exact iff_of_true (by by_cases hi : i = root.tableIdx <;> simp [hi]) trivial
    · have := left_without_le root.record.keyBytes (rem.set root.tableIdx rs)
      rw [without_set hrs rfl] at this
      omega

/-- Every table's first record is seeded. -/
theorem start_seeds {tableIters : List SSTableIterator} {tables : List (List Record)}
    (hy : List.Forall₂ SSTableIterator.Yields tableIters tables) :
    ∃ m, start tableIters = some m ∧ m.Seeds tables fun _ => True := by
  have hlen := hy.length_eq
  have hat : ∀ {i : Nat} {it : SSTableIterator} {rs : List Record}, tableIters[i]? = some it →
      tables[i]? = some rs → it.Yields rs := by
    intro i it rs hit hrs
    obtain ⟨hi, rfl⟩ := List.getElem?_eq_some_iff.mp hit
    obtain ⟨hi', rfl⟩ := List.getElem?_eq_some_iff.mp hrs
    exact List.Forall₂.get hy hi hi'
  have hempty : (⟨[], tableIters⟩ : Merge).Seeds tables fun i => i < 0 := by
    refine ⟨hlen, fun i _ _ _ hi => absurd hi (Nat.not_lt_zero i), fun i it rs _ => hat,
      fun node => ?_, List.nodup_nil, fun i _ a b ha => by simp at ha, fun rs hrs r hr => ?_⟩
    · simp
    · obtain ⟨i, hi⟩ := List.mem_iff_getElem?.mp hrs
      have hlt := (List.getElem?_eq_some_iff.mp hi).1
      exact (hat (List.getElem?_eq_getElem (hlen ▸ hlt)) hi).keys r hr
  have hprefix : ∀ n, n ≤ tables.length → ∃ m,
      (List.range n).foldlM Merge.refill ⟨[], tableIters⟩ = some m ∧
          m.Seeds tables fun i => i < n := by
    intro n
    induction n with
    | zero => exact fun _ => ⟨_, rfl, hempty⟩
    | succ n ih =>
      intro hn
      obtain ⟨m, hm, h⟩ := ih (by omega)
      obtain ⟨m', hrefill, h'⟩ := h.refill (i := n) hn (Nat.lt_irrefl n)
      refine ⟨m', ?_, h'.congr fun i _ => by omega⟩
      rw [List.range_succ, List.foldlM_append, hm]
      simp [hrefill]
  obtain ⟨m, hm, h⟩ := hprefix tables.length (Nat.le_refl _)
  exact ⟨m, by rw [start, hlen, hm], h.congr fun i hi => iff_of_true hi trivial⟩

/-! ## The run -/

/-- The states at the beginning of the rounds that follow `m`. -/
inductive Rounds (fuel : Nat) : Merge → Merge → Prop where
  | here (m : Merge) : Rounds fuel m m
  | next {m m' m'' : Merge} {record : Record} (h : m.round fuel = some (some (record, m')))
      (hrest : Rounds fuel m' m'') : Rounds fuel m m''

/-- The root carries what the lowest-indexed table has under the root's key, or both are
tombstones. -/
def RootNewest (m : Merge) : Prop :=
  ∀ root newest : HeapNode, m.heap.head? = some root → newest ∈ m.heap →
    newest.record.keyBytes = root.record.keyBytes →
    (∀ node ∈ m.heap, node.record.keyBytes = root.record.keyBytes →
      newest.tableIdx ≤ node.tableIdx) →
    root.record = newest.record ∨
      root.record.recordType = .tombstone ∧ newest.record.recordType = .tombstone

theorem newestRecord_without_self (key : Blob) (rem : List (List Record)) :
    newestRecord key (without key rem) = none := by
  rw [newestRecord, List.findSome?_eq_none_iff]
  intro rs hrs
  obtain ⟨rs', _, rfl⟩ := List.mem_map.mp hrs
  rw [List.find?_eq_none]
  intro r hr
  simpa using (List.mem_filter.mp hr).2

theorem newestRecord_without {key key' : Blob} (hne : key' ≠ key) (rem : List (List Record)) :
    newestRecord key' (without key rem) = newestRecord key' rem := by
  rw [newestRecord, without, List.findSome?_map, newestRecord]
  congr 1
  funext rs
  rw [Function.comp, List.find?_filter]
  congr 1
  funext r
  by_cases hr : r.keyBytes = key' <;> simp [hr, hne]

/-- The node of the lowest-indexed table with the root's key. -/
theorem Seeds.newest {m : Merge} {rem : List (List Record)} (h : m.Seeds rem fun _ => True)
    (hinc : ∀ rs ∈ rem, Increasing rs) {root : HeapNode} (hroot : m.heap.head? = some root)
    (hfrom : From root.record.keyBytes rem) :
    ∃ low ∈ m.heap, low.record.keyBytes = root.record.keyBytes ∧
      (∀ node ∈ m.heap, node.record.keyBytes = root.record.keyBytes →
        low.tableIdx ≤ node.tableIdx) ∧
      newestRecord root.record.keyBytes rem = some low.record := by
  obtain ⟨r, hr⟩ : ∃ r, newestRecord root.record.keyBytes rem = some r := by
    rw [← Option.ne_none_iff_exists', newestRecord, Ne, List.findSome?_eq_none_iff]
    intro hnone
    obtain ⟨_, rs, hrs⟩ := (h.nodes root).mp (List.mem_of_head? hroot)
    have := List.find?_eq_none.mp (hnone _ (List.mem_of_getElem? hrs)) root.record
      (List.mem_cons_self ..)
    simp at this
  obtain ⟨before, rs, after, hrem, hfind, hbefore⟩ := List.findSome?_eq_some_iff.mp hr
  have hkey : r.keyBytes = root.record.keyBytes := by simpa using List.find?_some hfind
  -- Nothing in the table comes before its record of the key.
  obtain ⟨rest, rfl⟩ : ∃ rest, rs = r :: rest := by
    have hmem : rs ∈ rem := by rw [hrem]; simp
    cases rs with
    | nil => cases hfind
    | cons first rest =>
      rcases List.mem_cons.mp (List.mem_of_find?_eq_some hfind) with rfl | hin
      · exact ⟨rest, rfl⟩
      · have hlt := (List.pairwise_cons.mp (hinc _ hmem)).1 r hin
        rw [hkey] at hlt
        exact absurd hlt (not_lt_of_ge (hfrom _ hmem first (List.mem_cons_self ..)))
  have hat : rem[before.length]? = some (r :: rest) := by
    rw [hrem, List.getElem?_append_right (Nat.le_refl _), Nat.sub_self]
    rfl
  refine ⟨⟨r, before.length⟩, (h.nodes _).mpr ⟨trivial, rest, hat⟩, hkey,
    fun node hnode hnk => ?_, hr⟩
  by_contra hlt
  rw [not_le] at hlt
  obtain ⟨_, rs', hrs'⟩ := (h.nodes node).mp hnode
  rw [hrem, List.getElem?_append_left hlt] at hrs'
  have := List.find?_eq_none.mp (hbefore _ (List.mem_of_getElem? hrs')) node.record
    (List.mem_cons_self ..)
  exact this (by simpa using hnk)

/-- The rule for the root, with the lowest-indexed node named. -/
theorem Seeds.rootNewest_iff {m : Merge} {rem : List (List Record)} (h : m.Seeds rem fun _ => True)
    {root low : HeapNode} (hroot : m.heap.head? = some root) (hlow : low ∈ m.heap)
    (hkey : low.record.keyBytes = root.record.keyBytes)
    (hmin : ∀ node ∈ m.heap, node.record.keyBytes = root.record.keyBytes →
      low.tableIdx ≤ node.tableIdx) :
    m.RootNewest ↔ root.record = low.record ∨
      root.record.recordType = .tombstone ∧ low.record.recordType = .tombstone := by
  constructor
  · exact fun hnew => hnew root low hroot hlow hkey hmin
  · intro hor root' newest hroot' hnewest hnk hnmin
    cases hroot.symm.trans hroot'
    have hidx : newest.tableIdx = low.tableIdx :=
      Nat.le_antisymm (hnmin low hlow hkey) (hmin newest hnewest hnk)
    obtain ⟨_, rs, hrs⟩ := (h.nodes low).mp hlow
    obtain ⟨_, rs', hrs'⟩ := (h.nodes newest).mp hnewest
    rw [hidx, hrs] at hrs'
    rw [← (List.cons.inj (Option.some.inj hrs')).1]
    exact hor

theorem recordType_ne_data {r : Record} : ¬ r.recordType = .data ↔ r.recordType = .tombstone := by
  cases r.recordType <;> simp

/-- A round pushes what the rule says for its key exactly if the root is right. -/
theorem push_iff (root low : Record) :
    [root].filter (·.recordType = .data) = [low].filter (·.recordType = .data) ↔
      root = low ∨ root.recordType = .tombstone ∧ low.recordType = .tombstone := by
  by_cases hr : root.recordType = .data
  · by_cases hl : low.recordType = .data
    · simp [hr, hl]
    · have hne : root ≠ low := fun he => hl (he ▸ hr)
      simp [hr, hl, hne]
  · by_cases hl : low.recordType = .data
    · have hne : root ≠ low := fun he => hr (he ▸ hl)
      simp [hr, hl, hne]
    · simp [recordType_ne_data.mp hr, recordType_ne_data.mp hl]

theorem newestPushed_round {rem : List (List Record)} {root low : Record} {out : List Record}
    (hlow : newestRecord root.keyBytes rem = some low)
    (hout : ∀ r ∈ out, ∃ rs ∈ without root.keyBytes rem, r ∈ rs) :
    NewestPushed rem ([root].filter (·.recordType = .data) ++ out) ↔
      (root = low ∨ root.recordType = .tombstone ∧ low.recordType = .tombstone) ∧
        NewestPushed (without root.keyBytes rem) out := by
  have hnone : out.filter (·.keyBytes = root.keyBytes) = [] := by
    rw [List.filter_eq_nil_iff]
    intro r hr
    obtain ⟨rs, hrs, hmem⟩ := hout r hr
    obtain ⟨rs', _, rfl⟩ := List.mem_map.mp hrs
    simpa using (List.mem_filter.mp hmem).2
  have hsame : ([root].filter (·.recordType = .data)).filter (·.keyBytes = root.keyBytes) =
      [root].filter (·.recordType = .data) := by
    rw [List.filter_eq_self]
    intro r hr
    rw [List.mem_singleton.mp (List.mem_filter.mp hr).1]
    simp
  have hother : ∀ key, key ≠ root.keyBytes →
      ([root].filter (·.recordType = .data) ++ out).filter (·.keyBytes = key) =
        out.filter (·.keyBytes = key) := by
    intro key hne
    have hnil : ([root].filter (·.recordType = .data)).filter (·.keyBytes = key) = [] := by
      rw [List.filter_eq_nil_iff]
      intro r hr
      rw [List.mem_singleton.mp (List.mem_filter.mp hr).1]
      simpa using hne.symm
    rw [List.filter_append, hnil, List.nil_append]
  constructor
  · intro hp
    constructor
    · have := hp root.keyBytes
      rw [List.filter_append, hsame, hnone, List.append_nil, hlow] at this
      exact (push_iff root low).mp this
    · intro key
      by_cases hkey : key = root.keyBytes
      · rw [hkey, hnone, newestRecord_without_self]
        rfl
      · rw [newestRecord_without hkey, ← hp key, hother key hkey]
  · rintro ⟨hroot, hp⟩ key
    by_cases hkey : key = root.keyBytes
    · rw [hkey, List.filter_append, hsame, hnone, List.append_nil, hlow]
      exact (push_iff root low).mpr hroot
    · rw [hother key hkey, hp key, newestRecord_without hkey]

/-- Every key of the tables has a round, about some table's record. -/
def Covers (rem : List (List Record)) (out : List Record) : Prop :=
  ∀ rs ∈ rem, ∀ r ∈ rs, ∃ rs' ∈ rem, ∃ r' ∈ rs', r'.keyBytes = r.keyBytes ∧
    (r'.recordType = .data → r' ∈ out)

/-- What the outer loop pushes, whatever the writer: data records of the tables, in order. -/
theorem Seeds.loop {m : Merge} {rem : List (List Record)} (h : m.Seeds rem fun _ => True)
    (hinc : ∀ rs ∈ rem, Increasing rs) {fuel rounds : Nat} (hfuel : left rem ≤ fuel)
    (hrounds : left rem < rounds) :
    ∃ out, (∀ {W : Type} (push : W → Record → Option W) (w : W),
        loop push fuel rounds w m = out.foldlM push w) ∧ Increasing out ∧
      (∀ r ∈ out, r.recordType = .data ∧ ∃ rs ∈ rem, r ∈ rs) ∧ Covers rem out ∧
      (NewestPushed rem out ↔ ∀ m', Rounds fuel m m' → m'.RootNewest) := by
  induction rounds generalizing m rem with
  | zero => omega
  | succ rounds ih =>
    rcases h.round hinc hfuel with ⟨hnil, hround, hdone⟩ |
      ⟨root, m1, hroot, hround, h1, hfrom, hleft⟩
    · refine ⟨[], fun push w => ?_, List.Pairwise.nil, by simp, fun rs hrs r hr => ?_, ?_⟩
      · simp [Merge.loop, hround]
      · rw [hdone rs hrs] at hr
        cases hr
      · have hnone : ∀ key, newestRecord key rem = none := by
          intro key
          rw [newestRecord, List.findSome?_eq_none_iff]
          intro rs hrs
          rw [hdone rs hrs]
          rfl
        constructor
        · intro _ m' hm'
          cases hm' with
          | here => exact fun root _ hroot => by rw [hnil] at hroot; cases hroot
          | next hnext => rw [hround] at hnext; cases hnext
        · intro _ key
          rw [hnone]
          rfl
    · have hinc1 : ∀ rs ∈ without root.record.keyBytes rem, Increasing rs := by
        intro rs hrs
        obtain ⟨rs', hrs', rfl⟩ := List.mem_map.mp hrs
        exact (hinc rs' hrs').filter _
      obtain ⟨out, hloop, hsorted, hmem, hcovers, hnew⟩ := ih h1 hinc1 (by omega) (by omega)
      obtain ⟨_, rest, hrest⟩ := (h.nodes root).mp (List.mem_of_head? hroot)
      have hrootmem := List.mem_of_getElem? hrest
      obtain ⟨low, hlow, hkey, hmin, hnewest⟩ := h.newest hinc hroot hfrom
      have hout : ∀ r ∈ out, ∃ rs ∈ rem, r ∈ rs ∧ r.keyBytes ≠ root.record.keyBytes := by
        intro r hr
        obtain ⟨_, rs, hrs, hin⟩ := hmem r hr
        obtain ⟨rs', hrs', rfl⟩ := List.mem_map.mp hrs
        obtain ⟨hin, hne⟩ := List.mem_filter.mp hin
        exact ⟨rs', hrs', hin, by simpa using hne⟩
      refine ⟨[root.record].filter (·.recordType = .data) ++ out, fun push w => ?_, ?_, ?_, ?_, ?_⟩
      · cases htype : root.record.recordType with
        | data =>
          simp only [Merge.loop, hround, htype, hloop, Option.bind_eq_bind, Option.bind_some,
            List.filter_cons_of_pos (l := []) (p := fun r : Record => decide (r.recordType = .data))
              (decide_eq_true htype), List.filter_nil, List.cons_append, List.nil_append,
            List.foldlM_cons]
        | tombstone =>
          simp [Merge.loop, hround, htype, hloop]
      · refine List.pairwise_append.mpr ⟨?_, hsorted, fun a ha b hb => ?_⟩
        · exact (List.pairwise_singleton _ _).filter _
        · rw [List.mem_singleton.mp (List.mem_filter.mp ha).1]
          obtain ⟨rs, hrs, hin, hne⟩ := hout b hb
          exact lt_of_le_of_ne (hfrom rs hrs b hin) (Ne.symm hne)
      · intro r hr
        rcases List.mem_append.mp hr with hr | hr
        · obtain ⟨hr, htype⟩ := List.mem_filter.mp hr
          rw [List.mem_singleton.mp hr] at htype ⊢
          exact ⟨by simpa using htype, _, hrootmem, List.mem_cons_self ..⟩
        · obtain ⟨rs, hrs, hin, _⟩ := hout r hr
          exact ⟨(hmem r hr).1, rs, hrs, hin⟩
      · intro rs hrs r hr
        by_cases hrk : r.keyBytes = root.record.keyBytes
        · refine ⟨_, hrootmem, root.record, List.mem_cons_self .., hrk.symm, fun htype => ?_⟩
          exact List.mem_append_left _ (by simp [htype])
        · obtain ⟨rs', hrs', r', hr', hkeys, hin⟩ := hcovers _ (List.mem_map_of_mem hrs) r
            (List.mem_filter.mpr ⟨hr, by simpa using hrk⟩)
          obtain ⟨rs'', hrs'', rfl⟩ := List.mem_map.mp hrs'
          exact ⟨rs'', hrs'', r', (List.mem_filter.mp hr').1, hkeys, fun htype =>
            List.mem_append_right _ (hin htype)⟩
      · rw [newestPushed_round hnewest fun r hr => (hmem r hr).2, hnew,
          ← h.rootNewest_iff hroot hlow hkey hmin]
        constructor
        · rintro ⟨hhere, hlater⟩ m' hm'
          cases hm' with
          | here => exact hhere
          | next hnext hrest =>
            rw [hround] at hnext
            cases hnext
            exact hlater m' hrest
        · intro hall
          exact ⟨hall m (.here m), fun m' hm' => hall m' (.next hround hm')⟩

theorem left_le_fuel {tableIters : List SSTableIterator} {tables : List (List Record)}
    (hy : List.Forall₂ SSTableIterator.Yields tableIters tables) :
    left tables < fuel tableIters := by
  induction hy with
  | nil => exact Nat.zero_lt_one
  | cons hit _ ih =>
    have := hit.length_le
    simp only [left, fuel, List.map_cons, List.sum_cons] at ih ⊢
    omega

/-- The run for any writer, and when it pushes the newest records. -/
theorem run_eq {tableIters : List SSTableIterator} {tables : List (List Record)}
    (hy : List.Forall₂ SSTableIterator.Yields tableIters tables)
    (hinc : ∀ rs ∈ tables, Increasing rs) :
    ∃ m out, start tableIters = some m ∧ (∀ {W : Type} (push : W → Record → Option W) (w : W),
        run push w tableIters = out.foldlM push w) ∧ Increasing out ∧
      (∀ r ∈ out, r.recordType = .data ∧ ∃ rs ∈ tables, r ∈ rs) ∧ Covers tables out ∧
      (NewestPushed tables out ↔ ∀ m', Rounds (fuel tableIters) m m' → m'.RootNewest) := by
  obtain ⟨m, hstart, h⟩ := start_seeds hy
  have hleft := left_le_fuel hy
  obtain ⟨out, hloop, hrest⟩ := h.loop hinc (Nat.le_of_lt hleft) hleft
  refine ⟨m, out, hstart, fun push w => ?_, hrest⟩
  rw [run, hstart]
  exact hloop push w

theorem foldlM_append (out done : List Record) :
    out.foldlM (fun records record => some (records ++ [record])) done = some (done ++ out) := by
  induction out generalizing done with
  | nil => simp
  | cons r out ih => simp [ih]

end Merge

end Lsmlite
