import Lsmlite.CompactionMerge

/-!
# When the newest table wins

Between the nodes of one key the heap's shape decides. Only the first round is always right: the
nodes come in by the order of the tables, and of two level ones the older stays at the root. Every
later round is right where the tables that hold its key hold one record of it.
-/

namespace Lsmlite

/-- The tables that hold the key hold one record of it, or tombstones. -/
def OneRecord (key : Blob) (tables : List (List Record)) : Prop :=
  ∀ r ∈ tables.flatten, ∀ r' ∈ tables.flatten, r.keyBytes = key → r'.keyBytes = key →
    r = r' ∨ r.recordType = .tombstone ∧ r'.recordType = .tombstone

/-- No key has two records, but for the least of all. -/
def Undisputed (tables : List (List Record)) : Prop :=
  ∀ key, OneRecord key tables ∨ Merge.From key tables

instance (key : Blob) (tables : List (List Record)) : Decidable (OneRecord key tables) := by
  unfold OneRecord
  infer_instance

instance (key : Blob) (tables : List (List Record)) : Decidable (Merge.From key tables) := by
  unfold Merge.From
  infer_instance

/-- Only keys that a table holds can be disputed. -/
theorem undisputed_iff {tables : List (List Record)} :
    Undisputed tables ↔
      ∀ r ∈ tables.flatten, OneRecord r.keyBytes tables ∨ Merge.From r.keyBytes tables := by
  constructor
  · intro h r _
    exact h r.keyBytes
  · intro h key
    by_cases hheld : ∃ r ∈ tables.flatten, r.keyBytes = key
    · obtain ⟨r, hr, rfl⟩ := hheld
      exact h r hr
    · exact Or.inl fun r hr _ _ hkey => absurd ⟨r, hr, hkey⟩ hheld

instance (tables : List (List Record)) : Decidable (Undisputed tables) :=
  decidable_of_iff _ undisputed_iff.symm

namespace MergeHeap

/-- No other node with the root's key is from a lower-indexed table. -/
def LowestFirst (heap : MergeHeap) : Prop :=
  ∀ root, heap.head? = some root → ∀ node ∈ heap, node.record.keyBytes = root.record.keyBytes →
    root.tableIdx ≤ node.tableIdx

theorem LowestFirst.push {heap : MergeHeap} (h : heap.LowestFirst)
    (hheap : ArrayHeap.IsHeap HeapNode.reverseLe heap) {node : HeapNode}
    (hlt : ∀ n ∈ heap, n.tableIdx < node.tableIdx) : (heap.push node).LowestFirst := by
  have hperm := ArrayHeap.push_perm HeapNode.reverseLe heap node
  intro root hroot n hn hkey
  rcases List.mem_cons.mp (hperm.mem_iff.mp hn) with rfl | hn
  · rcases List.mem_cons.mp (hperm.mem_iff.mp (List.mem_of_head? hroot)) with rfl | hroot
    · exact Nat.le_refl _
    · exact (hlt root hroot).le
  · cases hold : heap.head? with
    | none =>
      rw [List.head?_eq_none_iff.mp hold] at hn
      cases hn
    | some old =>
      rcases @ArrayHeap.push_head _ HeapNode.reverseLe _ node _ hold with hhead | ⟨hhead, hnle⟩
      · cases hhead.symm.trans hroot
        exact h root hold n hn hkey
      · -- The new node's key is before every other.
        cases hhead.symm.trans hroot
        have hle := ArrayHeap.heap_root reverseLe_total reverseLe_trans hheap hold n hn
        rw [HeapNode.reverseLe, decide_eq_false_iff_not] at hnle
        rw [HeapNode.reverseLe, decide_eq_true_eq, hkey] at hle
        exact absurd hle hnle

end MergeHeap

namespace Merge
open MergeHeap

theorem refill_heap {m m' : Merge} {i : Nat} (h : m.refill i = some m') :
    m'.heap = m.heap ∨ ∃ r, m'.heap = m.heap.push ⟨r, i⟩ := by
  unfold Merge.refill at h
  simp only [Option.bind_eq_bind, Option.bind_eq_some_iff] at h
  obtain ⟨it, _, ⟨record, it'⟩, _, h⟩ := h
  cases record with
  | none =>
    cases h
    exact Or.inl rfl
  | some r =>
    cases h
    exact Or.inr ⟨r, rfl⟩

/-- The first round is about the lowest-indexed table that has its key. -/
theorem start_lowestFirst {tableIters : List SSTableIterator} {m : Merge}
    (hstart : start tableIters = some m) : m.heap.LowestFirst := by
  have hbelow : ∀ n m, (List.range n).foldlM refill ⟨[], tableIters⟩ = some m →
      (∀ node ∈ m.heap, node.tableIdx < n) ∧ ArrayHeap.IsHeap HeapNode.reverseLe m.heap ∧
        m.heap.LowestFirst := by
    intro n
    induction n with
    | zero =>
      intro m hm
      cases hm
      refine ⟨by simp, fun i _ a b ha => by simp at ha, fun root hroot => by cases hroot⟩
    | succ n ih =>
      intro m hm
      rw [List.range_succ, List.foldlM_append] at hm
      obtain ⟨m1, hm1, hm⟩ := Option.bind_eq_some_iff.mp hm
      rw [List.foldlM_cons] at hm
      obtain ⟨m2, hrefill, hm⟩ := Option.bind_eq_some_iff.mp hm
      cases hm
      obtain ⟨hlt, hheap, hlowest⟩ := ih m1 hm1
      rcases refill_heap hrefill with hsame | ⟨r, hpush⟩
      · rw [hsame]
        exact ⟨fun node hnode => Nat.lt_succ_of_lt (hlt node hnode), hheap, hlowest⟩
      · rw [hpush]
        refine ⟨fun node hnode => ?_, ?_, hlowest.push hheap hlt⟩
        · have hperm := ArrayHeap.push_perm HeapNode.reverseLe m1.heap ⟨r, n⟩
          rcases List.mem_cons.mp (hperm.mem_iff.mp hnode) with rfl | hnode
          · exact Nat.lt_succ_self n
          · exact Nat.lt_succ_of_lt (hlt node hnode)
        · exact ArrayHeap.push_heap reverseLe_total reverseLe_trans hheap _
  exact (hbelow _ m hstart).2.2

/-- Later rounds are about records of the tables, and not about the least key. -/
theorem Seeds.rounds {m m' : Merge} {rem : List (List Record)} {fuel : Nat}
    (h : m.Seeds rem fun _ => True) (hinc : ∀ rs ∈ rem, Increasing rs) (hfuel : left rem ≤ fuel)
    (hrounds : Rounds fuel m m') :
    ∃ rem', m'.Seeds rem' (fun _ => True) ∧ (∀ rs' ∈ rem', ∃ rs ∈ rem, rs' ⊆ rs) ∧
      (m' = m ∨ ∀ rs' ∈ rem', ∀ r ∈ rs', ¬ From r.keyBytes rem) := by
  induction hrounds generalizing rem with
  | here m => exact ⟨rem, h, fun rs hrs => ⟨rs, hrs, List.Subset.refl rs⟩, Or.inl rfl⟩
  | @next m m1 m' record hround _ ih =>
    rcases h.round hinc hfuel with ⟨_, hnone, _⟩ | ⟨root, m2, hroot, hround', h1, hroot_le, hleft⟩
    · cases hround.symm.trans hnone
    · cases hround.symm.trans hround'
      have hinc1 : ∀ rs ∈ without root.record.keyBytes rem, Increasing rs := by
        intro rs hrs
        obtain ⟨rs', hrs', rfl⟩ := List.mem_map.mp hrs
        exact (hinc rs' hrs').filter _
      obtain ⟨rem', h', hsub, _⟩ := ih h1 hinc1 (by omega)
      have hin : ∀ rs' ∈ rem', ∃ rs ∈ rem, ∀ r ∈ rs', r ∈ rs ∧
          r.keyBytes ≠ root.record.keyBytes := by
        intro rs' hrs'
        obtain ⟨_, hwithout, hsub⟩ := hsub rs' hrs'
        obtain ⟨rs, hrs, rfl⟩ := List.mem_map.mp hwithout
        refine ⟨rs, hrs, fun r hr => ?_⟩
        obtain ⟨hmem, hne⟩ := List.mem_filter.mp (hsub hr)
        exact ⟨hmem, by simpa using hne⟩
      refine ⟨rem', h', fun rs' hrs' => ?_, Or.inr fun rs' hrs' r hr hfrom => ?_⟩
      · obtain ⟨rs, hrs, hall⟩ := hin rs' hrs'
        exact ⟨rs, hrs, fun r hr => (hall r hr).1⟩
      · -- The root of the round before has a lesser key.
        obtain ⟨rs, hrs, hall⟩ := hin rs' hrs'
        obtain ⟨_, rest, hrest⟩ := (h.nodes root).mp (List.mem_of_head? hroot)
        obtain ⟨hmem, hne⟩ := hall r hr
        have hle := hfrom _ (List.mem_of_getElem? hrest) root.record (List.mem_cons_self ..)
        exact hne (le_antisymm hle (hroot_le rs hrs r hmem))

/-- Undisputed tables have the newest record at the root in every round. -/
theorem rootNewest_of_undisputed {tableIters : List SSTableIterator} {tables : List (List Record)}
    (hy : List.Forall₂ SSTableIterator.Yields tableIters tables)
    (hinc : ∀ rs ∈ tables, Increasing rs) (h : Undisputed tables) {m m' : Merge}
    (hstart : start tableIters = some m) (hrounds : Rounds (fuel tableIters) m m') :
    m'.RootNewest := by
  obtain ⟨m1, hstart', hseeds⟩ := start_seeds hy
  cases hstart.symm.trans hstart'
  obtain ⟨rem, hrem, hsub, hfirst⟩ := hseeds.rounds hinc (left_le_fuel hy).le hrounds
  have hread : ∀ node ∈ m'.heap, (∃ rs, rem[node.tableIdx]? = some (node.record :: rs)) ∧
      node.record ∈ tables.flatten := by
    intro node hnode
    obtain ⟨_, rs', hrs'⟩ := (hrem.nodes node).mp hnode
    obtain ⟨rs, hrs, hle⟩ := hsub _ (List.mem_of_getElem? hrs')
    exact ⟨⟨rs', hrs'⟩, List.mem_flatten_of_mem hrs (hle (List.mem_cons_self ..))⟩
  intro root newest hroot hnewest hkey hmin
  have hmem := List.mem_of_head? hroot
  obtain ⟨⟨rs, hat⟩, hin⟩ := hread root hmem
  obtain ⟨⟨rs', hat'⟩, hin'⟩ := hread newest hnewest
  rcases h root.record.keyBytes with hone | hleast
  · exact hone _ hin _ hin' rfl hkey
  · rcases hfirst with rfl | hlater
    · have hidx : root.tableIdx = newest.tableIdx :=
        Nat.le_antisymm (start_lowestFirst hstart root hroot newest hnewest hkey)
          (hmin root hmem rfl)
      rw [hidx, hat'] at hat
      exact Or.inl (List.cons.inj (Option.some.inj hat)).1.symm
    · exact absurd hleast (hlater _ (List.mem_of_getElem? hat) _ (List.mem_cons_self ..))

end Merge

/-- Compaction pushes the newest table's records of undisputed tables. -/
theorem compaction_newest {tableIters : List SSTableIterator} {tables : List (List Record)}
    (hy : List.Forall₂ SSTableIterator.Yields tableIters tables)
    (hinc : ∀ rs ∈ tables, Increasing rs) (h : Undisputed tables) :
    ∃ pushed, Merge.pushed tableIters = some pushed ∧ NewestPushed tables pushed := by
  obtain ⟨m, out, hstart, hrun, _, _, _, hnewest⟩ := Merge.run_eq hy hinc
  refine ⟨out, ?_, hnewest.mpr fun m' => Merge.rootNewest_of_undisputed hy hinc h hstart⟩
  rw [Merge.pushed, hrun, Merge.foldlM_append, List.nil_append]

/-- The newer table has `a` and `k`, the older one `k`. -/
def staleTables : List (List Record) :=
  [[⟨[0, 3, 1, 97, 0], (3, 1), some (5, 0)⟩, ⟨[0, 4, 1, 107, 1, 50], (3, 1), some (5, 1)⟩],
    [⟨[0, 4, 1, 107, 1, 49], (3, 1), some (5, 1)⟩]]

def staleIters : List SSTableIterator :=
  [⟨[0, 3, 1, 97, 0, 0, 4, 1, 107, 1, 50], 0⟩, ⟨[0, 4, 1, 107, 1, 49], 0⟩]

theorem staleIters_yield : List.Forall₂ SSTableIterator.Yields staleIters staleTables :=
  .cons (.record rfl (.record rfl (.done rfl))) (.cons (.record rfl (.done rfl)) .nil)

/-- The older table's record is at the root when the newer one's comes in. -/
theorem compaction_stale : List.Forall₂ SSTableIterator.Yields staleIters staleTables ∧
    (∀ rs ∈ staleTables, Increasing rs) ∧
    ∃ pushed, Merge.pushed staleIters = some pushed ∧ ¬ NewestPushed staleTables pushed := by
  refine ⟨staleIters_yield, by unfold Increasing; decide +kernel, _, (by decide +kernel :
    Merge.pushed staleIters = some [⟨[0, 3, 1, 97, 0], (3, 1), some (5, 0)⟩,
      ⟨[0, 4, 1, 107, 1, 49], (3, 1), some (5, 1)⟩]), fun hp => ?_⟩
  exact absurd (hp [107]) (by decide +kernel)

/-- The newest table wins the least key; every other key is held as one record. -/
def agreeingTables : List Entries :=
  [[([97], .data []), ([107], .data [50]), ([120], .tombstone)],
    [([97], .data [57]), ([107], .data [50])], [([120], .tombstone), ([122], .data [1])]]

theorem agreeingTables_yield : List.Forall₂ SSTableIterator.Yields
    (agreeingTables.map fun es => ⟨logBlob es, 0⟩)
    (agreeingTables.map (·.map fun w => Record.of w.1 w.2)) := by
  rw [List.forall₂_map_left_iff, List.forall₂_map_right_iff, List.forall₂_same]
  intro es hes
  have hfits : ∀ es ∈ agreeingTables, ∀ w ∈ es, Record.Fits w.1 w.2 := by decide +kernel
  exact yields_logBlob (hfits es hes) [] rfl

theorem compaction_newest_agreeing : ∃ pushed,
    Merge.pushed (agreeingTables.map fun es => ⟨logBlob es, 0⟩) = some pushed ∧
      NewestPushed (agreeingTables.map (·.map fun w => Record.of w.1 w.2)) pushed :=
  compaction_newest agreeingTables_yield (by unfold Increasing; decide +kernel) (by decide +kernel)

/-! ## Disputed keys -/

/-- A node that is level with the only one in the heap, or below it, does not take its place. -/
theorem MergeHeap.push_level {a b : HeapNode} (hle : a.record.keyBytes ≤ b.record.keyBytes) :
    MergeHeap.push [a] b = [a, b] := by
  have hb : HeapNode.reverseLe b a = true := decide_eq_true hle
  simp [MergeHeap.push, ArrayHeap.push, ArrayHeap.siftUp, hb]

theorem MergeHeap.pop_two (a b : HeapNode) : MergeHeap.pop [a, b] = some (a, [b]) := rfl

/-- The older table's record is at the root when the newer one's comes in behind a lesser key. -/
theorem second_round {r0 r r' : Record} {it it' : SSTableIterator}
    (hnewer : it.Yields [r0, r]) (holder : it'.Yields [r']) (hlt : r0.keyBytes < r.keyBytes)
    (hkey : r'.keyBytes = r.keyBytes) :
    ∃ m m', Merge.start [it, it'] = some m ∧
      m.round (Merge.fuel [it, it']) = some (some (r0, m')) ∧ m'.heap = [⟨r', 1⟩, ⟨r, 0⟩] := by
  have hkeys := hnewer.keys
  have hkeys' := holder.keys
  cases hnewer with
  | @record _ it1 _ _ hnext hrest =>
    cases hrest with
    | @record _ it2 _ _ hnext1 _ =>
      cases holder with
      | @record _ it1' _ _ hnext' _ =>
        have hpush : MergeHeap.push [⟨r0, 0⟩] ⟨r', 1⟩ = [⟨r0, 0⟩, ⟨r', 1⟩] :=
          MergeHeap.push_level (hkey ▸ hlt.le)
        have hpush' : MergeHeap.push [⟨r', 1⟩] ⟨r, 0⟩ = [⟨r', 1⟩, ⟨r, 0⟩] :=
          MergeHeap.push_level hkey.le
        refine ⟨⟨[⟨r0, 0⟩, ⟨r', 1⟩], [it1, it1']⟩, ⟨[⟨r', 1⟩, ⟨r, 0⟩], [it2, it1']⟩, ?_, ?_, rfl⟩
        · have hfirst : MergeHeap.push [] ⟨r0, 0⟩ = [⟨r0, 0⟩] := rfl
          simp [Merge.start, List.range_succ, Merge.refill, hnext, hnext', hfirst, hpush]
        · have hne : r'.keyBytes ≠ r0.keyBytes := by
            rw [hkey]
            exact ne_of_gt hlt
          have hfuel : Merge.fuel [it, it'] = (it.buffer.length + it'.buffer.length) + 1 := by
            simp [Merge.fuel]
          simp [Merge.round, MergeHeap.pop_two, hkeys r0, hkeys' r', hfuel, Merge.dropEqual, hne,
            Merge.refill, hnext1, hpush']

/-- No weaker condition on the records of one key would do: behind a lesser key of the newer table,
any two records of it lose. -/
theorem disputed_key_lost {r0 r r' : Record} {it it' : SSTableIterator}
    (hnewer : it.Yields [r0, r]) (holder : it'.Yields [r']) (hlt : r0.keyBytes < r.keyBytes)
    (hkey : r'.keyBytes = r.keyBytes)
    (hdispute : ¬ (r' = r ∨ r'.recordType = .tombstone ∧ r.recordType = .tombstone)) :
    ∃ pushed, Merge.pushed [it, it'] = some pushed ∧ ¬ NewestPushed [[r0, r], [r']] pushed := by
  have hinc : ∀ rs ∈ [[r0, r], [r']], Increasing rs := by
    simp [Increasing, hlt]
  obtain ⟨m, out, hstart, hrun, _, _, _, hnewest⟩ :=
    Merge.run_eq (.cons hnewer (.cons holder .nil)) hinc
  obtain ⟨m1, m2, hstart', hround, hheap⟩ := second_round hnewer holder hlt hkey
  cases hstart.symm.trans hstart'
  refine ⟨out, ?_, fun hpushed => hdispute ?_⟩
  · rw [Merge.pushed, hrun, Merge.foldlM_append, List.nil_append]
  · have hsecond := hnewest.mp hpushed m2 (.next hround (.here m2))
    exact hsecond ⟨r', 1⟩ ⟨r, 0⟩ (by rw [hheap]; rfl) (by simp [hheap]) hkey.symm
      fun node _ _ => Nat.zero_le _

end Lsmlite
