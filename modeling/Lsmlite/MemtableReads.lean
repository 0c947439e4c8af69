import Lsmlite.Replay
import Mathlib.Data.List.Nodup

/-!
# What a memtable answers after overwrites

An update in place takes the blob of the new record but leaves the value range of the old one: that
of the first write, and none once there was a tombstone. So a key reads as last written only if its
last write is a tombstone, or if all its writes are data and the last is as long as the first.
-/

namespace Lsmlite.MemtableInner
open RedBlack KeyValue

/-! ## Nodes and their keys -/

/-- A node's record is that of the last entry of its key. -/
theorem Holds.node {t : MemtableInner} {es : Entries} (h : t.Holds es) {i : Nat} {n : MemtableNode}
    (hn : t.arena[i]? = some n) : ∃ key e, last key es = some e ∧ n.record.Canonical key e := by
  obtain ⟨⟨tree, slot, htree, rfl⟩, hsorted, _⟩ := h
  have hmem : i ∈ tree.inorder :=
    htree.perm.mem_iff.mpr (List.mem_range.mpr (List.getElem?_eq_some_iff.mp hn).1)
  exact ⟨_, _, last_of_mem hsorted (List.mem_map_of_mem hmem), htree.canonical i n hn⟩

/-- No two nodes have one key. -/
theorem Holds.unique {t : MemtableInner} {es : Entries} (h : t.Holds es) {i j : Nat}
    {n m : MemtableNode} {key : Blob} (hn : t.arena[i]? = some n) (hm : t.arena[j]? = some m)
    (hkn : n.record.keySlice = some key) (hkm : m.record.keySlice = some key) : i = j := by
  obtain ⟨⟨tree, slot, htree, rfl⟩, hsorted, _⟩ := h
  have hmem : ∀ {k : Nat} {o : MemtableNode}, t.arena[k]? = some o → k ∈ tree.inorder := fun ho =>
    htree.perm.mem_iff.mpr (List.mem_range.mpr (List.getElem?_eq_some_iff.mp ho).1)
  have hkey : (slot i).1 = (slot j).1 := by
    have hi := (htree.canonical i n hn).keySlice
    have hj := (htree.canonical j m hm).keySlice
    rw [hkn] at hi
    rw [hkm] at hj
    exact (Option.some.inj hi).symm.trans (Option.some.inj hj)
  have hnodup : (tree.inorder.map fun i => (slot i).1).Nodup := by
    unfold Sorted at hsorted
    rw [List.pairwise_map] at hsorted
    exact List.pairwise_map.mpr (hsorted.imp fun hlt => ne_of_lt hlt)
  exact List.inj_on_of_nodup_map hnodup (hmem hn) (hmem hm) hkey

/-- An insertion under a key that the table has is an update of its record. -/
theorem Holds.update {t t' : MemtableInner} {es : Entries} (h : t.Holds es) {key : Blob}
    {e old : Entry} (hlast : last key es = some old)
    (ht : t.insertNode (.newFromRecord (Record.of key e)) = some t') :
    ∃ j n r, t.arena[j]? = some n ∧ n.record.Canonical key old ∧
      n.record.updateFromRecord (Record.of key e) = some r ∧
      t' = { t with arena := t.arena.set j { n with record := r } } := by
  have hsorted := h.sorted
  cases hroot : t.rootNode with
  | none =>
    obtain ⟨⟨tree, slot, htree, rfl⟩, _, _⟩ := h
    have hr : t.rootNode = tree.root := htree.held.root
    rw [hroot] at hr
    cases tree with
    | nil => cases hlast
    | node => cases hr
  | some root =>
    obtain ⟨tree, slot, htree, rfl, hpos⟩ := h.position key hroot
    have hkey := (Record.canonical_of key e).keySlice
    rcases hpos with ⟨j, n, hj, hn, rfl, hfind⟩ | ⟨f, fs, rfl, hbefore, hafter, hfind⟩
    · have hlast' : last (slot j).1 (tree.inorder.map slot) = some (slot j).2 :=
        last_of_mem hsorted (List.mem_map.mpr ⟨j, hj, rfl⟩)
      cases hlast.symm.trans hlast'
      rw [insertNode_existing hroot hkey hfind hn, Option.map_eq_some_iff] at ht
      obtain ⟨r, hr, rfl⟩ := ht
      exact ⟨j, n, r, hn, htree.canonical j n hn, hr, by rw [hroot]⟩
    · rw [last_of_between hbefore hafter] at hlast
      cases hlast

/-! ## The value range -/

/-- The value range of a key's record after `ws`. -/
def keptRange (key : Blob) (ws : Entries) : Option (Nat × Nat) :=
  if (key, .tombstone) ∈ ws then none else (first key ws).bind fun e => (Record.of key e).value

theorem keptRange_other {key : Blob} {ws : Entries} {w : Blob × Entry} (h : key ≠ w.1) :
    keptRange key (ws ++ [w]) = keptRange key ws := by
  have hmem : (key, Entry.tombstone) ∈ ws ++ [w] ↔ (key, Entry.tombstone) ∈ ws := by
    rw [List.mem_append, List.mem_singleton]
    exact ⟨fun hm => hm.elim id fun he => absurd (congrArg Prod.fst he) h, Or.inl⟩
  simp only [keptRange, hmem, first_snoc, if_neg h, Option.or_none]

theorem keptRange_fresh {key : Blob} {ws : Entries} (h : last key ws = none) (e : Entry) :
    keptRange key (ws ++ [(key, e)]) = (Record.of key e).value := by
  have hnot : (key, Entry.tombstone) ∉ ws := fun hm => last_eq_none_iff.mp h _ hm rfl
  have hfirst := first_eq_none_iff.mpr h
  cases e with
  | data value => simp [keptRange, hnot, first_snoc, hfirst]
  | tombstone => simp [keptRange, Record.of]

theorem keptRange_update {key : Blob} {ws : Entries} {old : Entry} (h : last key ws = some old)
    (value : Blob) : keptRange key (ws ++ [(key, .data value)]) = keptRange key ws := by
  cases hfirst : first key ws with
  | none =>
    rw [first_eq_none_iff, h] at hfirst
    cases hfirst
  | some e => simp [keptRange, first_snoc, hfirst]

/-- Every record has the value range that the writes of its key have left. -/
def Ranged (t : MemtableInner) (ws : Entries) : Prop :=
  ∀ (i : Nat) (n : MemtableNode) (key : Blob), t.arena[i]? = some n → n.record.keySlice = some key →
    n.record.value = keptRange key ws

theorem Ranged.insertNode {t t' : MemtableInner} {ws : Entries} (h : t.Ranged ws)
    (hholds : t.Holds (ofWrites ws)) {key : Blob} {e : Entry} (hfits : Record.Fits key e)
    (ht : t.insertNode (.newFromRecord (Record.of key e)) = some t') :
    t'.Ranged (ws ++ [(key, e)]) := by
  intro i n' key' hn' hkey'
  cases hlast : last key ws with
  | none =>
    -- The record is new, and those of the other keys are as before.
    have hwritable : Writable (ofWrites ws) key e := fun old value hold _ => by
      rw [last_ofWrites, hlast] at hold
      cases hold
    obtain ⟨t1, ht1, hins⟩ := hholds.insertNode hfits hwritable
    cases ht.symm.trans ht1
    rcases hins.records n' (List.mem_of_getElem? hn') with ⟨m, hm, hrecord⟩ | ⟨hcanon, hfresh⟩
    · obtain ⟨j, hj⟩ := List.mem_iff_getElem?.mp hm
      rw [hrecord] at hkey' ⊢
      obtain ⟨key1, e1, hlast1, hcanon1⟩ := hholds.node hj
      cases hkey'.symm.trans hcanon1.keySlice
      rw [last_ofWrites] at hlast1
      have hne : key' ≠ key := by
        rintro rfl
        rw [hlast] at hlast1
        cases hlast1
      rw [keptRange_other hne]
      exact h j m key' hj hkey'
    · cases hkey'.symm.trans hcanon.keySlice
      rw [hfresh (by rw [last_ofWrites]; exact hlast), keptRange_fresh hlast]
  | some old =>
    have hlast' : last key (ofWrites ws) = some old := by rw [last_ofWrites]; exact hlast
    obtain ⟨j, n, r, hn, hcanon, hr, rfl⟩ := hholds.update hlast' ht
    by_cases hij : j = i
    · subst hij
      rw [List.getElem?_set_self (List.getElem?_eq_some_iff.mp hn).1] at hn'
      cases hn'
      have hkeep := Record.updateFromRecord_keySlice hcanon.keySlice hr
      cases hkey'.symm.trans hkeep
      rw [Record.updateFromRecord_eq hcanon (hholds.fits _ (mem_of_last hlast')) hfits] at hr
      cases e with
      | data value =>
        simp only at hr
        split at hr
        · cases hr
          rw [keptRange_update hlast value]
          exact h j n _ hn hcanon.keySlice
        · cases hr
      | tombstone =>
        cases hr
        simp [keptRange, Record.of]
    · rw [List.getElem?_set_ne hij] at hn'
      have hne : key' ≠ key := fun he => hij (hholds.unique hn hn' hcanon.keySlice (he ▸ hkey'))
      rw [keptRange_other hne]
      exact h i n' key' hn' hkey'

/-! ## Reads -/

/-- A key reads as last written. -/
def ReadsBack (ws : Entries) (key : Blob) : Prop :=
  ∀ value, last key ws = some (.data value) →
    (key, .tombstone) ∉ ws ∧ ∀ old, first key ws = some (.data old) → old.length = value.length

/-- The value range of a write as long as the record's reads the record's value, and no other
does. -/
theorem valueSlice_kept {r : Record} {key value old : Blob} (hr : r.Canonical key (.data value))
    (hvalue : r.value = (Record.of key (.data old)).value) :
    r.valueSlice = some (some value) ↔ old.length = value.length := by
  constructor
  · intro h
    rw [Record.valueSlice, hvalue] at h
    obtain ⟨_, hslice, hv⟩ := Option.map_eq_some_iff.mp h
    cases hv
    have hlength := (Bytes.slice_eq_some hslice).2.2.2
    omega
  · intro hlength
    have hsame : r = Record.of key (.data value) := by
      obtain ⟨hblob, hkey⟩ := hr
      cases r
      simp only at hblob hkey hvalue
      rw [hblob, hkey, hvalue]
      simp only [Record.of, Record.keyOffset, Record.logWidth, Record.body, Entry.tail, hlength,
        List.length_append]
    rw [hsame, Record.of_valueSlice]

theorem Ranged.get {t : MemtableInner} {ws : Entries} (h : t.Ranged ws)
    (hholds : t.Holds (ofWrites ws)) (key : Blob) :
    t.get key = some (queryOf (last key ws)) ↔ ReadsBack ws key := by
  rcases hholds.get_cases key with ⟨hlast, hget⟩ | ⟨e, n, hlast, hn, hcanon, hget⟩
  · rw [last_ofWrites] at hlast
    rw [hget, hlast]
    refine iff_of_true rfl fun value hv => ?_
    rw [hlast] at hv
    cases hv
  · rw [last_ofWrites] at hlast
    obtain ⟨i, hi⟩ := List.mem_iff_getElem?.mp hn
    have hvalue := h i n key hi hcanon.keySlice
    rw [hget, hlast]
    cases e with
    | tombstone =>
      rw [keptRange, if_pos (mem_of_last hlast)] at hvalue
      refine iff_of_true (by rw [Record.valueSlice, hvalue]; rfl) fun value hv => ?_
      rw [hlast] at hv
      cases hv
    | data value =>
      by_cases htomb : (key, Entry.tombstone) ∈ ws
      · rw [keptRange, if_pos htomb] at hvalue
        refine iff_of_false ?_ fun hback => (hback value hlast).1 htomb
        rw [Record.valueSlice, hvalue]
        intro hq
        cases hq
      · obtain ⟨old, hfirst⟩ : ∃ old, first key ws = some (.data old) := by
          cases hf : first key ws with
          | none =>
            rw [first_eq_none_iff, hlast] at hf
            cases hf
          | some e =>
            cases e with
            | data old => exact ⟨old, rfl⟩
            | tombstone => exact absurd (mem_of_first hf) htomb
        rw [keptRange, if_neg htomb, hfirst, Option.bind_some] at hvalue
        apply Iff.trans (b := n.record.valueSlice = some (some value))
        · rw [Option.map_eq_some_iff]
          constructor
          · rintro ⟨v, hv, hq⟩
            cases v with
            | none => cases hq
            | some v =>
              cases hq
              exact hv
          · exact fun hv => ⟨_, hv, rfl⟩
        · rw [valueSlice_kept hcanon hvalue]
          constructor
          · intro hlength v hv
            cases hlast.symm.trans hv
            refine ⟨htomb, fun old' hold' => ?_⟩
            cases hfirst.symm.trans hold'
            exact hlength
          · intro hback
            exact (hback value hlast).2 old hfirst

/-! ## Runs -/

/-- The calls up to the first that finds the table full; `none` if one panics. -/
def writeAll (t : MemtableInner) : List Call → Option (Except MemtableError MemtableInner)
  | [] => some (.ok t)
  | c :: calls =>
    match t.write c.key c.entry c.clock with
    | some (.ok t') => t'.writeAll calls
    | stopped => stopped

def writesOf (calls : List Call) : Entries := calls.map fun c => (c.key, c.entry)

/-- Every write of `ws` after `pre` has a record that fits a `Vec`, and one over an older record
finds the key in the resized blob. -/
def Overwrites (pre : Entries) : Entries → Prop
  | [] => True
  | w :: ws => Record.Fits w.1 w.2 ∧ Writable pre w.1 w.2 ∧ Overwrites (pre ++ [w]) ws

theorem writable_ofWrites {ws : Entries} {key : Blob} {e : Entry} :
    Writable (ofWrites ws) key e ↔ Writable ws key e := by
  simp only [Writable, last_ofWrites]

/-- The table holds the writes, with the value ranges they have left. -/
structure Written (t : MemtableInner) (ws : Entries) : Prop where
  holds : t.Holds (ofWrites ws)
  ranged : t.Ranged ws

theorem written_new (maxSize maxNodes : Nat) (wal : Wal) :
    (new maxSize maxNodes wal).Written [] where
  holds := holds_new maxSize maxNodes wal
  ranged i n key hn := by simp [new] at hn

/-- A write into a table with room: it is taken, or it panics. -/
theorem Written.write {t : MemtableInner} {pre : Entries} (h : t.Written pre) (c : Call)
    (hfull : t.full = false) :
    (∃ t', t.write c.key c.entry c.clock = some (.ok t') ∧ t'.Written (pre ++ [(c.key, c.entry)]) ∧
      Record.Fits c.key c.entry ∧ Writable pre c.key c.entry) ∨
    t.write c.key c.entry c.clock = none ∧
      ¬ (Record.Fits c.key c.entry ∧ Writable pre c.key c.entry) := by
  have hholds := h.holds.with_wal (t.wal.writeLog (Record.of c.key c.entry) c.clock)
  rw [write_eq, if_neg (by simp [hfull])]
  by_cases hfits : Record.Fits c.key c.entry
  · rw [if_pos hfits]
    by_cases hwritable : Writable pre c.key c.entry
    · obtain ⟨t', ht', hins⟩ := hholds.insertNode hfits (writable_ofWrites.mpr hwritable)
      have hranged : ({ t with wal := t.wal.writeLog (Record.of c.key c.entry) c.clock } :
          MemtableInner).Ranged pre := h.ranged
      refine Or.inl ⟨t', by
        rw [ht', Option.map_some], ⟨?_, hranged.insertNode hholds hfits ht'⟩, hfits, hwritable⟩
      rw [ofWrites_snoc]
      exact hins.holds
    · refine Or.inr ⟨?_, fun hboth => hwritable hboth.2⟩
      rw [hholds.insertNode_panics hfits (mt writable_ofWrites.mp hwritable), Option.map_none]
  · rw [if_neg hfits]
    exact Or.inr ⟨rfl, fun hboth => hfits hboth.1⟩

/-- Calls that are never rejected end in a table with all the writes, or one of them panics. -/
theorem Written.writeAll {t : MemtableInner} {pre : Entries} (h : t.Written pre) {calls : List Call}
    (hroom : ∀ err, t.writeAll calls ≠ some (.error err)) :
    (∃ t', t.writeAll calls = some (.ok t') ∧ t'.Written (pre ++ writesOf calls) ∧
      Overwrites pre (writesOf calls)) ∨
    t.writeAll calls = none ∧ ¬ Overwrites pre (writesOf calls) := by
  induction calls generalizing t pre with
  | nil => exact Or.inl ⟨t, rfl, by simpa [writesOf] using h, trivial⟩
  | cons c calls ih =>
    have hfull : t.full = false := by
      cases hf : t.full with
      | false => rfl
      | true =>
        obtain ⟨err, herr⟩ := write_full hf c.key c.entry c.clock
        refine absurd ?_ (hroom err)
        rw [MemtableInner.writeAll, herr]
    rcases h.write c hfull with ⟨t', hwrite, hwritten, hfits, hwritable⟩ | ⟨hnone, hnot⟩
    · have hrest : t.writeAll (c :: calls) = t'.writeAll calls := by
        rw [MemtableInner.writeAll, hwrite]
      rw [hrest] at hroom ⊢
      have hsnoc : pre ++ writesOf (c :: calls) = pre ++ [(c.key, c.entry)] ++ writesOf calls := by
        simp [writesOf]
      rw [hsnoc]
      rcases ih hwritten hroom with ⟨t'', hrun, hwritten', hover⟩ | ⟨hnone, hover⟩
      · exact Or.inl ⟨t'', hrun, hwritten', hfits, hwritable, hover⟩
      · exact Or.inr ⟨hnone, fun hall => hover hall.2.2⟩
    · refine Or.inr ⟨?_, fun hall => hnot ⟨hall.1, hall.2.1⟩⟩
      rw [MemtableInner.writeAll, hnone]

/-- Calls none of which finds the table full behave as on a map if and only if every overwrite finds
the key in reach, and every key reads back its last write. -/
theorem get_iff_map {maxSize maxNodes : Nat} {wal : Wal} {calls : List Call}
    (hroom : ∀ err, (new maxSize maxNodes wal).writeAll calls ≠ some (.error err)) :
    (∃ t, (new maxSize maxNodes wal).writeAll calls = some (.ok t) ∧
      ∀ key, t.get key = some (queryOf (last key (writesOf calls)))) ↔
    Overwrites [] (writesOf calls) ∧ ∀ key, ReadsBack (writesOf calls) key := by
  rcases (written_new maxSize maxNodes wal).writeAll hroom with ⟨t, hrun, hwritten, hover⟩ |
    ⟨hnone, hnot⟩
  · rw [List.nil_append] at hwritten
    constructor
    · rintro ⟨t', hrun', hget⟩
      cases hrun.symm.trans hrun'
      exact ⟨hover, fun key => (hwritten.ranged.get hwritten.holds key).mp (hget key)⟩
    · rintro ⟨_, hback⟩
      exact ⟨t, hrun, fun key => (hwritten.ranged.get hwritten.holds key).mpr (hback key)⟩
  · constructor
    · rintro ⟨t', hrun', _⟩
      rw [hnone] at hrun'
      cases hrun'
    · rintro ⟨hover, _⟩
      exact absurd hover hnot

/-- A key deleted and written again. -/
def reinsertedCalls : List Call :=
  [⟨[1], .data [2], ⟨0, 0⟩⟩, ⟨[1], .tombstone, ⟨0, 0⟩⟩, ⟨[1], .data [3], ⟨0, 0⟩⟩]

theorem get_iff_map_reinserted :
    (∃ t, (new 100 3 (Wal.new 0 0 [])).writeAll reinsertedCalls = some (.ok t) ∧
      ∀ key, t.get key = some (queryOf (last key (writesOf reinsertedCalls)))) ↔
    Overwrites [] (writesOf reinsertedCalls) ∧ ∀ key, ReadsBack (writesOf reinsertedCalls) key := by
  have hrun : ((new 100 3 (Wal.new 0 0 [])).writeAll reinsertedCalls).map Except.toBool =
      some true := by
    decide +kernel
  refine get_iff_map fun err herr => ?_
  rw [herr] at hrun
  cases hrun

/-- The key written again still reads as deleted. -/
theorem get_reinserted : ∃ t, (new 100 3 (Wal.new 0 0 [])).writeAll reinsertedCalls = some (.ok t) ∧
    last [1] (writesOf reinsertedCalls) = some (.data [3]) ∧ t.get [1] = some .tombstone := by
  have hrun : ((new 100 3 (Wal.new 0 0 [])).writeAll reinsertedCalls).map
      (fun r => r.toOption.map (·.get [1])) = some (some (some .tombstone)) := by
    decide +kernel
  obtain ⟨r, hr, hget⟩ := Option.map_eq_some_iff.mp hrun
  cases r with
  | error err => cases hget
  | ok t => exact ⟨t, hr, by decide, Option.some.inj hget⟩

end Lsmlite.MemtableInner
