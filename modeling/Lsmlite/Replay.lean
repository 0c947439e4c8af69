import Lsmlite.MemtableLog

/-!
# Replay of a log

The tree does not read the log. So a replay, which inserts the same records without logging them,
goes through the states of the live memtable.
-/

namespace Lsmlite.MemtableInner
open KeyValue

/-! ## The log is not read -/

/-- The same table with another log. -/
def logTo (t : MemtableInner) (wal : Wal) : MemtableInner := { t with wal }

@[simp] theorem logTo_arena (t : MemtableInner) (wal : Wal) : (t.logTo wal).arena = t.arena := rfl
@[simp] theorem logTo_rootNode (t : MemtableInner) (wal : Wal) :
    (t.logTo wal).rootNode = t.rootNode := rfl
@[simp] theorem logTo_currentSize (t : MemtableInner) (wal : Wal) :
    (t.logTo wal).currentSize = t.currentSize := rfl
@[simp] theorem logTo_full (t : MemtableInner) (wal : Wal) : (t.logTo wal).full = t.full := rfl
@[simp] theorem logTo_logTo (t : MemtableInner) (wal wal' : Wal) :
    (t.logTo wal).logTo wal' = t.logTo wal' := rfl

theorem blackenRoot_logTo (t : MemtableInner) (wal : Wal) :
    (t.logTo wal).blackenRoot = t.blackenRoot.map (·.logTo wal) := by
  simp only [blackenRoot, logTo_rootNode, logTo_arena]
  cases t.rootNode with
  | none => rfl
  | some root =>
    simp only [Option.bind_eq_bind, Option.bind_some]
    cases t.arena.modify root (.colored .black) <;> rfl

theorem insertRecolor_logTo (t : MemtableInner) (wal : Wal) (parent grandparent : Nat) :
    (t.logTo wal).insertRecolor parent grandparent =
      (t.insertRecolor parent grandparent).map (·.logTo wal) := by
  simp only [insertRecolor, logTo_arena]
  cases t.arena.modify parent (.colored .black) with
  | none => rfl
  | some arena =>
    simp only [Option.bind_eq_bind, Option.bind_some]
    cases arena.modify grandparent (.colored .red) <;> rfl

theorem relinkParent_logTo (t : MemtableInner) (wal : Wal) (parent : Option Nat) (n r : Nat) :
    (t.logTo wal).relinkParent parent n r = (t.relinkParent parent n r).map (·.logTo wal) := by
  cases parent with
  | none => rfl
  | some p =>
    simp only [relinkParent, logTo_arena]
    cases t.arena[p]? with
    | none => rfl
    | some pNode =>
      simp only [Option.bind_eq_bind, Option.bind_some]
      cases t.arena.modify p fun m =>
        if pNode.left = some n then { m with left := some r }
          else { m with right := some r } <;> rfl

theorem leftRotate_logTo (t : MemtableInner) (wal : Wal) (n : Nat) :
    (t.logTo wal).leftRotate n = (t.leftRotate n).map (·.logTo wal) := by
  have hrelink := fun arena p m r => relinkParent_logTo { t with arena } wal p m r
  simp only [logTo] at hrelink
  simp only [leftRotate, logTo, Option.map_bind, Function.comp_def, Option.bind_eq_bind, hrelink,
    Option.bind_map, Option.pure_def, Option.map_some]

theorem rightRotate_logTo (t : MemtableInner) (wal : Wal) (n : Nat) :
    (t.logTo wal).rightRotate n = (t.rightRotate n).map (·.logTo wal) := by
  have hrelink := fun arena p m r => relinkParent_logTo { t with arena } wal p m r
  simp only [logTo] at hrelink
  simp only [rightRotate, logTo, Option.map_bind, Function.comp_def, Option.bind_eq_bind, hrelink,
    Option.bind_map, Option.pure_def, Option.map_some]

theorem redUncle_logTo (t : MemtableInner) (wal : Wal) (node : MemtableNode) :
    (t.logTo wal).redUncle node = t.redUncle node := rfl

theorem insertFixTree_logTo (fuel : Nat) (t : MemtableInner) (wal : Wal) (nodeIdx : Nat) :
    insertFixTree fuel (t.logTo wal) nodeIdx =
      (insertFixTree fuel t nodeIdx).map (·.logTo wal) := by
  induction fuel generalizing t nodeIdx with
  | zero => rfl
  | succ fuel ih =>
    simp only [insertFixTree, logTo_arena, redUncle_logTo, Option.bind_eq_bind, Option.map_bind,
      Function.comp_def]
    congr 1
    funext node
    cases node.parent with
    | none => exact blackenRoot_logTo t wal
    | some parentIdx =>
      simp only [Option.map_bind, Function.comp_def]
      congr 1
      funext parent
      split
      · exact blackenRoot_logTo t wal
      simp only [Option.map_bind, Function.comp_def]
      congr 1
      funext grandparentIdx
      congr 1
      funext uncle
      cases uncle with
      | some u =>
        simp only [Option.map_bind, Function.comp_def, ← ih]
        rfl
      | none =>
        simp only [Option.map_bind, Function.comp_def]
        congr 1
        funext grandparent
        split
        · simp only [rightRotate_logTo, Option.bind_map, Option.map_bind, Function.comp_def, ih]
        · simp only [leftRotate_logTo, Option.bind_map, Option.map_bind, Function.comp_def, ih]
        · simp only [insertRecolor_logTo, rightRotate_logTo, blackenRoot_logTo, Option.bind_map,
            Option.map_bind, Function.comp_def]
        · simp only [insertRecolor_logTo, leftRotate_logTo, blackenRoot_logTo, Option.bind_map,
            Option.map_bind, Function.comp_def]

theorem insertNode_logTo (t : MemtableInner) (wal : Wal) (node : MemtableNode) :
    (t.logTo wal).insertNode node = (t.insertNode node).map (·.logTo wal) := by
  simp only [insertNode, insertNodeWithin, logTo_arena, logTo_rootNode,
    logTo_currentSize, Option.bind_eq_bind]
  cases t.rootNode with
  | none => rfl
  | some root =>
    simp only [Option.map_bind, Function.comp_def]
    congr 1
    funext key
    congr 1
    funext position
    cases position with
    | existingNode curr =>
      simp only [Option.map_bind, Function.comp_def, Option.pure_def, Option.map_some]
      rfl
    | newNode parent child =>
      simp only [Option.map_bind, Function.comp_def, ← insertFixTree_logTo]
      rfl

theorem insertRecordFromWal_logTo (t : MemtableInner) (wal : Wal) (record : Record) :
    (t.logTo wal).insertRecordFromWal record =
      (t.insertRecordFromWal record).map (·.logTo wal) := by
  simp only [insertRecordFromWal, logTo_full, insertNode_logTo]
  cases t.full <;> rfl

theorem foldlM_logTo (t : MemtableInner) (wal : Wal) (records : List Record) :
    records.foldlM insertRecordFromWal (t.logTo wal) =
      (records.foldlM insertRecordFromWal t).map (·.logTo wal) := by
  induction records generalizing t with
  | nil => rfl
  | cons record records ih =>
    simp only [List.foldlM_cons, insertRecordFromWal_logTo]
    cases t.insertRecordFromWal record with
    | none => rfl
    | some t1 => exact ih t1

/-- What is replayed does not depend on the new log. -/
theorem fromWal_logTo (log : Blob) (maxSize maxNodes : Nat) (wal wal' : Wal) :
    fromWal log maxSize maxNodes wal' = (fromWal log maxSize maxNodes wal).map (·.logTo wal') := by
  rw [fromWal, fromWal]
  cases (WalIterator.new log).collect (log.length + 1) with
  | none => rfl
  | some records => exact foldlM_logTo (new maxSize maxNodes wal) wal' records

/-! ## Calls and their replay -/

/-- A call of `insert_data_record` or `insert_tombstone_record`. -/
structure Call where
  key : Blob
  entry : Entry
  clock : Clock
  deriving DecidableEq, Repr

/-- A call, whether the table takes it or rejects it as full. -/
def call (t : MemtableInner) (c : Call) : Option MemtableInner := do
  match ← t.write c.key c.entry c.clock with
  | .ok t => return t
  | .error _ => return t

/-- `replayed` is the replay of what `t` has logged. -/
structure Replayed (t : MemtableInner) (maxSize maxNodes : Nat) (wal : Wal)
    (ws : Entries) : Prop where
  logged : ∃ filed buffered, t.wal.Holds filed buffered ∧ filed ++ buffered = ws
  fits : ∀ w ∈ ws, Record.Fits w.1 w.2
  replay : (ws.map fun w => Record.of w.1 w.2).foldlM insertRecordFromWal
    (new maxSize maxNodes wal) = some (t.logTo wal)

theorem replayed_new (maxSize maxNodes fileTs now : Nat) (wal : Wal) :
    Replayed (new maxSize maxNodes (Wal.new fileTs now [])) maxSize maxNodes wal [] where
  logged := ⟨[], [], Wal.holds_new .., rfl⟩
  fits _ hw := by cases hw
  replay := rfl

/-- A call that returns is replayed by one step, or by none if the table was full. -/
theorem Replayed.call {t t' : MemtableInner} {maxSize maxNodes : Nat} {wal : Wal} {ws : Entries}
    (h : Replayed t maxSize maxNodes wal ws) {c : Call} (hc : t.call c = some t') :
    ∃ ws', Replayed t' maxSize maxNodes wal ws' := by
  simp only [MemtableInner.call, write_eq, Option.bind_eq_bind] at hc
  split at hc
  · cases hc
    exact ⟨ws, h⟩
  · rename_i hfull
    split at hc
    · rename_i hfits
      rw [Option.bind_map, Option.bind_eq_some_iff] at hc
      obtain ⟨t1, hinsert, hc⟩ := hc
      cases hc
      have hlog := insertNode_logTo t (t.wal.writeLog (Record.of c.key c.entry) c.clock)
        (.newFromRecord (Record.of c.key c.entry))
      rw [show (t.logTo _).insertNode _ = some t' from hinsert] at hlog
      obtain ⟨t2, hinsert', rfl⟩ := Option.map_eq_some_iff.mp hlog.symm
      obtain ⟨filed, buffered, hwal, rfl⟩ := h.logged
      refine ⟨filed ++ buffered ++ [(c.key, c.entry)], ?_, ?_, ?_⟩
      · rcases hwal.writeLog c.key c.entry c.clock with hnew | hnew
        · exact ⟨_, _, hnew, by simp⟩
        · exact ⟨_, _, hnew, rfl⟩
      · intro w hw
        rcases List.mem_append.mp hw with hw | hw
        · exact h.fits w hw
        · rw [List.mem_singleton.mp hw]
          exact hfits
      · rw [List.map_append, List.foldlM_append, h.replay]
        simp only [List.map_cons, List.map_nil, List.foldlM_cons, List.foldlM_nil,
          insertRecordFromWal, logTo_full, hfull, insertNode_logTo, hinsert', Option.bind_eq_bind,
          Option.bind_some, Option.map_some, Option.pure_def, logTo_logTo,
          Bool.false_eq_true, ↓reduceIte]
    · cases hc

theorem Replayed.calls {t t' : MemtableInner} {maxSize maxNodes : Nat} {wal : Wal} {ws : Entries}
    (h : Replayed t maxSize maxNodes wal ws) {calls : List Call}
    (hrun : calls.foldlM MemtableInner.call t = some t') :
    ∃ ws', Replayed t' maxSize maxNodes wal ws' := by
  induction calls generalizing t ws with
  | nil =>
    cases hrun
    exact ⟨ws, h⟩
  | cons c calls ih =>
    rw [List.foldlM_cons] at hrun
    obtain ⟨t1, hcall, hrun⟩ := Option.bind_eq_some_iff.mp hrun
    obtain ⟨ws1, h1⟩ := h.call hcall
    exact ih h1 hrun

/-- The replay of everything a memtable logged never finds the table full and ends with that
memtable's tree. -/
theorem replay_rebuilds {maxSize maxNodes fileTs now : Nat} {calls : List Call}
    {t : MemtableInner}
    (h : calls.foldlM MemtableInner.call (new maxSize maxNodes (Wal.new fileTs now [])) = some t)
    (wal : Wal) :
    ∃ t', fromWal (t.wal.fd.content ++ t.wal.buffer) maxSize maxNodes wal = some t' ∧
      t'.arena = t.arena ∧ t'.rootNode = t.rootNode ∧ t'.currentSize = t.currentSize := by
  obtain ⟨ws, hrep⟩ := (replayed_new maxSize maxNodes fileTs now wal).calls h
  obtain ⟨filed, buffered, hwal, rfl⟩ := hrep.logged
  refine ⟨t.logTo wal, ?_, rfl, rfl, rfl⟩
  rw [hwal.fd, hwal.buffer, ← logBlob_append, fromWal_logBlob hrep.fits]
  exact hrep.replay

/-- Two writes, an overwrite and a call that finds the table full. -/
def replayedCalls : List Call :=
  [⟨[98], .data [1], ⟨0, 0⟩⟩, ⟨[97], .tombstone, ⟨0, 0⟩⟩, ⟨[98], .data [2], ⟨500, 500⟩⟩,
    ⟨[99], .data [3], ⟨500, 500⟩⟩, ⟨[100], .data [4], ⟨500, 500⟩⟩]

theorem replay_rebuilds_five :
    ∃ t, replayedCalls.foldlM MemtableInner.call (new 100 3 (Wal.new 0 0 [])) = some t ∧
    t.arena.length = 3 ∧ ∃ t', fromWal (t.wal.fd.content ++ t.wal.buffer) 100 3 (Wal.new 1 0 []) =
      some t' ∧ t'.arena = t.arena ∧ t'.rootNode = t.rootNode ∧ t'.currentSize = t.currentSize := by
  have hrun : (replayedCalls.foldlM MemtableInner.call (new 100 3 (Wal.new 0 0 []))).map
      (·.arena.length) = some 3 := by
    decide +kernel
  obtain ⟨t, ht, hlength⟩ := Option.map_eq_some_iff.mp hrun
  exact ⟨t, ht, hlength, replay_rebuilds ht (Wal.new 1 0 [])⟩

end Lsmlite.MemtableInner
