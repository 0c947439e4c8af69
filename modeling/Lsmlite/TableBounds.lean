import Lsmlite.Cleanup
import Lsmlite.EnginePipeline
import Lsmlite.FileNames
import Lsmlite.FileReads

/-!
# How many tables there are

A flush waits for its table to be loaded, and the load for the compaction that it sets off. So the
cache stays within the compaction rate, and the directory has at most one SSTable more.
-/

namespace Lsmlite

/-- The flush task has a file that the compaction task does not know of. -/
def Flusher.filing : Flusher → Nat
  | .created _ => 1
  | .writing _ _ => 1
  | .written _ _ => 1
  | .sending _ => 1
  | _ => 0

/-- The compaction task has a file whose table is not in the cache. -/
def Compactor.filing : Compactor → Nat
  | .loading _ => 1
  | .replacing _ _ => 1
  | _ => 0

/-- The task has pushed a table and not yet replaced the others, should there be too many. -/
def Compactor.overfull : Compactor → Bool
  | .popping _ => true
  | .compacting => true
  | .replacing _ _ => true
  | _ => false

theorem Compactor.filing_le (p : Compactor) : p.filing ≤ p.busy.toNat := by
  cases p <;> simp [Compactor.filing, Compactor.busy]

namespace Engine

/-- The files on their way into the cache. -/
def filing (e : Engine) : Nat := e.flusher.filing + e.loads.length + e.compactor.filing

/-- The tables that the cache may hold when the compaction task is where it is. -/
def room (e : Engine) (rate : Nat) : Nat :=
  if e.compactor.overfull then max rate 2 else max (rate - 1) 1

structure Bounded (rate : Nat) (e : Engine) : Prop where
  sameRate : e.sstableCache.compactionRate = rate
  one : e.flusher.filing + e.loads.length + e.compactor.busy.toNat ≤ 1
  cache : e.sstableCache.cache.length ≤ e.room rate
  popping : ∀ n, e.compactor = .popping n → n = e.sstableCache.cache.length
  files : (∀ ts, e.compactor ≠ .cleaning ts) →
    e.files.length ≤ e.sstableCache.cache.length + e.filing
  cleaning : e.files.length ≤ max rate 2 + 1

theorem bounded_start (c : Config) (stamp : LsmliteInner.Stamp) :
    Bounded c.compactionRate (start c stamp) where
  sameRate := rfl
  one := Nat.zero_le _
  cache := Nat.zero_le _
  popping n hn := by cases hn
  files _ := Nat.le_refl _
  cleaning := Nat.zero_le _

theorem room_le (e : Engine) (rate : Nat) : e.room rate ≤ max rate 2 := by
  unfold room
  split <;> omega

/-- What leaves the tasks, their messages and the files alone. -/
theorem Bounded.same {rate : Nat} {e e' : Engine} (h : Bounded rate e)
    (hrate : e'.sstableCache.compactionRate = e.sstableCache.compactionRate)
    (hcache : e'.sstableCache.cache.length = e.sstableCache.cache.length)
    (hflusher : e'.flusher.filing = e.flusher.filing) (hloads : e'.loads = e.loads)
    (hcompactor : e'.compactor = e.compactor) (hfiles : e'.files.length = e.files.length) :
    Bounded rate e' where
  sameRate := hrate.trans h.sameRate
  one := by rw [hflusher, hloads, hcompactor]; exact h.one
  cache := by rw [room, hcompactor, hcache]; exact h.cache
  popping := by rw [hcompactor, hcache]; exact h.popping
  files := by rw [filing, hflusher, hloads, hcompactor, hcache, hfiles]; exact h.files
  cleaning := by rw [hfiles]; exact h.cleaning

/-- Every file of the engine is stale to a compaction, the new table's with them. -/
theorem stale_files (fileTs : Nat) (files : List SstFile) :
    files.filter (fun f => !isStale (generateSstableFileName fileTs) (dirEntry f)) = [] := by
  rw [List.filter_eq_nil_iff]
  intro f _
  rw [isStale_generated, DirEntry.isSstableFile, dirEntry, DirEntry.path, extension_sstable]
  simp

theorem Bounded.client {c : Config} {rate : Nat} {e e' : Engine} {i : Nat} {a : ClientAction}
    (h : Bounded rate e) (hc : ClientStep c e i a e') : Bounded rate e' := by
  have hsame := hc.tasks_same
  have hcache : e'.sstableCache.compactionRate = e.sstableCache.compactionRate ∧
      e'.sstableCache.cache.length = e.sstableCache.cache.length := by
    cases hc with
    | @readSstables key before r sstableCache hi hr =>
      refine ⟨?_, (SSTableCache.search_readOn hr).length_eq.symm⟩
      obtain ⟨_, _, heq⟩ := Option.map_eq_some_iff.mp hr
      cases heq
      rfl
    | @readMemtable key before table q hi htable hq =>
      cases LsmliteInner.readQuery q <;> exact ⟨rfl, rfl⟩
    | @readImmutable key before queue q hi hqueue hq =>
      cases LsmliteInner.readQuery q <;> exact ⟨rfl, rfl⟩
    | _ => exact ⟨rfl, rfl⟩
  exact h.same hcache.1 hcache.2 (by rw [hsame.flusher]) hsame.loads hsame.compactor
    (by rw [hsame.files])

section
variable {rate : Nat} {e : Engine}

/-- A flush makes its file only when the compaction task is done with the one before. -/
theorem Bounded.fileCreated (h : Bounded rate e) (hone : OneLoad e) {ts : Nat}
    (hf : e.flusher = .creating) :
    Bounded rate
      { e with flusher := .created ts, files := e.files ++ [⟨ts, []⟩], clock := ts } := by
  obtain ⟨hloads, hbusy, _⟩ := hone.of_flusher (by simp [hf]) (by simp [hf])
  have hnot : ∀ ts, e.compactor ≠ .cleaning ts := by
    intro ts heq
    rw [heq] at hbusy
    cases hbusy
  have hfiling := e.compactor.filing_le
  have hroom := e.room_le rate
  have hcache := h.cache
  have hfiles := h.files hnot
  rw [hbusy] at hfiling
  simp only [filing, hf, hloads, Flusher.filing, List.length_nil, Bool.toNat_false]
    at hfiles hfiling
  refine ⟨h.sameRate, ?_, hcache, h.popping, fun _ => ?_, ?_⟩
  · show 1 + e.loads.length + e.compactor.busy.toNat ≤ 1
    rw [hloads, hbusy]
    exact Nat.le_refl 1
  · show (e.files ++ [_]).length ≤ e.sstableCache.cache.length +
      (1 + e.loads.length + e.compactor.filing)
    rw [List.length_append, List.length_singleton]
    omega
  · show (e.files ++ [_]).length ≤ _
    rw [List.length_append, List.length_singleton]
    omega

theorem Bounded.loadSent (h : Bounded rate e) {ts : Nat} (hf : e.flusher = .sending ts) :
    Bounded rate { e with flusher := .awaiting, signal := e.signal ++ [.loadSSTable ts] } := by
  have hloads : ({ e with flusher := .awaiting, signal := e.signal ++ [.loadSSTable ts] } :
      Engine).loads = e.loads ++ [ts] := by
    simp [loads, CompactionSignal.ts]
  have hunder := h.one
  refine ⟨h.sameRate, ?_, h.cache, h.popping, fun hnot => ?_, h.cleaning⟩
  · rw [hf] at hunder
    simp only [hloads, Flusher.filing, List.length_append, List.length_singleton] at hunder ⊢
    omega
  · have hfiles := h.files hnot
    simp only [filing, hf, hloads, Flusher.filing, List.length_append,
      List.length_singleton] at hfiles ⊢
    omega

theorem Bounded.loadReceived (h : Bounded rate e) {ts : Nat} {rest : List CompactionSignal}
    (hc : e.compactor = .waiting) (hch : e.signal = .loadSSTable ts :: rest) :
    Bounded rate { e with compactor := .loading ts, signal := rest } := by
  have hloads :
      e.loads = ts :: ({ e with compactor := .loading ts, signal := rest } : Engine).loads := by
    simp [loads, hch, CompactionSignal.ts]
  have hunder := h.one
  have hcache := h.cache
  refine ⟨h.sameRate, ?_, ?_, by simp, fun _ => ?_, h.cleaning⟩
  · rw [hc, hloads] at hunder
    simp only [Compactor.busy, List.length_cons, Bool.toNat_false, Bool.toNat_true] at hunder ⊢
    omega
  · rw [room, hc] at hcache
    exact hcache
  · have hfiles := h.files (by simp [hc])
    rw [filing, hc, hloads] at hfiles
    simp only [filing, Compactor.filing, List.length_cons] at hfiles ⊢
    omega

/-- The cache may be one over the rate until the compaction that follows. -/
theorem Bounded.tablePushed (h : Bounded rate e) {ts : Nat} (hc : e.compactor = .loading ts)
    (table : SSTable) :
    Bounded rate { e with
      sstableCache := e.sstableCache.push table
      compactor := .popping (e.sstableCache.push table).cache.length } := by
  have hunder := h.one
  have hcache := h.cache
  rw [hc] at hunder
  refine ⟨h.sameRate, hunder, ?_, fun n hn => ?_, fun _ => ?_, h.cleaning⟩
  · simp only [room, hc, Compactor.overfull, Bool.false_eq_true, if_false, if_true,
      SSTableCache.push, List.length_cons] at hcache ⊢
    omega
  · cases hn
    rfl
  · have hfiles := h.files (by simp [hc])
    simp only [filing, hc, Compactor.filing] at hfiles
    show e.files.length ≤ (table :: e.sstableCache.cache).length +
      (e.flusher.filing + e.loads.length + 0)
    rw [List.length_cons]
    omega

theorem Bounded.tablePopped (h : Bounded rate e) {n : Nat} (hc : e.compactor = .popping n) :
    Bounded rate { e with
      immutable := e.immutable.tail
      popped := e.popped ++ e.immutable.head?.toList
      compactor := if e.sstableCache.compactionRate ≤ n then .compacting else .acking } := by
  have hn := h.popping n hc
  have hbusy : (if e.sstableCache.compactionRate ≤ n then Compactor.compacting
      else .acking).busy = true := by
    split <;> rfl
  have hfiling :
      (if e.sstableCache.compactionRate ≤ n then Compactor.compacting else .acking).filing = 0 := by
    split <;> rfl
  have hunder := h.one
  have hrate := h.sameRate
  rw [hc] at hunder
  refine ⟨hrate, ?_, ?_, fun n hn => ?_, fun _ => ?_, h.cleaning⟩
  · show e.flusher.filing + e.loads.length + Bool.toNat _ ≤ 1
    rw [hbusy]
    exact hunder
  · show e.sstableCache.cache.length ≤ if Compactor.overfull _ then max rate 2 else max (rate - 1) 1
    by_cases hfull : e.sstableCache.compactionRate ≤ n
    · rw [if_pos hfull]
      exact h.cache.trans (e.room_le rate)
    · rw [if_neg hfull, ← hn]
      simp only [Compactor.overfull, Bool.false_eq_true, if_false]
      omega
  · dsimp only at hn
    split at hn <;> cases hn
  · have hfiles := h.files (by simp [hc])
    simp only [filing, hc, Compactor.filing] at hfiles
    show e.files.length ≤ e.sstableCache.cache.length +
      (e.flusher.filing + e.loads.length + Compactor.filing _)
    rw [hfiling]
    exact hfiles

/-- The new table's file comes to those of the tables it is made of. -/
theorem Bounded.compacted (h : Bounded rate e) (hc : e.compactor = .compacting)
    {cache : List SSTable} (hlength : cache.length = e.sstableCache.cache.length) (ts : Nat)
    (table : SSTable) :
    Bounded rate { e with
      sstableCache := { e.sstableCache with cache }
      files := e.files ++ [⟨ts, table.fd.content⟩]
      clock := ts
      compactor := .replacing ts table } := by
  have hunder := h.one
  have hroom := e.room_le rate
  have hcache := h.cache
  have hfiles := h.files (by simp [hc])
  simp only [filing, hc, Compactor.filing] at hfiles
  rw [hc] at hunder
  simp only [Compactor.busy, Bool.toNat_true] at hunder
  refine ⟨h.sameRate, hunder, ?_, by simp, fun _ => ?_, ?_⟩
  · show cache.length ≤ max rate 2
    rw [hlength]
    exact hcache.trans hroom
  · show (e.files ++ [_]).length ≤ cache.length + (e.flusher.filing + e.loads.length + 1)
    rw [List.length_append, List.length_singleton, hlength]
    omega
  · show (e.files ++ [_]).length ≤ _
    rw [List.length_append, List.length_singleton]
    omega

/-- The compaction task goes on, with no file of its own. -/
theorem Bounded.waits (h : Bounded rate e) {p : Compactor} (hc : e.compactor = p) {p' : Compactor}
    {signal : List CompactionSignal} {ack : Nat}
    (hloads : ({ e with compactor := p', signal, sstableAck := ack } : Engine).loads = e.loads)
    (hbusy : p'.busy.toNat ≤ p.busy.toNat) (hfull : p'.overfull = p.overfull)
    (hfiling : p'.filing = p.filing) (hpopping : ∀ n, p' ≠ .popping n)
    (hcleaning : ∀ ts, p ≠ .cleaning ts) :
    Bounded rate { e with compactor := p', signal, sstableAck := ack } := by
  have hunder := h.one
  have hcache := h.cache
  have hfiles := h.files (by rw [hc]; exact hcleaning)
  rw [hc] at hunder
  refine ⟨h.sameRate, ?_, ?_, fun n hn => absurd hn (hpopping n), fun _ => ?_, h.cleaning⟩
  · rw [hloads]
    show e.flusher.filing + e.loads.length + p'.busy.toNat ≤ 1
    omega
  · rw [room, hc, ← hfull] at hcache
    exact hcache
  · rw [filing, hc, ← hfiling] at hfiles
    rw [filing, hloads]
    exact hfiles

end

theorem Bounded.background {c : Config} {rate : Nat} {e e' : Engine} {a : BackgroundAction}
    (h : Bounded rate e) (hone : OneLoad e) (hb : BackgroundStep c e a e') : Bounded rate e' := by
  have hunder := h.one
  have hcache := h.cache
  cases hb with
  | receiveFlush hf hch | takeFront hf hq | stopFlusher hf hch | removeWal hf ht
  | receiveAck hf hack | ackLost hf hack =>
    refine h.same rfl rfl ?_ rfl rfl rfl
    simp only [hf, Flusher.filing]
  | writePart hf ht hcontent =>
    refine h.same rfl rfl rfl rfl rfl ?_
    simp [putFile]
  | finishFile hf ht hcontent =>
    refine h.same rfl rfl ?_ rfl rfl ?_
    · simp only [hf, Flusher.filing]
    · simp [putFile]
  | createFile hf hts => exact h.fileCreated hone hf
  | sendLoad hf => exact h.loadSent hf
  | receiveLoad hc hch => exact h.loadReceived hc hch
  | pushTable hc hfile htable => exact h.tablePushed hc _
  | popTable hc => exact h.tablePopped hc
  | compact hc hts hiters htable => exact h.compacted hc (tablesToIterators_length hiters) _ _
  | @replaceTables ts table hc =>
    rw [hc] at hunder
    refine ⟨h.sameRate, hunder, ?_, by simp, fun hnot => absurd rfl (hnot ts), h.cleaning⟩
    show 1 ≤ max (rate - 1) 1
    omega
  | @removeStale ts hc =>
    rw [hc] at hunder
    refine ⟨h.sameRate, hunder, ?_, by simp, fun _ => ?_, ?_⟩
    · rw [room, hc] at hcache
      exact hcache
    · rw [stale_files]
      exact Nat.zero_le _
    · rw [stale_files]
      exact Nat.zero_le _
  | sendAck hc => exact h.waits hc rfl (Nat.zero_le _) rfl rfl (by simp) (by simp)
  | stopCompactor hc hch =>
    refine h.waits hc ?_ (Nat.zero_le _) rfl rfl (by simp) (by simp)
    rw [loads, loads, hch]
    rfl

theorem bounded_step {c : Config} {rate : Nat} {e e' : Engine} {a : Action} (h : Bounded rate e)
    (hone : OneLoad e) (hs : step c e a = some e') : Bounded rate e' := by
  cases step_cases hs with
  | spawn hopen => exact h.same rfl rfl rfl rfl rfl rfl
  | drop hopen hidle => exact h.same rfl rfl rfl (by simp [loads, CompactionSignal.ts]) rfl rfl
  | client hc => exact h.client hc
  | background hb => exact h.background hone hb

/-- In every run the cache has no more tables than the compaction rate, or two if that is less, and
the directory has at most one SSTable more. -/
theorem tables_bounded {c : Config} {ok : Engine → Action → Prop} {e : Engine}
    (h : Reaches c ok e) :
    e.sstableCache.cache.length ≤ max c.compactionRate 2 ∧
      e.files.length ≤ max c.compactionRate 2 + 1 := by
  have hinv := h.invariant (P := fun e => OneLoad e ∧ Bounded c.compactionRate e)
    (fun stamp => ⟨one_load_start c stamp, bounded_start c stamp⟩)
    fun _ _ _ he _ hs => ⟨one_load_step he.1 hs, bounded_step he.2 he.1 hs⟩
  exact ⟨hinv.2.cache.trans (e.room_le _), hinv.2.cleaning⟩

/-- A table on its way into the cache. -/
theorem tables_bounded_loading : ∃ e, Reaches tinyConfig (fun _ _ => True) e ∧ e.files.length = 1 ∧
    e.sstableCache.cache.length ≤ max tinyConfig.compactionRate 2 ∧
    e.files.length ≤ max tinyConfig.compactionRate 2 + 1 := by
  have hrun : (runActions tinyConfig (fun _ _ => True) (start tinyConfig ⟨0, 0⟩) ([.spawn] ++
      writeSteps 0 [97] [1] ++ swapSteps 0 [98] [2] 1 ++ [.client 0 .append, .client 0 .signal] ++
      (flushCycle 2).take 6)).map (·.files.length) = some 1 := by
    decide +kernel
  obtain ⟨e, he, hfiles⟩ := Option.map_eq_some_iff.mp hrun
  have hreach := reaches_runActions (.start _) he
  exact ⟨e, hreach, hfiles, tables_bounded hreach⟩

end Engine

end Lsmlite
