import Lsmlite.EngineLayers

/-!
# The cache of a run

What the cache's tables hold is in a relation to the writes of the tables flushed so far, oldest
first. A relation that flushing a table and compacting the cache keep holds in every state
reached.
-/

namespace Lsmlite
open KeyValue

/-- A relation between the flushed writes and the lists of the cache, newest first, that flushing
keeps, and compaction where it does what `merges` says. Where `reads` says so, the entry found
for a key can be read. -/
structure CacheRule (h : Hashing) (merges : List SSTableIterator → Prop)
    (reads : Entries → Blob → Prop) (Rel : Entries → List Entries → Prop) : Prop where
  nil : Rel [] []
  push : ∀ {ws ess} (tw : Entries), Rel ws ess → Rel (ws ++ tw) (ofWrites tw :: ess)
  compact : ∀ {ws ess iters es}, Rel ws ess → Compacted h ess iters es → merges iters → Rel ws [es]
  window : ∀ {ws ess key}, Rel ws ess → reads ws key → ∀ e, findEntry key ess = some e →
    InWindow key e

namespace Engine

/-- The tables whose SSTables have been pushed to the cache. -/
def cached (e : Engine) : List Nat :=
  e.popped ++ match e.compactor with
    | .popping _ => e.immutable.head?.toList
    | _ => []

/-- Their writes, oldest first. -/
def flushed (e : Engine) : Entries := e.cached.flatMap e.writesOf

/-- The files written by this step meet the limits of their format, compaction does what `merges`
says, and an SSTable is searched where `reads` says so. -/
def CacheStep (merges : List SSTableIterator → Prop) (reads : Entries → Blob → Prop) (e : Engine)
    (a : Action) : Prop :=
  match a with
  | .background (.compact _) =>
    match tablesToIterators e.sstableCache.cache with
    | some (iters, _) =>
      merges iters ∧ ∀ pushed, Merge.pushed iters = some pushed → Representable (pushed.map entryOf)
    | none => True
  | .client i .readSstables =>
    match e.clients[i]? with
    | some (.readingSstables key _) => reads e.flushed key
    | _ => True
  | a => e.FlushFits a

theorem CacheStep.imp {merges merges' : List SSTableIterator → Prop} {reads : Entries → Blob → Prop}
    (himp : ∀ iters, merges iters → merges' iters) {e : Engine} {a : Action}
    (h : e.CacheStep merges reads a) : e.CacheStep merges' reads a := by
  unfold CacheStep at h ⊢
  split at h
  · split at h
    · exact ⟨himp _ h.1, h.2⟩
    · trivial
  · exact h
  · exact h

/-- The cache's tables, and the table that is to replace them. -/
structure CacheHolds (h : Hashing) (Rel : Entries → List Entries → Prop) (e : Engine) : Prop where
  tables : ∃ ess, SSTableCache.Holds h e.sstableCache.cache ess ∧ Rel e.flushed ess
  compacted : ∀ ts table, e.compactor = .replacing ts table →
    ∃ es, table.Holds h es ∧ Rel e.flushed [es]

theorem CacheHolds.same {h : Hashing} {Rel : Entries → List Entries → Prop} {e e' : Engine}
    (hc : CacheHolds h Rel e) (hcache : e'.sstableCache = e.sstableCache)
    (hflushed : e'.flushed = e.flushed)
    (hcompacted : ∀ ts table, e'.compactor = .replacing ts table →
      e.compactor = .replacing ts table) :
    CacheHolds h Rel e' where
  tables := by rw [hcache, hflushed]; exact hc.tables
  compacted ts table ht := by rw [hflushed]; exact hc.compacted ts table (hcompacted ts table ht)

/-- The tables in the cache are settled. -/
theorem mem_cached {e : Engine} {i : Nat} (hi : i ∈ e.cached) : i ∈ e.popped ++ e.immutable := by
  unfold cached at hi
  rcases List.mem_append.mp hi with hi | hi
  · exact List.mem_append_left _ hi
  · split at hi
    · exact List.mem_append_right _ (List.mem_of_mem_head? (by simpa using hi))
    · cases hi

theorem flushed_same {c : Config} {e e' : Engine} {a : Action} (hp : Placed e)
    (hs : step c e a = some e') (hcached : e'.cached = e.cached) : e'.flushed = e.flushed := by
  rw [flushed, flushed, hcached]
  exact List.flatMap_congr fun i hi => writesOf_step hs (hp.lt (mem_cached hi))

section
variable {merges : List SSTableIterator → Prop} {reads : Entries → Blob → Prop}
  {Rel : Entries → List Entries → Prop}

theorem cache_start {h : Hashing} (hrule : CacheRule h merges reads Rel) (c : Config)
    (stamp : LsmliteInner.Stamp) : CacheHolds h Rel (start c stamp) where
  tables := ⟨[], List.Forall₂.nil, hrule.nil⟩
  compacted ts table ht := by cases ht

theorem cached_client {c : Config} {e e' : Engine} {i : Nat} {a : ClientAction}
    (hl : Loading c.hashing e) (h : ClientStep c e i a e') : e'.cached = e.cached := by
  cases h with
  | @append w full hi =>
    -- The front the load is about to pop stays in front.
    unfold cached
    show e.popped ++ (match e.compactor with
      | .popping _ => (e.immutable ++ [full]).head?.toList
      | _ => []) = _
    cases hc : e.compactor with
    | popping n =>
      obtain ⟨j, rest, hrest⟩ := hl.popping n hc
      rw [hrest]
      rfl
    | _ => rfl
  | @readMemtable key before table q hi htable hq => cases LsmliteInner.readQuery q <;> rfl
  | @readImmutable key before queue q hi hqueue hq => cases LsmliteInner.readQuery q <;> rfl
  | _ => rfl

/-- Only a push puts a table into the cache. -/
theorem cached_background {c : Config} {e e' : Engine} {a : BackgroundAction}
    (h : BackgroundStep c e a e') (ha : a ≠ .pushTable) : e'.cached = e.cached := by
  unfold cached
  cases h with
  | pushTable => exact absurd rfl ha
  | @popTable n hc =>
    rw [hc]
    by_cases hrate : e.sstableCache.compactionRate ≤ n
    · simp only [if_pos hrate, List.append_nil]
    · simp only [if_neg hrate, List.append_nil]
  | receiveLoad hc hch => rw [hc]
  | compact hc => rw [hc]
  | replaceTables hc => rw [hc]
  | removeStale hc => rw [hc]
  | sendAck hc => rw [hc]
  | stopCompactor hc hch => rw [hc]
  | _ => rfl

/-- What a cache answers, where its answer can be read. -/
theorem CacheHolds.search {h : Hashing} (hrule : CacheRule h merges reads Rel) {e : Engine}
    (hc : CacheHolds h Rel e) {key : Blob} (hreads : reads e.flushed key) :
    ∃ ess r sstableCache, Rel e.flushed ess ∧ e.sstableCache.search h key = some (r, sstableCache) ∧
      r.toOption = readEntry (findEntry key ess) ∧ SSTableCache.Holds h sstableCache.cache ess := by
  obtain ⟨ess, hess, hrel⟩ := hc.tables
  obtain ⟨r, tables', hsearch, hr, htables'⟩ := searchTables_eq hess (hrule.window hrel hreads)
  exact ⟨ess, r, _, hrel, by rw [SSTableCache.search, hsearch]; rfl, hr, htables'⟩

theorem cache_step {c : Config} {e e' : Engine} {a : Action}
    (hrule : CacheRule c.hashing merges reads Rel) (hc : CacheHolds c.hashing Rel e)
    (hp : Placed e) (hl : Loading c.hashing e) (hok : e.CacheStep merges reads a)
    (hs : step c e a = some e') : CacheHolds c.hashing Rel e' := by
  have hs' := hs
  cases step_cases hs with
  | spawn hopen => exact hc.same rfl (flushed_same hp hs rfl) fun _ _ ht => ht
  | drop hopen hidle => exact hc.same rfl (flushed_same hp hs rfl) fun _ _ ht => ht
  | @client i a _ hcl =>
    have hflushed := flushed_same hp hs (cached_client hl hcl)
    cases hcl with
    | @readSstables key before r sstableCache hi hr =>
      have hreads : reads e.flushed key := by simpa only [CacheStep, hi] using hok
      obtain ⟨ess, r', sstableCache', hrel, hsearch, _, hess⟩ := hc.search hrule hreads
      cases hr.symm.trans hsearch
      refine ⟨⟨ess, hess, by rw [hflushed]; exact hrel⟩, fun ts table ht => ?_⟩
      rw [hflushed]
      exact hc.compacted ts table ht
    | @readMemtable key before table q hi htable hq =>
      revert hflushed
      cases LsmliteInner.readQuery q <;> exact fun hflushed => hc.same rfl hflushed fun _ _ ht => ht
    | @readImmutable key before queue q hi hqueue hq =>
      revert hflushed
      cases LsmliteInner.readQuery q <;> exact fun hflushed => hc.same rfl hflushed fun _ _ ht => ht
    | _ => exact hc.same rfl hflushed fun _ _ ht => ht
  | @background a _ hb =>
    have hflushed := fun ha => flushed_same hp hs (cached_background hb ha)
    cases hb with
    | @pushTable ts f table hcomp hfile htable =>
      obtain ⟨i, f', ⟨rest, hrest⟩, hfind, s, hload, hholds⟩ := hl.file ts (by
        rw [underWay, hcomp]
        exact List.mem_append_right _ (List.mem_singleton_self _))
      cases hfile.symm.trans hfind
      cases htable.symm.trans hload
      obtain ⟨ess, hess, hrel⟩ := hc.tables
      have hpushed : ∀ n, flushed { e with
          sstableCache := e.sstableCache.push table
          compactor := .popping n } = e.flushed ++ e.writesOf i := by
        intro n
        unfold flushed cached
        simp only [hrest, hcomp, List.head?_cons, Option.toList_some, List.append_nil,
          List.flatMap_append, List.flatMap_cons, List.flatMap_nil]
        rfl
      refine ⟨⟨ofWrites (e.writesOf i) :: ess, List.Forall₂.cons hholds hess, ?_⟩, fun _ _ ht => ?_⟩
      · rw [hpushed]
        exact hrule.push _ hrel
      · cases ht
    | @popTable n hcomp =>
      refine hc.same rfl (hflushed (by simp)) fun ts table ht => ?_
      dsimp only at ht
      split at ht <;> cases ht
    | @compact ts iters cache table path hcomp hts hiters htable =>
      obtain ⟨ess, hess, hrel⟩ := hc.tables
      obtain ⟨iters', cache', es, hiters', hcache', hcompacted⟩ := compacted hess
      cases hiters.symm.trans hiters'
      simp only [CacheStep, hiters] at hok
      have hrep := hok.2 _ hcompacted.pushed
      rw [map_entryOf] at hrep
      obtain ⟨table', path', hrun, hholds, _⟩ := hcompacted.table hrep ts
      cases htable.symm.trans hrun
      refine ⟨⟨ess, hcache', by rw [hflushed (by simp)]; exact hrel⟩, fun ts' table' ht => ?_⟩
      cases ht
      exact ⟨es, hholds, by rw [hflushed (by simp)]; exact hrule.compact hrel hcompacted hok.1⟩
    | @replaceTables ts table hcomp =>
      obtain ⟨es, hholds, hrel⟩ := hc.compacted ts table hcomp
      refine ⟨⟨[es], List.Forall₂.cons hholds List.Forall₂.nil, by
        rw [hflushed (by simp)]; exact hrel⟩, fun ts' table' ht => ?_⟩
      cases ht
    | receiveLoad hcomp hch =>
      exact hc.same rfl (hflushed (by simp)) fun _ _ ht => by cases ht
    | removeStale hcomp =>
      exact hc.same rfl (hflushed (by simp)) fun _ _ ht => by cases ht
    | sendAck hcomp =>
      exact hc.same rfl (hflushed (by simp)) fun _ _ ht => by cases ht
    | stopCompactor hcomp hch =>
      exact hc.same rfl (hflushed (by simp)) fun _ _ ht => by cases ht
    | _ => exact hc.same rfl (hflushed (by simp)) fun _ _ ht => ht

/-- All layers of a run. -/
structure Layered (h : Hashing) (Rel : Entries → List Entries → Prop) (e : Engine) : Prop where
  placed : Placed e
  took : ∀ t ∈ e.tables, t.Took
  oneLoad : OneLoad e
  loading : Loading h e
  cache : CacheHolds h Rel e

theorem flushFits_of_cacheStep {e : Engine} {a : Action} (h : e.CacheStep merges reads a) :
    e.FlushFits a := by
  unfold CacheStep at h
  split at h
  · trivial
  · trivial
  · exact h

theorem layered_start {c : Config} (hrule : CacheRule c.hashing merges reads Rel)
    (stamp : LsmliteInner.Stamp) : Layered c.hashing Rel (start c stamp) where
  placed := placed_start c stamp
  took t ht := by
    rw [List.mem_singleton.mp ht]
    exact Table.took_fresh c stamp
  oneLoad := one_load_start c stamp
  loading := loading_start c.hashing c stamp
  cache := cache_start hrule c stamp

theorem layered_step {c : Config} {e e' : Engine} {a : Action}
    (hrule : CacheRule c.hashing merges reads Rel) (h : Layered c.hashing Rel e)
    (hok : e.CacheStep merges reads a) (hs : step c e a = some e') :
    Layered c.hashing Rel e' where
  placed := placed_step h.placed hs
  took := took_step h.took hs
  oneLoad := one_load_step h.oneLoad hs
  loading := loading_step h.loading h.placed h.oneLoad h.took (flushFits_of_cacheStep hok) hs
  cache := cache_step hrule h.cache h.placed h.loading hok hs

end

end Engine

end Lsmlite
