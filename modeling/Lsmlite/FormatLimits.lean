import Lsmlite.DiskTables
import Lsmlite.SSTableRoundTrip

/-!
# Runs within the limits of the format

As long as the records of all calls would fit one file together, every file that a run writes meets
the limits of its format, whatever it is made of.
-/

namespace Lsmlite
open KeyValue

theorem prefixes_subset {es ws : Entries} (h : es ⊆ ws) : prefixes es ⊆ prefixes ws := by
  intro pre hpre
  obtain ⟨w, hw, hin⟩ := List.mem_flatMap.mp (List.mem_dedup.mp hpre)
  exact mem_prefixes (h hw) ((List.mem_inits _ _).mp hin)

theorem logBlob_length_le {es ws : Entries} (h : es.Subperm ws) :
    (logBlob es).length ≤ (logBlob ws).length := by
  obtain ⟨l, hperm, hsub⟩ := h
  rw [← logBlob_perm hperm]
  exact (hsub.flatMap _).length_le

/-- A part of what fits one file fits one file. -/
theorem Representable.of_subperm {es ws : Entries} (hrep : Representable ws) (h : es.Subperm ws) :
    Representable es := by
  have hsub := prefixes_subset h.subset
  refine ⟨⟨?_, ?_⟩, ?_⟩
  · have hle := (List.subperm_of_subset (List.nodup_dedup _) hsub).length_le
    exact Nat.lt_of_le_of_lt hle hrep.roomy.nodes
  · intro label hlabel
    obtain ⟨c, hc⟩ := hrep.roomy.children label (hsub hlabel)
    exact ⟨c, fun hin => hc (hsub hin)⟩
  · have hle := logBlob_length_le h
    have := hrep.size
    omega

theorem sorted_subperm {es ws : Entries} (hs : Sorted es) (h : ∀ w ∈ es, w ∈ ws) :
    es.Subperm ws := by
  have hnodup : es.Nodup := hs.imp fun hlt heq => ne_of_lt hlt (congrArg Prod.fst heq)
  exact List.subperm_of_subset hnodup h

theorem Representable.of_sorted {es ws : Entries} (hrep : Representable ws) (hs : Sorted es)
    (h : ∀ w ∈ es, w ∈ ws) : Representable es :=
  hrep.of_subperm (sorted_subperm hs h)

/-- Every entry of the lists was flushed. -/
def Sound (ws : Entries) (ess : List Entries) : Prop := ∀ es ∈ ess, ∀ w ∈ es, w ∈ ws

/-- No record is in a table that was not flushed. -/
theorem sound_rule (h : Hashing) : CacheRule h (fun _ => True) (fun _ _ => False) Sound where
  nil es hes := by cases hes
  push := by
    intro ws ess tw hsound es hes w hw
    rcases List.mem_cons.mp hes with rfl | hes
    · exact List.mem_append_right _ (mem_ofWrites hw)
    · exact List.mem_append_left _ (hsound es hes w hw)
  compact := by
    intro ws ess iters es hsound hcompacted _ es' hes' w hw
    rw [List.mem_singleton.mp hes'] at hw
    obtain ⟨_, es'', hes'', hw⟩ := hcompacted.data w hw
    exact hsound es'' hes'' w hw
  window := by
    intro ws ess key _ hreads
    exact hreads.elim

theorem SSTableCache.Holds.readOn {h : Hashing} {tables tables' : List SSTable} {ess : List Entries}
    (hs : SSTableCache.Holds h tables ess) (hread : List.Forall₂ SSTable.ReadOn tables tables') :
    SSTableCache.Holds h tables' ess := by
  induction hread generalizing ess with
  | nil => exact hs
  | cons hr _ ih =>
    cases hs with
    | cons hs htables => exact .cons (hs.readOn hr) (ih htables)

namespace Engine

/-- The records of all calls would fit one file together. -/
def FitsFormat (e : Engine) : Prop := Representable (asEntries e.invoked)

theorem FitsFormat.before {c : Config} {e e' : Engine} {a : Action} (h : e'.FitsFormat)
    (hs : step c e a = some e') : e.FitsFormat := by
  have hgrows := invoked_prefix hs
  have hsub : (asEntries e.invoked).Subperm (asEntries e'.invoked) := (hgrows.sublist.map _).subperm
  exact Representable.of_subperm h hsub

/-! ## The calls behind the records -/

/-- What clients write and tables took was called. -/
structure Known (e : Engine) : Prop where
  calls : ∀ p ∈ e.clients, ∀ w ∈ pending p, w ∈ e.invoked
  taken : ∀ t ∈ e.tables, ∀ w ∈ t.inserted, w ∈ e.invoked

theorem known_start (c : Config) (stamp : LsmliteInner.Stamp) : Known (start c stamp) where
  calls p hp := by cases hp
  taken t ht w hw := by
    rw [List.mem_singleton.mp ht] at hw
    cases hw

theorem Known.calls_set {e : Engine} (h : Known e) {i : Nat} {q : Phase}
    (hq : ∀ w ∈ pending q, w ∈ e.invoked) :
    ∀ p ∈ e.clients.set i q, ∀ w ∈ pending p, w ∈ e.invoked := by
  intro p hp
  rcases List.mem_or_eq_of_mem_set hp with hp | rfl
  · exact h.calls p hp
  · exact hq

theorem Known.write {e : Engine} (h : Known e) {i : Nat} {p : Phase} (hi : e.clients[i]? = some p)
    {w : Write} (hw : w ∈ pending p) : w ∈ e.invoked :=
  h.calls p (List.mem_of_getElem? hi) w hw

theorem calls_step {c : Config} {e e' : Engine} {a : Action} (h : Known e)
    (hs : step c e a = some e') :
    ∀ p ∈ e'.clients, ∀ w ∈ pending p, w ∈ e'.invoked := by
  have hnone : ∀ w ∈ (none : Option Write), w ∈ e.invoked := fun w hw => by cases hw
  cases step_cases hs with
  | spawn hopen =>
    intro p hp
    rcases List.mem_append.mp hp with hp | hp
    · exact h.calls p hp
    · rw [List.mem_singleton.mp hp]
      exact hnone
  | drop hopen hidle => exact h.calls
  | client hc =>
    cases hc with
    | @call hi hopen key entry =>
      intro p hp w hw
      rcases List.mem_or_eq_of_mem_set hp with hp | rfl
      · exact List.mem_append_left _ (h.calls p hp w hw)
      · cases hw
        exact List.mem_append_right _ (List.mem_singleton_self _)
    | attemptFull hi | rotate hi | append hi | signal hi =>
      exact h.calls_set fun w hw => h.write hi hw
    | attemptOk hi | retryOk hi | retryFull hi | get hi | readSstables hi => exact h.calls_set hnone
    | @readMemtable key before table q hi htable hq =>
      cases LsmliteInner.readQuery q <;> exact h.calls_set hnone
    | @readImmutable key before queue q hi hqueue hq =>
      cases LsmliteInner.readQuery q <;> exact h.calls_set hnone
  | background hb => cases hb <;> exact h.calls

theorem known_step {c : Config} {e e' : Engine} {a : Action} (h : Known e)
    (hs : step c e a = some e') :
    Known e' := by
  have hinvoked := (invoked_step hs).1
  refine ⟨calls_step h hs, fun t ht w hw => ?_⟩
  cases step_tables hs with
  | took i v clock table inner ha htable hwr hstep =>
    subst hstep
    rcases List.mem_or_eq_of_mem_set ht with ht | rfl
    · exact h.taken t ht w hw
    · rcases List.mem_append.mp hw with hw | hw
      · exact h.taken table (List.mem_of_getElem? htable) w hw
      · rw [List.mem_singleton.mp hw]
        rcases ha with ⟨_, hi⟩ | ⟨_, hi⟩ <;> exact h.write hi rfl
  | fresh i v stamp _ _ hstep =>
    rw [hstep] at ht
    rcases List.mem_append.mp ht with ht | ht
    · exact hinvoked w (h.taken t ht w hw)
    · rw [List.mem_singleton.mp ht] at hw
      cases hw
  | removed ts j t' _ _ ht' hstep =>
    rw [hstep] at ht
    rcases List.mem_or_eq_of_mem_set ht with ht | rfl
    · exact hinvoked w (h.taken t ht w hw)
    · exact hinvoked w (h.taken t' (List.mem_of_getElem? ht') w hw)
  | other hsame =>
    rw [hsame] at ht
    exact hinvoked w (h.taken t ht w hw)

theorem Reaches.known {c : Config} {ok : Engine → Action → Prop} {e : Engine} (h : Reaches c ok e) :
    Known e :=
  h.invariant (known_start c) fun _ _ _ he _ hs => known_step he hs

theorem Known.writesOf {e : Engine} (h : Known e) {i : Nat} :
    ∀ w ∈ e.writesOf i, w ∈ asEntries e.invoked := by
  intro v hv
  obtain ⟨w, ⟨t, ht, hw⟩, rfl⟩ := mem_writesOf.mp hv
  exact List.mem_map_of_mem (h.taken t (List.mem_of_getElem? ht) w hw)

theorem Known.flushed {e : Engine} (h : Known e) : ∀ w ∈ e.flushed, w ∈ asEntries e.invoked := by
  intro w hw
  obtain ⟨i, _, hw⟩ := List.mem_flatMap.mp hw
  exact h.writesOf w hw

/-! ## The limits of the files -/

/-- A table that is flushed fits its file. -/
theorem FitsFormat.table {e : Engine} (hfits : e.FitsFormat) (hk : Known e) (i : Nat) :
    Representable (ofWrites (e.writesOf i)) :=
  Representable.of_sorted hfits (sorted_ofWrites _) fun w hw => hk.writesOf w (mem_ofWrites hw)

/-- What a compaction merges fits its file. -/
theorem FitsFormat.merged {e : Engine} {h : Hashing} (hfits : e.FitsFormat) (hk : Known e)
    {ess : List Entries} (hsound : Sound e.flushed ess) {iters : List SSTableIterator}
    {es : Entries} (hcompacted : Compacted h ess iters es) : Representable es := by
  apply Representable.of_sorted hfits hcompacted.sorted
  intro w hw
  obtain ⟨_, es', hes', hw⟩ := hcompacted.data w hw
  exact hk.flushed w (hsound es' hes' w hw)

/-- A read of the cache leaves its tables what they are. -/
theorem Layered.searched {c : Config} {e e' : Engine} {Rel : Entries → List Entries → Prop}
    (hl : Layered c.hashing Rel e) {i : Nat} (hs : step c e (.client i .readSstables) = some e') :
    Layered c.hashing Rel e' := by
  have hs' := hs
  cases step_cases hs with
  | client hc =>
    have hflushed := flushed_same hl.placed hs (cached_client hl.loading hc)
    refine ⟨placed_step hl.placed hs', took_step hl.took hs', one_load_step hl.oneLoad hs',
      loading_step
        (a := .client i .readSstables) hl.loading hl.placed hl.oneLoad hl.took trivial hs', ?_⟩
    cases hc with
    | readSstables hi hr =>
      obtain ⟨ess, hess, hrel⟩ := hl.cache.tables
      refine ⟨⟨ess, hess.readOn (SSTableCache.search_readOn hr), ?_⟩, fun ts table ht => ?_⟩
      · rw [hflushed]
        exact hrel
      · rw [hflushed]
        exact hl.cache.compacted ts table ht

/-- A file that the step finishes meets the limits of its format. -/
def FileFits (e : Engine) (a : Action) : Prop :=
  match a with
  | .background (.compact _) =>
    match tablesToIterators e.sstableCache.cache with
    | some (iters, _) =>
      ∀ pushed, Merge.pushed iters = some pushed → Representable (pushed.map entryOf)
    | none => True
  | a => e.FlushFits a

theorem FileFits.cacheStep {e : Engine} {a : Action} (h : e.FileFits a)
    (ha : ∀ i, a ≠ .client i .readSstables) :
    e.CacheStep (fun _ => True) (fun _ _ => False) a := by
  unfold CacheStep
  split
  · rename_i ts
    simp only [FileFits] at h
    split
    · rename_i iters cache hiters
      rw [hiters] at h
      exact ⟨trivial, h⟩
    · trivial
  · rename_i i
    exact absurd rfl (ha i)
  · rename_i hcompact _
    unfold FileFits at h
    split at h
    · exact absurd rfl (hcompact _)
    · exact h

/-- What flushing and every compaction keep holds in every state reached. -/
theorem Reaches.layered {c : Config} {e : Engine} {Rel : Entries → List Entries → Prop}
    (hrule : CacheRule c.hashing (fun _ => True) (fun _ _ => False) Rel)
    (h : Reaches c FileFits e) :
    Layered c.hashing Rel e := by
  refine h.invariant (layered_start hrule) fun e a e' hl hfits hs => ?_
  by_cases ha : ∃ i, a = .client i .readSstables
  · obtain ⟨i, rfl⟩ := ha
    exact hl.searched hs
  · push Not at ha
    exact layered_step hrule hl (hfits.cacheStep ha) hs

/-- Whatever a table is made of, it was flushed. -/
theorem Reaches.sound {c : Config} {e : Engine} (h : Reaches c FileFits e) :
    Layered c.hashing Sound e :=
  h.layered (sound_rule c.hashing)

theorem FitsFormat.fileFits {c : Config} {e : Engine} (hfits : e.FitsFormat) (hk : Known e)
    (hl : Layered c.hashing Sound e) (a : Action) : e.FileFits a := by
  unfold FileFits
  split
  · obtain ⟨ess, hess, hsound⟩ := hl.cache.tables
    obtain ⟨iters, cache, es, hiters, _, hcompacted⟩ := compacted hess
    rw [hiters]
    intro pushed hpushed
    cases hcompacted.pushed.symm.trans hpushed
    rw [map_entryOf]
    exact hfits.merged hk hsound hcompacted
  · unfold FlushFits
    split
    · split
      · exact hfits.table hk _
      · trivial
    · trivial

/-- Where the records of all calls fit one file, every file of the run fits. -/
theorem Reaches.within {c : Config} {ok : Engine → Action → Prop} {e : Engine} (h : Reaches c ok e)
    (hfits : e.FitsFormat) : Reaches c FileFits e := by
  induction h with
  | start stamp => exact .start stamp
  | @next e e' a h _ hs ih =>
    have hbefore := hfits.before hs
    have hwithin := ih hbefore
    exact hwithin.next (hbefore.fileFits h.known hwithin.sound a) hs

end Engine

end Lsmlite
