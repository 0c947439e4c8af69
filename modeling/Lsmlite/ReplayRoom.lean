import Mathlib.Data.List.GetD
import Lsmlite.Acknowledged
import Lsmlite.Lib.Pairing
import Lsmlite.Sessions

/-!
# Room for a replay

A recovered memtable counts old and new keys together, and its new log has only the new writes. A
replay of that log counts less, unless a write overwrote a recovered key with a longer record: the
live table does not count that write and the replay does.
-/

namespace Lsmlite
open KeyValue MemtableInner

/-! ## What a restart reads -/

theorem scanEntries_wal {dir : List DirEntry} {sstables : List SSTableArtifact}
    {wals : List WalArtifact} (h : scanEntries dir = some (sstables, wals)) :
    ∀ w ∈ wals, ∃ e ∈ dir, isLog e = true ∧ w.filename = e.path := by
  induction dir generalizing sstables wals with
  | nil =>
    cases h
    exact nofun
  | cons e dir ih =>
    have hthere : ∀ {ws : List WalArtifact}, (∀ w ∈ ws, ∃ e ∈ dir, isLog e = true ∧
        w.filename = e.path) → ∀ w ∈ ws, ∃ d ∈ e :: dir, isLog d = true ∧ w.filename = d.path := by
      intro ws hws w hw
      obtain ⟨d, hd, hlog⟩ := hws w hw
      exact ⟨d, List.mem_cons_of_mem _ hd, hlog⟩
    cases htype : DatabaseFile.fromPath e.path with
    | none =>
      simp only [scanEntries, htype] at h
      cases h
    | some kind =>
      cases kind with
      | none =>
        simp only [scanEntries, htype] at h
        exact hthere (ih h)
      | some file =>
        cases file with
        | sstable =>
          simp only [scanEntries, htype, Option.bind_eq_bind, Option.bind_eq_some_iff] at h
          obtain ⟨artifact, _, ⟨sstables', wals'⟩, hrest, h⟩ := h
          cases h
          exact hthere (ih hrest)
        | wal =>
          simp only [scanEntries, htype, Option.bind_eq_bind, Option.bind_eq_some_iff] at h
          obtain ⟨artifact, hartifact, ⟨sstables', wals'⟩, hrest, h⟩ := h
          cases h
          intro w hw
          rcases List.mem_cons.mp hw with rfl | hw
          · have hfile := WalArtifact.new_filename hartifact
            exact ⟨e, List.mem_cons_self .., by simp [isLog, htype], hfile⟩
          · exact hthere (ih hrest) w hw

/-- The log behind an artifact is one of the directory's. -/
theorem read_wal {dir : List DirEntry} {sstables : List SSTableArtifact} {wals : List WalArtifact}
    (h : scanDirectory dir = some (sstables, wals)) {w : WalArtifact} (hw : w ∈ wals) {log : Blob}
    (hlog : readPath dir w.filename = some log) : log ∈ logsOf dir := by
  simp only [scanDirectory, Option.bind_eq_bind, Option.bind_eq_some_iff] at h
  obtain ⟨⟨sstables', wals'⟩, hscan, h⟩ := h
  cases h
  obtain ⟨e, _, he, hname⟩ := scanEntries_wal hscan w (List.mem_mergeSort.mp hw)
  obtain ⟨d, hd, rfl⟩ := Option.map_eq_some_iff.mp hlog
  refine List.mem_map.mpr ⟨d, List.mem_filter.mpr ⟨List.mem_of_find?_eq_some hd, ?_⟩, rfl⟩
  have hpath := List.find?_some hd
  rw [hname] at hpath
  unfold isLog at he ⊢
  rwa [fromPath_congr hpath]

/-- Each table of a restart is the replay of its log, or there was no log. -/
theorem reopen_tables {c : Config} {dir : List DirEntry} {clock : Nat}
    {stamps : WalArtifact → LsmliteInner.Stamp} {fresh : LsmliteInner.Stamp} {e : Engine}
    {recovered : List Entries} (h : Engine.reopen c dir clock stamps fresh = some e)
    (hlogs : recoveredLogs dir = some recovered) :
    (recovered = [] ∧ e.tables = [Engine.freshTable c fresh]) ∨
      List.Forall₂ (fun ws t => ∃ log ∈ logsOf dir, ∃ stamp :
        LsmliteInner.Stamp, ws = logEntries log ∧
        ∃ inner, fromWal log c.maxSize c.maxNodes (Wal.new stamp.fileTs stamp.now []) = some inner ∧
          t = Engine.recoveredTable inner) recovered e.tables := by
  simp only [Engine.reopen, Option.bind_eq_bind, Option.bind_eq_some_iff] at h
  obtain ⟨⟨sstables, wals⟩, hscan, _, _, db, hdb, files, _, h⟩ := h
  cases h
  simp only [LsmliteInner.new, Option.bind_eq_bind, Option.bind_eq_some_iff] at hdb
  obtain ⟨memtable, hmemtable, sstableCache, _, immutable, himmutable, hdb⟩ := hdb
  cases hdb
  simp only [recoveredLogs, hscan, Option.bind_eq_bind, Option.bind_some] at hlogs
  rcases List.eq_nil_or_concat wals with rfl | ⟨init, live, rfl⟩
  · cases hlogs
    cases hmemtable
    cases himmutable
    exact Or.inl ⟨rfl, rfl⟩
  · rw [List.concat_eq_append] at hscan hmemtable himmutable hlogs
    rw [List.getLast?_append, List.getLast?_singleton, Option.some_or] at hmemtable
    rw [List.dropLast_concat] at himmutable
    have hload := List.rel_append (mapM_some himmutable)
      (List.Forall₂.cons (R := fun w t => loadImmutableMemtableWorker dir w.filename c.maxSize
        c.maxNodes (stamps w) = some t) hmemtable .nil)
    refine Or.inr (List.forall₂_map_right_iff.mpr (forall₂_join (mapM_some hlogs) hload ?_))
    intro w hw ws inner hws hinner
    obtain ⟨log, hlog, rfl⟩ := Option.map_eq_some_iff.mp hws
    simp only [loadImmutableMemtableWorker, hlog, Option.bind_eq_bind, Option.bind_some] at hinner
    exact ⟨log, read_wal hscan hw hlog, stamps w, rfl, inner, hinner, rfl⟩

/-! ## Recovered tables -/

/-- The table took its writes on top of those it was recovered from, and logged its own only. -/
structure Table.Recovered (c : Config) (old : Entries) (t : Table) : Prop where
  counts : t.inner.Counts c.maxSize c.maxNodes (old ++ t.writes)
  logged : ∃ filed buffered, t.inner.wal.Holds filed buffered ∧ filed ++ buffered = t.writes
  fits : ∀ w ∈ t.writes, Record.Fits w.1 w.2
  nodes : NodesFit c.maxNodes t.writes

/-- A write that is the first since the restart to overwrite a recovered key is no longer than what
the table counted for that key. The first write of all becomes the root of a replay. -/
def OverwriteCounted (old ws : Entries) (key : Blob) (e : Entry) : Prop :=
  ws = [] ∨ key ∉ keys old ∨ key ∈ keys ws ∨ recordSize key e ≤ countedFor key old

instance (old ws : Entries) (key : Blob) (e : Entry) :
    Decidable (OverwriteCounted old ws key e) := by
  unfold OverwriteCounted
  infer_instance

/-- No key counts more in the new log than in the table. -/
def OverwritesCounted (old ws : Entries) : Prop :=
  ∀ key ∈ keys ws, key ∈ keys old → countedFor key ws ≤ countedFor key old

theorem OverwritesCounted.snoc {old ws : Entries} (h : OverwritesCounted old ws) {w : Blob × Entry}
    (hw : OverwriteCounted old ws w.1 w.2) : OverwritesCounted old (ws ++ [w]) :=
  firstWeight_snoc_le recordSize h hw

namespace Table

theorem recovered_fresh (c : Config) (stamp : LsmliteInner.Stamp) :
    (Engine.freshTable c stamp).Recovered c [] where
  counts := counts_new ..
  logged := ⟨[], [], Wal.holds_new .., rfl⟩
  fits _ h := by cases h
  nodes pre w rest h := by simp [Engine.freshTable, writes] at h

theorem Counts.with_wal {t : MemtableInner} {maxSize maxNodes : Nat} {ws : Entries}
    (h : t.Counts maxSize maxNodes ws) (wal : Wal) : { t with wal }.Counts maxSize maxNodes ws :=
  ⟨h.holds.with_wal wal, h.currentSize, h.capacity, h.maxSize, h.room⟩

/-- A write that the table takes. -/
theorem Recovered.taking {c : Config} {old : Entries} {t : Table} (h : t.Recovered c old)
    {w : Write} {clock : Clock} {inner : MemtableInner}
    (hw : t.inner.write w.key w.entry clock = some (.ok inner)) :
    (t.taking inner w).Recovered c old ∧ counted (old ++ t.writes) < c.maxSize := by
  rw [write_eq] at hw
  split at hw
  · cases hw
  rename_i hfull
  split at hw
  swap
  · cases hw
  rename_i hfits
  have hfull' : t.inner.full = false := by simpa using hfull
  obtain ⟨hcard, hsize⟩ := h.counts.full_iff.mp hfull'
  obtain ⟨inner', hinsert, hinner⟩ := Option.map_eq_some_iff.mp hw
  cases hinner
  have hcounts := Counts.with_wal h.counts (t.inner.wal.writeLog (Record.of w.key w.entry) clock)
  obtain ⟨hcounts', hreach, hwal⟩ := hcounts.inserted (w := (w.key, w.entry)) hfull' hfits hinsert
  obtain ⟨filed, buffered, hlog, hwrites⟩ := h.logged
  refine ⟨⟨?_, ?_, ?_, ?_⟩, hsize⟩
  · rw [writes_taking, ← List.append_assoc]
    exact hcounts'
  · rw [writes_taking, ← hwrites]
    have hwal' :
      (t.taking inner w).inner.wal = t.inner.wal.writeLog (Record.of w.key w.entry) clock := hwal
    rw [hwal']
    rcases hlog.writeLog w.key w.entry clock with hnew | hnew
    · exact ⟨_, _, hnew, by simp⟩
    · exact ⟨_, _, hnew, rfl⟩
  · rw [writes_taking]
    intro v hv
    rcases List.mem_append.mp hv with hv | hv
    · exact h.fits v hv
    · rw [List.mem_singleton.mp hv]
      exact hfits
  · rw [writes_taking]
    refine h.nodes.snoc ((card_keys_le_append _ _).trans_lt hcard) ?_
    -- What the table holds for a key of the new log it took since the restart.
    intro before value hlast hvalue
    refine hreach before value ?_ hvalue
    rw [last_ofWrites] at hlast ⊢
    rw [last_append, hlast, Option.some_or]

end Table

/-- What the table keeps besides, in a run whose writes meet the condition. -/
structure Table.Sized (c : Config) (old : Entries) (t : Table) : Prop where
  overwrites : OverwritesCounted old t.writes
  sizes : SizesFit c.maxSize t.writes

theorem Table.Sized.taking {c : Config} {old : Entries} {t : Table} (h : t.Sized c old)
    {w : Write} (inner : MemtableInner) (hw : OverwriteCounted old t.writes w.key w.entry)
    (hsize : counted (old ++ t.writes) < c.maxSize) : (t.taking inner w).Sized c old where
  overwrites := by
    rw [writes_taking]
    exact h.overwrites.snoc (w := (w.key, w.entry)) hw
  sizes := by
    rw [writes_taking]
    exact h.sizes.snoc ((firstsWeight_le_append recordSize h.overwrites).trans_lt hsize)

/-! ## Runs -/

namespace Session
open Engine

/-- A write that the active table takes over a recovered key is no longer than what the table
counted for the key, as far as it is the first since the restart. -/
def CountsOverwrites (recovered : List Entries) (e : Engine) (a : Action) : Prop :=
  match a with
  | .client i (.attempt _) | .client i (.retry _) =>
    match (e.clients[i]?).bind pending, e.tables[e.active]? with
    | some w, some t =>
      t.inner.full = true ∨ OverwriteCounted (recovered.getD e.active []) t.writes w.key w.entry
    | _, _ => True
  | _ => True

instance (recovered : List Entries) (e : Engine) (a : Action) :
    Decidable (CountsOverwrites recovered e a) := by
  -- `casesOn` leaves no equations in what is computed.
  unfold CountsOverwrites
  induction a using Engine.Action.casesOn with
  | client i b =>
    induction b using Engine.ClientAction.casesOn with
    | attempt _ | retry _ =>
      dsimp only
      induction (e.clients[i]?).bind pending using Option.casesOn with
      | none => exact instDecidableTrue
      | some w =>
        induction e.tables[e.active]? using Option.casesOn <;> dsimp only <;> infer_instance
    | _ => exact instDecidableTrue
  | _ => exact instDecidableTrue

theorem CountsOverwrites.overwrite {recovered : List Entries} {e : Engine} {a : Action} {i : Nat}
    {w : Write} {clock : Clock} {table : Table} (h : CountsOverwrites recovered e a)
    (ha : a = .client i (.attempt clock) ∧ e.clients[i]? = some (.attempting w) ∨
      a = .client i (.retry clock) ∧ e.clients[i]? = some (.retrying w))
    (htable : e.tables[e.active]? = some table) (hfull : table.inner.full = false) :
    OverwriteCounted (recovered.getD e.active []) table.writes w.key w.entry := by
  rcases ha with ⟨rfl, hi⟩ | ⟨rfl, hi⟩ <;>
    simpa [CountsOverwrites, hi, htable, pending, hfull] using h

/-- What holds of every table and every log of a run. The sizes are in question. -/
def TableFits (c : Config) (sized : Prop) (old : Entries) (t : Table) : Prop :=
  t.Recovered c old ∧ (sized → t.Sized c old)

def LogFits (c : Config) (sized : Prop) (log : Blob) : Prop :=
  ∃ ws, log = logBlob ws ∧ (∀ w ∈ ws, Record.Fits w.1 w.2) ∧ NodesFit c.maxNodes ws ∧
    (sized → SizesFit c.maxSize ws)

/-- The tables with the records they were recovered from. -/
structure TablesFit (c : Config) (sized : Prop) (recovered : List Entries) (e : Engine) : Prop where
  length : recovered.length ≤ e.tables.length
  tables : ∀ i t, e.tables[i]? = some t → TableFits c sized (recovered.getD i []) t

theorem tableFits_fresh (c : Config) (sized : Prop) (stamp : LsmliteInner.Stamp) :
    TableFits c sized [] (freshTable c stamp) :=
  ⟨Table.recovered_fresh c stamp, fun _ =>
    ⟨fun key hkey => by simp [freshTable, Table.writes] at hkey,
      fun pre w rest h => by simp [freshTable, Table.writes] at h⟩⟩

theorem logFits_nil (c : Config) (sized : Prop) : LogFits c sized [] :=
  ⟨[], rfl, nofun, fun pre w rest h => by simp at h, fun _ pre w rest h => by simp at h⟩

/-- What a table has filed is a first part of what it took. -/
theorem TableFits.log {c : Config} {sized : Prop} {old : Entries} {t : Table}
    (h : TableFits c sized old t) : LogFits c sized t.inner.wal.fd.content := by
  obtain ⟨hrec, hsized⟩ := h
  obtain ⟨filed, buffered, hlog, hwrites⟩ := hrec.logged
  have hnodes := hrec.nodes
  have hfits := hrec.fits
  rw [← hwrites] at hnodes hfits
  refine ⟨filed, ?_, fun w hw => hfits w (List.mem_append_left _ hw), hnodes.front, fun hs => ?_⟩
  · rw [hlog.fd]
  · have hsizes := (hsized hs).sizes
    rw [← hwrites] at hsizes
    exact hsizes.front

theorem TablesFit.logs {c : Config} {sized : Prop} {recovered : List Entries} {e : Engine}
    (h : TablesFit c sized recovered e) : ∀ log ∈ logsOf e.disk, LogFits c sized log := by
  intro log hlog
  obtain ⟨d, hd, rfl⟩ := List.mem_map.mp hlog
  obtain ⟨hd, hisLog⟩ := List.mem_filter.mp hd
  rcases List.mem_append.mp hd with hd | hd
  · obtain ⟨f, _, rfl⟩ := List.mem_map.mp hd
    have hpath : DatabaseFile.fromPath (dirEntry f).path = some (some .sstable) :=
      fromPath_sstable f.ts
    simp [isLog, hpath] at hisLog
  · obtain ⟨t, ht, rfl⟩ := List.mem_map.mp hd
    obtain ⟨i, hi⟩ := List.mem_iff_getElem?.mp (List.mem_of_mem_filter ht)
    exact (h.tables i t hi).log

theorem TablesFit.step {c : Config} {sized : Prop} {recovered : List Entries} {e e' : Engine}
    {a : Action} (h : TablesFit c sized recovered e) (hok : sized → CountsOverwrites recovered e a)
    (hs : step c e a = some e') : TablesFit c sized recovered e' := by
  cases step_tables hs with
  | took i w clock table inner ha htable hw hstep =>
    subst hstep
    obtain ⟨hrec, hsized⟩ := h.tables _ _ htable
    obtain ⟨hrec', hsize⟩ := hrec.taking hw
    refine ⟨h.length.trans (List.length_set ..).ge, fun j t ht => ?_⟩
    rcases set_cases ht with ⟨rfl, rfl⟩ | ht
    · refine ⟨hrec', fun hs => (hsized hs).taking inner ?_ hsize⟩
      refine (hok hs).overwrite ha htable ?_
      by_contra hfull
      obtain ⟨err, herr⟩ := write_full (by simpa using hfull) w.key w.entry clock
      rw [herr] at hw
      cases hw
    · exact h.tables j t ht
  | fresh i w stamp _ _ hstep =>
    refine ⟨by rw [hstep, List.length_append]; exact h.length.trans (Nat.le_add_right _ _),
      fun j t ht => ?_⟩
    rw [hstep, List.getElem?_append] at ht
    split at ht
    · exact h.tables j t ht
    · rename_i hlt
      have hnone : recovered.getD j [] = [] :=
        List.getD_eq_default _ _ (h.length.trans (Nat.le_of_not_lt hlt))
      rw [hnone]
      obtain rfl := List.mem_singleton.mp (List.mem_of_getElem? ht)
      exact tableFits_fresh c sized stamp
  | removed ts table t _ _ ht hstep =>
    refine ⟨by rw [hstep, List.length_set]; exact h.length, fun j t' ht' => ?_⟩
    rw [hstep] at ht'
    rcases set_cases ht' with ⟨rfl, rfl⟩ | ht'
    · obtain ⟨hrec, hsized⟩ := h.tables _ _ ht
      exact ⟨⟨hrec.counts, hrec.logged, hrec.fits, hrec.nodes⟩, fun hs =>
        ⟨(hsized hs).overwrites, (hsized hs).sizes⟩⟩
    · exact h.tables j t' ht'
  | other hsame =>
    exact ⟨by rw [hsame]; exact h.length, fun j t ht => h.tables j t (hsame ▸ ht)⟩

/-- A restart replays logs that fit into tables that fit. -/
theorem tablesFit_reopen {c : Config} {sized : Prop} {dir : List DirEntry} {clock : Nat}
    {stamps : WalArtifact → LsmliteInner.Stamp} {fresh : LsmliteInner.Stamp} {e : Engine}
    {recovered : List Entries} (hdir : ∀ log ∈ logsOf dir, LogFits c sized log)
    (hs : reopen c dir clock stamps fresh = some e) (hlogs : recoveredLogs dir = some recovered) :
    TablesFit c sized recovered e := by
  rcases reopen_tables hs hlogs with ⟨rfl, htables⟩ | hforall
  · refine ⟨Nat.zero_le _, fun i t ht => ?_⟩
    rw [htables] at ht
    obtain rfl := List.mem_singleton.mp (List.mem_of_getElem? ht)
    exact tableFits_fresh c sized fresh
  · refine ⟨hforall.length_eq.le, fun i t ht => ?_⟩
    obtain ⟨hlt, rfl⟩ := List.getElem?_eq_some_iff.mp ht
    have hlt' : i < recovered.length := by rwa [hforall.length_eq]
    obtain ⟨log, hlog, stamp, hws, inner, hinner, ht⟩ := List.Forall₂.get hforall hlt' hlt
    obtain ⟨ws, rfl, hfits, hnodes, _⟩ := hdir log hlog
    rw [List.get_eq_getElem, logEntries_logBlob hfits] at hws
    rw [List.get_eq_getElem] at ht
    rw [List.getD_eq_getElem _ _ hlt', hws, ht]
    rw [fromWal_logBlob hfits] at hinner
    obtain ⟨hcounts, hwal⟩ := counts_replay hfits hinner
    refine ⟨⟨?_, ⟨[], [], hwal ▸ Wal.holds_new .., rfl⟩, ?_, ?_⟩, fun _ => ⟨?_, ?_⟩⟩
    · simpa [recoveredTable, Table.writes] using hcounts
    · exact fun w hw => by simp [recoveredTable, Table.writes] at hw
    · exact fun pre w rest h => by simp [recoveredTable, Table.writes] at h
    · exact fun key hkey => by simp [recoveredTable, Table.writes] at hkey
    · exact fun pre w rest h => by simp [recoveredTable, Table.writes] at h

/-- What holds in every state of a run. -/
def Fits (c : Config) (sized : Prop) : Session → Prop
  | .up e recovered => TablesFit c sized recovered e
  | .down dir _ => ∀ log ∈ logsOf dir, LogFits c sized log

theorem Reaches.fits {c : Config} (sized : Prop) {ok : List Entries → Engine → Action → Prop}
    (hok : sized → ∀ recovered e a, ok recovered e a → CountsOverwrites recovered e a) {s : Session}
    (h : Reaches c ok s) : Fits c sized s := by
  induction h with
  | start stamp =>
    refine ⟨Nat.zero_le _, fun i t ht => ?_⟩
    obtain rfl := List.mem_singleton.mp (List.mem_of_getElem? ht)
    exact tableFits_fresh c sized stamp
  | step _ ha hs ih => exact TablesFit.step ih (fun hsized => hok hsized _ _ _ ha) hs
  | crash _ ih => exact TablesFit.logs ih
  | restart _ hs hlogs ih => exact tablesFit_reopen ih hs hlogs
  | interrupted _ hkept _ _ hmade ih =>
    intro log hlog
    obtain ⟨d, hd, rfl⟩ := List.mem_map.mp hlog
    obtain ⟨hd, hisLog⟩ := List.mem_filter.mp hd
    rcases List.mem_append.mp hd with hd | hd
    · exact ih _ (List.mem_map_of_mem (List.mem_filter.mpr ⟨hkept.subset hd, hisLog⟩))
    · obtain ⟨ts, _, rfl⟩ := List.mem_map.mp hd
      exact logFits_nil c sized

theorem Fits.logs {c : Config} {sized : Prop} {s : Session} (h : s.Fits c sized) :
    ∀ log ∈ logsOf s.dir, LogFits c sized log := by
  cases s with
  | up e recovered => exact TablesFit.logs h
  | down dir clock => exact h

theorem Reaches.run {c : Config} {ok : List Entries → Engine → Action → Prop}
    [∀ recovered e a, Decidable (ok recovered e a)] {recovered : List Entries} {e e' : Engine}
    (h : Reaches c ok (.up e recovered)) {actions : List Action}
    (hr : runActions c (ok recovered) e actions = some e') : Reaches c ok (.up e' recovered) := by
  induction actions generalizing e with
  | nil =>
    cases hr
    exact h
  | cons a actions ih =>
    simp only [runActions, List.foldlM_cons, Option.bind_eq_bind, Option.bind_eq_some_iff] at hr
    obtain ⟨e1, h1, hr⟩ := hr
    split at h1
    · rename_i hok
      exact ih (h.step hok h1) hr
    · cases h1

theorem Reaches.mono {c : Config} {ok ok' : List Entries → Engine → Action → Prop}
    (hok : ∀ recovered e a, ok recovered e a → ok' recovered e a) {s : Session}
    (h : Reaches c ok s) :
    Reaches c ok' s := by
  induction h with
  | start stamp => exact .start stamp
  | step _ ha hs ih => exact .step ih (hok _ _ _ ha) hs
  | crash _ ih => exact .crash ih
  | restart _ hs hlogs ih => exact .restart ih hs hlogs
  | interrupted _ hkept hlogs hclock hmade ih => exact .interrupted ih hkept hlogs hclock hmade

/-- Room for 100 bytes in a memtable. -/
def hundredConfig : Config := ⟨flatHashing, 100, 10, 10⟩

def setAt (key value : Blob) (now : Nat) : List Action :=
  [.client 0 (.call key (.data value)), .client 0 (.attempt ⟨now, now⟩)]

end Session

end Lsmlite
