import Lsmlite.MemtableLog
import Lsmlite.SSTable

/-!
# Searches that fail

The search of the cache goes on behind any error but a tombstone, a failed read included. So the
value it returns can be older than what a failing table would have answered.
-/

namespace Lsmlite
open Bytes

namespace SSTableCache

/-- What the tables answer for a key, newest first. -/
def Lookups (h : Hashing) (key : Blob) (tables : List SSTable)
    (rs : List (Except SSTableError Blob)) : Prop :=
  List.Forall₂ (fun s r => (s.search h key).map Prod.fst = some r) tables rs

/-- A value is that of a table in front of which all tables answered that they have no record. -/
def FromNewest (rs : List (Except SSTableError Blob)) (r : Except SSTableError Blob) : Prop :=
  ∀ value, r = .ok value → ∃ i : Nat, rs[i]? = some (.ok value) ∧
    ∀ j < i, rs[j]? = some (.error .diskRecordNotFound)

/-- The answers that end a search. -/
def Ends (r : Except SSTableError Blob) : Prop := r = .error .tombstone ∨ ∃ value, r = .ok value

/-- A value behind a failed lookup is also behind a tombstone or another value. -/
def FailuresCovered (rs : List (Except SSTableError Blob)) : Prop :=
  ∀ (i j : Nat) e value, i < j → rs[i]? = some (.error e) → e ≠ .diskRecordNotFound →
    rs[j]? = some (.ok value) → ∃ k < j, ∃ r, rs[k]? = some r ∧ Ends r

/-- The search returns the first value, if all tables in front of it answered with an error that is
no tombstone. -/
theorem searchTables_lookups {h : Hashing} {key : Blob} {tables : List SSTable}
    {rs : List (Except SSTableError Blob)} (hrs : Lookups h key tables rs) :
    ∃ r tables', searchTables h key tables = some (r, tables') ∧ ∀ value, r = .ok value ↔
      ∃ j : Nat, rs[j]? = some (.ok value) ∧ ∀ k < j, ∃ r', rs[k]? = some r' ∧ ¬ Ends r' := by
  induction hrs with
  | nil => exact ⟨_, _, rfl, fun value => ⟨nofun, fun ⟨_, hj, _⟩ => by cases hj⟩⟩
  | @cons s r tables rs hs hrs ih =>
    obtain ⟨⟨r, s'⟩, hsearch, rfl⟩ := Option.map_eq_some_iff.mp hs
    obtain ⟨rest, tables', hrest, hvalue⟩ := ih
    -- An answer that ends the search leaves nothing to the tables behind.
    have hfirst : Ends r → ∀ value, (∃ j : Nat, (r :: rs)[j]? = some (.ok value) ∧
        ∀ k < j, ∃ r', (r :: rs)[k]? = some r' ∧ ¬ Ends r') ↔ r = .ok value := by
      intro hends value
      constructor
      · rintro ⟨j, hj, hbefore⟩
        cases j with
        | zero => exact Option.some.inj hj
        | succ j =>
          obtain ⟨r', hr', hnot⟩ := hbefore 0 (Nat.succ_pos j)
          cases hr'
          exact absurd hends hnot
      · rintro rfl
        exact ⟨0, rfl, nofun⟩
    cases r with
    | ok found =>
      refine ⟨.ok found, s' :: tables, ?_, fun value => ?_⟩
      · simp only [searchTables, hsearch, Option.bind_eq_bind, Option.bind_some, Option.pure_def]
      · exact (hfirst (Or.inr ⟨found, rfl⟩) value).symm
    | error e =>
      by_cases htombstone : e = .tombstone
      · subst htombstone
        refine ⟨.error .diskRecordNotFound, s' :: tables, ?_, fun value => ?_⟩
        · simp only [searchTables, hsearch, Option.bind_eq_bind, Option.bind_some, Option.pure_def]
        · rw [hfirst (Or.inl rfl) value]
          exact ⟨nofun, nofun⟩
      · refine ⟨rest, s' :: tables', ?_, fun value => (hvalue value).trans ?_⟩
        · cases e with
          | tombstone => exact absurd rfl htombstone
          | _ =>
            simp only [searchTables, hsearch, hrest, Option.bind_eq_bind,
              Option.bind_some, Option.pure_def]
        · constructor
          · rintro ⟨j, hj, hbefore⟩
            refine ⟨j + 1, hj, fun k hk => ?_⟩
            cases k with
            | zero =>
              refine ⟨.error e, rfl, ?_⟩
              rintro (hends | ⟨_, hends⟩)
              · exact htombstone (Except.error.inj hends)
              · cases hends
            | succ k => exact hbefore k (Nat.lt_of_succ_lt_succ hk)
          · rintro ⟨j, hj, hbefore⟩
            cases j with
            | zero => cases hj
            | succ j => exact ⟨j, hj, fun k hk => hbefore (k + 1) (Nat.succ_lt_succ hk)⟩

/-- The value that a search returns is the newest table's that has a record, if and only if no value
is uncovered behind a failed lookup. -/
theorem search_fromNewest_iff {h : Hashing} {key : Blob} {c : SSTableCache}
    {rs : List (Except SSTableError Blob)} (hrs : Lookups h key c.cache rs) :
    ∃ r c', c.search h key = some (r, c') ∧ (FromNewest rs r ↔ FailuresCovered rs) := by
  obtain ⟨r, tables', hsearch, hvalue⟩ := searchTables_lookups hrs
  refine ⟨r, { c with cache := tables' }, ?_, ?_, ?_⟩
  · rw [search, hsearch]
    rfl
  · intro hnewest i j e value hij hi hfailed hj
    by_contra hnone
    have hbefore : ∀ k < j, ∃ r', rs[k]? = some r' ∧ ¬ Ends r' := by
      intro k hk
      have hlt : k < rs.length := hk.trans (List.getElem?_eq_some_iff.mp hj).1
      refine ⟨rs[k], List.getElem?_eq_getElem hlt, fun hends => ?_⟩
      exact hnone ⟨k, hk, rs[k], List.getElem?_eq_getElem hlt, hends⟩
    obtain ⟨n, hn, hfront⟩ := hnewest value ((hvalue value).mpr ⟨j, hj, hbefore⟩)
    by_cases hlt : n < j
    · obtain ⟨r', hr', hnot⟩ := hbefore n hlt
      cases hn.symm.trans hr'
      exact hnot (Or.inr ⟨value, rfl⟩)
    · have hmissing := hfront i (by omega)
      rw [hi, Option.some.injEq, Except.error.injEq] at hmissing
      exact hfailed hmissing
  · intro hcovered value hr
    obtain ⟨j, hj, hbefore⟩ := (hvalue value).mp hr
    refine ⟨j, hj, fun k hk => ?_⟩
    obtain ⟨r', hr', hnot⟩ := hbefore k hk
    cases r' with
    | ok found => exact absurd (Or.inr ⟨found, rfl⟩) hnot
    | error e =>
      by_cases hmissing : e = .diskRecordNotFound
      · rw [hr', hmissing]
      · obtain ⟨n, hn, r'', hr'', hends⟩ := hcovered k j e value hk hr' hmissing hj
        obtain ⟨r3, hr3, hnot'⟩ := hbefore n (by omega)
        cases hr''.symm.trans hr3
        exact absurd hends hnot'

/-- The table of a memtable with one record, opened with `faults` for the calls that follow. -/
def oneRecord (value : Blob) (faults : List IoResult) : Option SSTable := do
  match ← (MemtableInner.new 1000 10 (Wal.new 0 0 [])).write [97] (.data value) ⟨0, 0⟩ with
  | .error _ => none
  | .ok t => do
    match ← (writeSstable flatHashing t).runOn (File.create []) with
    | (.error _, _) => none
    | (.ok _, fd) => do
      match ← SSTable.fromFd (.opened fd.content []) with
      | .error _ => none
      | .ok s => return { s with fd := { s.fd with faults } }

/-- The newer table holds 2 and cannot be read; the search returns 1 from the older one. -/
def failingCache : Option SSTableCache := do
  let newer ← oneRecord [2] [.error]
  let older ← oneRecord [1] []
  return ⟨[newer, older], 10⟩

theorem lookups_of_map {h : Hashing} {key : Blob} {tables : List SSTable}
    {rs : List (Except SSTableError Blob)}
    (hmap : tables.map (fun s => (s.search h key).map Prod.fst) = rs.map some) :
    Lookups h key tables rs := by
  rw [← List.forall₂_eq_eq_eq, List.forall₂_map_left_iff, List.forall₂_map_right_iff] at hmap
  exact hmap

theorem failingCache_lookups : ∃ c, failingCache = some c ∧
    Lookups flatHashing [97] c.cache [.error (.ioError .failed), .ok [1]] ∧
    (c.search flatHashing [97]).map Prod.fst = some (.ok [1]) := by
  have hlookups :
      failingCache.map (fun c => c.cache.map fun s => (s.search flatHashing [97]).map Prod.fst) =
      some [some (.error (.ioError .failed)), some (.ok [1])] := by decide +kernel
  have hsearch : failingCache.map (fun c => (c.search flatHashing [97]).map Prod.fst) =
      some (some (.ok [1])) := by decide +kernel
  obtain ⟨c, hc, hcache⟩ := Option.map_eq_some_iff.mp hlookups
  refine ⟨c, hc, lookups_of_map hcache, ?_⟩
  rw [hc] at hsearch
  exact Option.some.inj hsearch

/-- The read of the newer table fails, and the search returns 1. -/
theorem failed_read_shows_older : ∃ c, failingCache = some c ∧
    Lookups flatHashing [97] c.cache [.error (.ioError .failed), .ok [1]] ∧
    (c.search flatHashing [97]).map Prod.fst = some (.ok [1]) ∧
    ¬ FromNewest [.error (.ioError .failed), .ok [1]] (.ok [1]) := by
  obtain ⟨c, hc, hlookups, hsearch⟩ := failingCache_lookups
  refine ⟨c, hc, hlookups, hsearch, fun hnewest => ?_⟩
  obtain ⟨i, hi, hfront⟩ := hnewest [1] rfl
  cases i with
  | zero => cases hi
  | succ i => cases hfront 0 (Nat.succ_pos i)

theorem search_fromNewest_failing :
    ∃ c r c', failingCache = some c ∧ c.search flatHashing [97] = some (r, c') ∧
    (FromNewest [.error (.ioError .failed), .ok [1]] r ↔
      FailuresCovered [.error (.ioError .failed), .ok [1]]) := by
  obtain ⟨c, hc, hlookups, _⟩ := failingCache_lookups
  obtain ⟨r, c', hsearch, hiff⟩ := search_fromNewest_iff hlookups
  exact ⟨c, r, c', hc, hsearch, hiff⟩

end SSTableCache

end Lsmlite
