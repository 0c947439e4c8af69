import Lsmlite.Lib.KeyValue
import Lsmlite.TrieFull
import Mathlib.Data.List.Infix

/-!
# The round trip of a trie

A trie that any insertions built is written, and read back as it is if and only if no label has a
child for every byte. What 32 bits number is the nodes of the trie that was built, not those of a
bound.
-/

namespace Lsmlite
open Bytes KeyValue

namespace Trie

/-! ## Insertions that end -/

theorem Labeled.descend_some {t t' : Trie} {all labels : List Blob} {m : Blob → Option Nat}
    (h : t.Labeled all labels m) {key : Blob} {i j : Nat} {label : Blob}
    (hi : labels[i]? = some label) (hall : ∀ pre, pre <+: key → label ++ pre ∈ all)
    (hrun : t.descend i key = some (t', j)) (hlen : t'.arena.length ≤ 2 ^ 32) :
    ∃ more, t'.Labeled all (labels ++ more) m ∧ (labels ++ more)[j]? = some (label ++ key) := by
  induction key generalizing t labels i label with
  | nil =>
    cases hrun
    exact ⟨[], by simpa using h, by simpa using hi⟩
  | cons c key ih =>
    simp only [Trie.descend, Option.bind_eq_bind, Option.bind_eq_some_iff, Prod.exists] at hrun
    obtain ⟨t1, k, hget, hrun⟩ := hrun
    obtain ⟨t1', k', hget', _, hlabeled⟩ := h.getOrInsertNode hi (hall [c] (by simp))
    cases hget.symm.trans hget'
    obtain ⟨more, h1, hk⟩ := hlabeled ((descend_grows hrun).length.trans hlen)
    obtain ⟨more', h2, hj⟩ := ih h1 hk (fun pre hpre => by
      have hin := hall (c :: pre) (by simpa using hpre)
      simpa using hin) hrun
    exact ⟨more ++ more', by simpa using h2, by simpa using hj⟩

/-- An insertion that ends with few enough nodes updates the map. -/
theorem Maps.insert_some {t t' : Trie} {all : List Blob} {m : Blob → Option Nat} (h : t.Maps all m)
    {key : Blob} (hall : ∀ pre, pre <+: key → pre ∈ all) {offset : Nat} (hoff : offset < 2 ^ 63)
    (hrun : t.insert key offset = some t') (hlen : t'.arena.length ≤ 2 ^ 32) :
    t'.Maps all (Function.update m key (some offset)) := by
  obtain ⟨labels, h0⟩ := h.start (hall [] List.nil_prefix)
  simp only [Trie.insert, Option.bind_eq_bind, Option.bind_eq_some_iff, Prod.exists] at hrun
  obtain ⟨t1, j, hdesc, node, hnode, hrun⟩ := hrun
  cases hrun
  rw [List.length_set] at hlen
  obtain ⟨more, h1, hj⟩ := h0.descend_some h0.root (by simpa using hall) hdesc hlen
  exact Or.inr ⟨_, h1.setOffset hj hnode hoff⟩

/-- The calls of `insert` on a new trie. -/
def insertAll (inserts : List (Blob × Nat)) : Option Trie :=
  inserts.foldlM (fun t w => t.insert w.1 w.2) new

/-- The prefixes of the keys that are inserted. -/
def insertedPrefixes (inserts : List (Blob × Nat)) : List Blob := inserts.flatMap (·.1.inits)

/-- No string is followed by all 256 bytes in the keys. -/
def LeavesByte (inserts : List (Blob × Nat)) : Prop :=
  ∀ label : Blob, ∃ c : UInt8, ∀ w ∈ inserts, ¬ label ++ [c] <+: w.1

theorem mem_insertedPrefixes {inserts : List (Blob × Nat)} {label : Blob} :
    label ∈ insertedPrefixes inserts ↔ ∃ w ∈ inserts, label <+: w.1 := by
  simp only [insertedPrefixes, List.mem_flatMap, List.mem_inits]

theorem insertAll_snoc (inserts : List (Blob × Nat)) (w : Blob × Nat) :
    insertAll (inserts ++ [w]) = (insertAll inserts).bind fun t => t.insert w.1 w.2 := by
  rw [insertAll, List.foldlM_append]
  simp only [List.foldlM_cons, List.foldlM_nil, Option.pure_def,
    Option.bind_eq_bind, Option.bind_fun_some]
  rfl

/-- The trie maps a key to the offset it was inserted at last. -/
theorem insertAll_maps {inserts : List (Blob × Nat)} {all : List Blob}
    (hall : ∀ w ∈ inserts, ∀ pre, pre <+: w.1 → pre ∈ all) (hoff : ∀ w ∈ inserts, w.2 < 2 ^ 63)
    {t : Trie} (hrun : insertAll inserts = some t) (hlen : t.arena.length ≤ 2 ^ 32) :
    t.Maps all fun key => last key inserts := by
  induction inserts using List.reverseRecOn generalizing t with
  | nil =>
    cases hrun
    exact maps_new all
  | append_singleton inserts w ih =>
    rw [insertAll_snoc] at hrun
    obtain ⟨t1, h1, hrun⟩ := Option.bind_eq_some_iff.mp hrun
    have hmem : w ∈ inserts ++ [w] := List.mem_append_right _ (List.mem_singleton_self w)
    have hmaps := ih (fun v hv => hall v (List.mem_append_left _ hv))
      (fun v hv => hoff v (List.mem_append_left _ hv)) h1 ((insert_grows hrun).length.trans hlen)
    have hupdate : (fun key => last key (inserts ++ [w])) =
        Function.update (fun key => last key inserts) w.1 (some w.2) := by
      funext key
      rw [last_snoc]
      by_cases hkey : key = w.1
      · rw [if_pos hkey, hkey, Function.update_self]
      · rw [if_neg hkey, Function.update_of_ne hkey]
    rw [hupdate]
    exact hmaps.insert_some (hall w hmem) (hoff w hmem) hrun hlen

/-- What insertions make of a trie with `all` as the prefixes of their keys. -/
structure Built (t : Trie) (all : List Blob) (inserts : List (Blob × Nat)) (m : Blob → Option Nat) :
    Prop where
  maps : t.Maps all m
  upward : t.Upward
  stored : ∀ w ∈ inserts, m w.1 ≠ none

theorem insertAll_upward {inserts : List (Blob × Nat)} {t : Trie}
    (hrun : insertAll inserts = some t) (hlen : t.arena.length ≤ 2 ^ 32) : t.Upward := by
  induction inserts using List.reverseRecOn generalizing t with
  | nil =>
    cases hrun
    exact upward_new
  | append_singleton inserts w ih =>
    rw [insertAll_snoc] at hrun
    obtain ⟨t1, h1, hrun⟩ := Option.bind_eq_some_iff.mp hrun
    have hgrows := insert_grows hrun
    exact hgrows.upward hlen (ih h1 (hgrows.length.trans hlen))

theorem built {inserts : List (Blob × Nat)} {all : List Blob}
    (hall : ∀ w ∈ inserts, ∀ pre, pre <+: w.1 → pre ∈ all) (hoff : ∀ w ∈ inserts, w.2 < 2 ^ 63)
    {t : Trie} (hrun : insertAll inserts = some t) (hlen : t.arena.length ≤ 2 ^ 32) :
    ∃ m, t.Built all inserts m := by
  refine ⟨_, insertAll_maps hall hoff hrun hlen, insertAll_upward hrun hlen, fun w hw hnone => ?_⟩
  exact last_eq_none_iff.mp hnone w hw rfl

/-- Insertions do not panic on few enough prefixes. -/
theorem insertAll_some {inserts : List (Blob × Nat)} {all : List Blob}
    (hall : ∀ w ∈ inserts, ∀ pre, pre <+: w.1 → pre ∈ all) (hoff : ∀ w ∈ inserts, w.2 < 2 ^ 63)
    (hroom : all.length ≤ 2 ^ 32) : ∃ t m, insertAll inserts = some t ∧ t.Maps all m := by
  induction inserts using List.reverseRecOn with
  | nil => exact ⟨new, _, rfl, maps_new all⟩
  | append_singleton inserts w ih =>
    have hmem : w ∈ inserts ++ [w] := List.mem_append_right _ (List.mem_singleton_self w)
    obtain ⟨t, m, hrun, hmaps⟩ := ih (fun v hv => hall v (List.mem_append_left _ hv))
      fun v hv => hoff v (List.mem_append_left _ hv)
    obtain ⟨t', hinsert, hmaps'⟩ := hmaps.insert hroom (hall w hmem) (hoff w hmem)
    refine ⟨t', _, ?_, hmaps'⟩
    rw [insertAll_snoc, hrun, Option.bind_some, hinsert]

/-! ## The round trip -/

theorem Maps.arena_bytes_lt {t : Trie} {all : List Blob} {m : Blob → Option Nat} (h : t.Maps all m)
    (hnodes : t.arena.length < 2 ^ 32) : t.bytes.length < 2 ^ 62 := by
  rcases h with ⟨hnil, _⟩ | ⟨labels, h⟩
  · simp [bytes, hnil]
  · exact h.bytes_lt hnodes

/-- The trie is written in `serialized_size` bytes. -/
theorem Maps.serialize {t : Trie} {all : List Blob} {m : Blob → Option Nat} (h : t.Maps all m)
    (hnodes : t.arena.length < 2 ^ 32) :
    t.serialize = some t.bytes ∧ t.bytes.length = t.serializedSize := by
  have hlt := h.arena_bytes_lt hnodes
  exact ⟨serialize_eq (by omega), t.bytes_length⟩

/-- The bytes are read back as a trie that answers as this one. -/
def ReadsBack (t : Trie) (bytes : Blob) : Prop :=
  ∃ t', deserializeFromDisk bytes = some t' ∧ ∀ key, t'.get key = t.get key

/-- A trie without a full label is read back as it is. -/
theorem Built.readsBack {t : Trie} {inserts : List (Blob × Nat)} {m : Blob → Option Nat}
    (h : t.Built (insertedPrefixes inserts) inserts m) (hnodes : t.arena.length < 2 ^ 32)
    (hleaves : LeavesByte inserts) : t.ReadsBack t.bytes := by
  refine ⟨t, ?_, fun _ => rfl⟩
  rcases h.maps with ⟨hnil, _⟩ | ⟨labels, hlabels⟩
  · apply deserialize_self hnodes
    intro n hn
    rw [hnil] at hn
    cases hn
  · apply deserialize_self hnodes
    intro n hn
    refine hlabels.sized hnodes (fun label _ => ?_) hn
    obtain ⟨c, hc⟩ := hleaves label
    refine ⟨c, fun hmem => ?_⟩
    obtain ⟨w, hw, hpre⟩ := mem_insertedPrefixes.mp (hlabels.within hmem)
    exact hc w hw hpre

/-- A trie with a full label is not read back: if the reading ends, a key is lost. -/
theorem Built.not_readsBack {t : Trie} {inserts : List (Blob × Nat)} {m : Blob → Option Nat}
    (h : t.Built (insertedPrefixes inserts) inserts m) (hnodes : t.arena.length < 2 ^ 32)
    {label : Blob} (hfull : ∀ c : UInt8, ∃ w ∈ inserts, label ++ [c] <+: w.1) :
    ¬ t.ReadsBack t.bytes := by
  rintro ⟨cut, hcut, hget⟩
  obtain ⟨w, hw, _⟩ := hfull 0
  rcases h.maps with ⟨_, hnone⟩ | ⟨labels, hlabels⟩
  · exact h.stored w hw (hnone w.1)
  · have hall : ∀ c : UInt8, label ++ [c] ∈ labels := by
      intro c
      obtain ⟨v, hv, rest, hrest⟩ := hfull c
      apply hlabels.mem_of_append (label ++ [c]) rest
      rw [hrest]
      exact hlabels.covered v.1 (h.stored v hv)
    obtain ⟨label', c, hmem, hlost⟩ := hlabels.lost h.upward hnodes hall hcut
    obtain ⟨v, hv, rest, hrest⟩ := mem_insertedPrefixes.mp (hlabels.within hmem)
    have hkey : label' ++ c :: rest = v.1 := by
      rw [← hrest]
      simp
    have hsame := hget v.1
    rw [h.maps.get, ← hkey, hlost rest, Option.some.injEq] at hsame
    rw [hkey] at hsame
    exact h.stored v hv hsame.symm

/-- Whatever insertions built the trie, it is written in `serialized_size` bytes; these are read
back as a trie that answers alike for every key if and only if no string is followed by all
bytes. -/
theorem roundTrip_iff {inserts : List (Blob × Nat)} (hoff : ∀ w ∈ inserts, w.2 < 2 ^ 63) {t : Trie}
    (hrun : insertAll inserts = some t) (hnodes : t.arena.length < 2 ^ 32) :
    ∃ bytes, t.serialize = some bytes ∧ bytes.length = t.serializedSize ∧
      (t.ReadsBack bytes ↔ LeavesByte inserts) := by
  obtain ⟨m, hbuilt⟩ := built (fun w hw pre hpre =>
    mem_insertedPrefixes.mpr ⟨w, hw, hpre⟩) hoff hrun (Nat.le_of_lt hnodes)
  obtain ⟨hserialize, hlength⟩ := hbuilt.maps.serialize hnodes
  refine ⟨t.bytes, hserialize, hlength, ?_, hbuilt.readsBack hnodes⟩
  intro hreads
  by_contra hleaves
  unfold LeavesByte at hleaves
  push Not at hleaves
  obtain ⟨label, hfull⟩ := hleaves
  exact hbuilt.not_readsBack hnodes hfull hreads

/-- Words with common prefixes, one of them inserted again. -/
theorem roundTrip_words :
    ∃ t, insertAll [([97, 98], 9), ([97], 20), ([97, 98, 99], 31), ([97], 45)] = some t ∧
    ∃ bytes, t.serialize = some bytes ∧ bytes.length = t.serializedSize ∧
      (t.ReadsBack bytes ↔
        LeavesByte [([97, 98], 9), ([97], 20), ([97, 98, 99], 31), ([97], 45)]) := by
  have hrun : (insertAll [([97, 98], 9), ([97], 20), ([97, 98, 99], 31), ([97], 45)]).map
      (·.arena.length) = some 4 := by
    decide +kernel
  obtain ⟨t, ht, hlength⟩ := Option.map_eq_some_iff.mp hrun
  exact ⟨t, ht, roundTrip_iff (by decide) ht (by omega)⟩

/-- Every key of one byte, at an offset of its own. -/
def everyByte : List (Blob × Nat) := (List.range 256).map fun n => ([UInt8.ofNat n], 9 + n)

/-- The root of the trie of all one-byte keys is written as having no child. -/
theorem everyByte_lost : (∀ w ∈ everyByte, w.2 < 2 ^ 63) ∧ ∃ t bytes, insertAll everyByte = some t ∧
    t.arena.length < 2 ^ 32 ∧ t.serialize = some bytes ∧ ¬ t.ReadsBack bytes := by
  have hmem : ∀ {w : Blob × Nat}, w ∈ everyByte → ∃ n < 256, ([UInt8.ofNat n], 9 + n) = w := by
    intro w hw
    obtain ⟨n, hn, hw⟩ := List.mem_map.mp hw
    exact ⟨n, List.mem_range.mp hn, hw⟩
  have hoff : ∀ w ∈ everyByte, w.2 < 2 ^ 63 := by
    intro w hw
    obtain ⟨n, hn, rfl⟩ := hmem hw
    show 9 + n < 2 ^ 63
    omega
  have hall : ∀ w ∈ everyByte, ∀ pre, pre <+: w.1 → pre ∈ insertedPrefixes everyByte :=
    fun w hw pre hpre => mem_insertedPrefixes.mpr ⟨w, hw, hpre⟩
  have hroom : (insertedPrefixes everyByte).length < 2 ^ 32 := by
    have hlength : (insertedPrefixes everyByte).length = 512 := by
      decide +kernel
    omega
  obtain ⟨t, m, hrun, hmaps⟩ := insertAll_some hall hoff (Nat.le_of_lt hroom)
  have hnodes : t.arena.length < 2 ^ 32 := by
    rcases hmaps with ⟨hnil, _⟩ | ⟨labels, hlabels⟩
    · simp [hnil]
    · exact hlabels.length_le.trans_lt hroom
  obtain ⟨m', hbuilt⟩ := built hall hoff hrun (Nat.le_of_lt hnodes)
  have hfull : ∀ c : UInt8, ∃ w ∈ everyByte, ([] : Blob) ++ [c] <+: w.1 := by
    intro c
    refine ⟨([UInt8.ofNat c.toNat], 9 + c.toNat), List.mem_map.mpr ⟨c.toNat, ?_, rfl⟩, ?_⟩
    · exact List.mem_range.mpr c.toNat_lt
    · simp
  exact ⟨hoff, t, t.bytes, hrun, hnodes, (hmaps.serialize hnodes).1,
    hbuilt.not_readsBack hnodes hfull⟩

end Trie

end Lsmlite
