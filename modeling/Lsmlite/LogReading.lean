import Lsmlite.RecordStream

/-!
# Reading any log

What the iterator of a log does with an arbitrary buffer. It gets to an end if the buffer is a
sequence of records up to its end or to a byte that is no record header; at anything else it
panics.
-/

namespace Lsmlite
open Bytes

/-! ## Varints, shortest or not -/

/-- Groups of seven bits, least significant first; the byte below 128 is the last one. -/
inductive Groups : Blob → Prop
  | last {b : UInt8} : b.toNat < 128 → Groups [b]
  | more {b : UInt8} {bs : Blob} : 128 ≤ b.toNat → Groups bs → Groups (b :: bs)

def groupsValue : Blob → Nat
  | [] => 0
  | b :: bs => b.toNat % 128 + 128 * groupsValue bs

def IsVarint (bs : Blob) : Prop := Groups bs ∧ bs.length ≤ 10

/-- The bits shifted out of 64 are lost. -/
def varintValue (bs : Blob) : Nat := groupsValue bs % 2 ^ 64

theorem Groups.length_pos {bs : Blob} (h : Groups bs) : 0 < bs.length := by
  cases h <;> simp

/-- A byte below 128 is a varint by itself. -/
theorem exists_groups_small {b : UInt8} (hb : b.toNat < 128) {rest : Blob} {P : Blob → Prop} :
    (∃ bs, bs <+: b :: rest ∧ Groups bs ∧ P bs) ↔ P [b] := by
  constructor
  · rintro ⟨bs, ⟨suf, hcat⟩, hgroups, hP⟩
    cases hgroups with
    | last =>
      cases hcat
      exact hP
    | more hlarge =>
      cases hcat
      omega
  · intro hP
    exact ⟨[b], ⟨rest, rfl⟩, .last hb, hP⟩

/-- Any other byte goes on. -/
theorem exists_groups_large {b : UInt8} (hb : 128 ≤ b.toNat) {rest : Blob} {P : Blob → Prop} :
    (∃ bs, bs <+: b :: rest ∧ Groups bs ∧ P bs) ↔ ∃ bs, bs <+: rest ∧ Groups bs ∧ P (b :: bs) := by
  constructor
  · rintro ⟨bs, ⟨suf, hcat⟩, hgroups, hP⟩
    cases hgroups with
    | last hsmall =>
      cases hcat
      omega
    | more _ hgroups =>
      cases hcat
      exact ⟨_, ⟨suf, rfl⟩, hgroups, hP⟩
  · rintro ⟨bs, ⟨suf, rfl⟩, hgroups, hP⟩
    exact ⟨b :: bs, ⟨suf, rfl⟩, .more hb hgroups, hP⟩

/-- One more group, as the decoder puts it in. -/
theorem or_group {acc i : Nat} (m : Nat) (hacc : acc < 2 ^ (7 * i)) (hi : i ≤ 9) :
    acc ||| ((m <<< (7 * i)) % 2 ^ 64) = (acc + 2 ^ (7 * i) * m) % 2 ^ 64 := by
  have hsplit : 2 ^ 64 = 2 ^ (7 * i) * 2 ^ (64 - 7 * i) := by
    rw [← Nat.pow_add]
    congr 1
    omega
  have hpos : 0 < 2 ^ (7 * i) := Nat.two_pow_pos _
  have hlow : (acc + 2 ^ (7 * i) * m) % 2 ^ (7 * i) = acc := by
    rw [Nat.add_mul_mod_self_left, Nat.mod_eq_of_lt hacc]
  have hhigh : (acc + 2 ^ (7 * i) * m) / 2 ^ (7 * i) = m := by
    rw [Nat.add_mul_div_left _ _ hpos, Nat.div_eq_of_lt hacc, Nat.zero_add]
  rw [Nat.shiftLeft_eq, Nat.mul_comm m, hsplit, Nat.mul_mod_mul_left, Nat.mod_mul, hlow, hhigh,
    Nat.or_comm, ← Nat.two_pow_add_eq_or_of_lt hacc, Nat.add_comm]

/-- The loop reads the groups that stand in front of it. -/
theorem decodeVarintLoop_iff {buffer : Blob} {start shifts acc offset i v w : Nat}
    (ho : offset = start + i) (hten : i + shifts = 10) (hacc : acc < 2 ^ (7 * i)) :
    decodeVarintLoop buffer start shifts acc offset = some (v, w) ↔
      ∃ bs, bs <+: buffer.drop offset ∧ Groups bs ∧ bs.length ≤ shifts ∧
        v = (acc + 2 ^ (7 * i) * groupsValue bs) % 2 ^ 64 ∧ w = i + bs.length := by
  induction shifts generalizing acc offset i with
  | zero =>
    constructor
    · intro h
      cases h
    · rintro ⟨bs, _, hgroups, hlength, _⟩
      have := hgroups.length_pos
      omega
  | succ shifts ih =>
    subst ho
    cases hdrop : buffer.drop (start + i) with
    | nil =>
      have hget : buffer[start + i]? = none := by
        rw [← List.head?_drop, hdrop]
        rfl
      rw [decodeVarintLoop, hget]
      constructor
      · intro h
        cases h
      · rintro ⟨bs, hpre, hgroups, _⟩
        rw [List.prefix_nil.mp hpre] at hgroups
        cases hgroups
    | cons b rest =>
      have hget : buffer[start + i]? = some b := by
        rw [← List.head?_drop, hdrop]
        rfl
      have hrest : buffer.drop (start + i + 1) = rest := by
        rw [← List.tail_drop, hdrop]
        rfl
      have hor := or_group (b.toNat % 128) hacc (by omega)
      rw [decodeVarintLoop, hget]
      simp only [Option.bind_eq_bind, Option.bind_some, payload_byte, Nat.add_sub_cancel_left, hor]
      by_cases hb : b.toNat < 128
      · rw [if_pos ((continuation_bit b).mpr hb), exists_groups_small hb]
        simp only [groupsValue, Nat.mul_zero, Nat.add_zero, List.length_singleton,
          Option.some.injEq, Prod.mk.injEq]
        constructor
        · rintro ⟨rfl, rfl⟩
          exact ⟨by omega, rfl, by omega⟩
        · rintro ⟨_, rfl, rfl⟩
          exact ⟨rfl, by omega⟩
      · rw [if_neg fun h => hb ((continuation_bit b).mp h), exists_groups_large (by omega)]
        by_cases hlast : i = 9
        · -- An eleventh byte would be shifted by 70.
          obtain rfl : shifts = 0 := by omega
          constructor
          · intro h
            cases h
          · rintro ⟨bs, _, hgroups, hlength, _⟩
            have := hgroups.length_pos
            rw [List.length_cons] at hlength
            omega
        · have hpow : 2 ^ (7 * (i + 1)) = 2 ^ (7 * i) * 128 := by
            rw [Nat.mul_add, Nat.pow_add]
          have hle : 2 ^ (7 * (i + 1)) ≤ 2 ^ 63 := Nat.pow_le_pow_right (by decide) (by omega)
          have hlt : acc + 2 ^ (7 * i) * (b.toNat % 128) < 2 ^ (7 * (i + 1)) := by
            have hmul : 2 ^ (7 * i) * (b.toNat % 128) ≤ 2 ^ (7 * i) * 127 :=
              Nat.mul_le_mul_left _ (by omega)
            omega
          have hvalue (bs : Blob) : acc + 2 ^ (7 * i) * (b.toNat % 128) +
              2 ^ (7 * (i + 1)) * groupsValue bs = acc + 2 ^ (7 * i) * groupsValue (b :: bs) := by
            rw [groupsValue, hpow, Nat.mul_add, Nat.mul_assoc, Nat.add_assoc]
          rw [Nat.mod_eq_of_lt (show _ < 2 ^ 64 by omega), ih (by omega) (by omega) hlt, hrest]
          apply exists_congr
          intro bs
          rw [hvalue, List.length_cons, Nat.add_le_add_iff_right, show i + 1 + bs.length =
            i + (bs.length + 1) by omega]

/-- Decoding reads a varint where it stands, and nothing else. -/
theorem decodeVarint_iff {pre rest : Blob} {offset v w : Nat} (ho : offset = pre.length) :
    decodeVarint (pre ++ rest) offset = some (v, w) ↔
      ∃ bs suf, rest = bs ++ suf ∧ IsVarint bs ∧ v = varintValue bs ∧ w = bs.length := by
  rw [decodeVarint, decodeVarintLoop_iff (i := 0) (Nat.add_zero offset).symm rfl (by decide), ho,
    List.drop_left]
  simp only [Nat.mul_zero, Nat.pow_zero, Nat.one_mul, Nat.zero_add]
  constructor
  · rintro ⟨bs, ⟨suf, rfl⟩, hgroups, hlength, rfl, rfl⟩
    exact ⟨bs, suf, rfl, ⟨hgroups, hlength⟩, rfl, rfl⟩
  · rintro ⟨bs, suf, rfl, ⟨hgroups, hlength⟩, rfl, rfl⟩
    exact ⟨bs, ⟨suf, rfl⟩, hgroups, hlength, rfl, rfl⟩

/-! ## Records -/

/-- The bytes of one record: the log size counts what follows it, and each length what it names. -/
inductive IsRecord : Blob → Prop
  | data {logSize keyLength key dataLen value : Blob} : IsVarint logSize → IsVarint keyLength →
      IsVarint dataLen → varintValue keyLength = key.length → varintValue dataLen = value.length →
      varintValue logSize = (keyLength ++ (key ++ (dataLen ++ value))).length →
      IsRecord (dataLogHeader :: (logSize ++ (keyLength ++ (key ++ (dataLen ++ value)))))
  | tombstone {logSize keyLength key : Blob} : IsVarint logSize → IsVarint keyLength →
      varintValue keyLength = key.length → varintValue logSize = (keyLength ++ key).length →
      IsRecord (tombstoneLogHeader :: (logSize ++ (keyLength ++ key)))

theorem split_at {xs : Blob} {n : Nat} (h : n ≤ xs.length) :
    ∃ front back, xs = front ++ back ∧ front.length = n :=
  ⟨xs.take n, xs.drop n, (List.take_append_drop n xs).symm, by rw [List.length_take]; omega⟩

theorem of_guard {p : Prop} [Decidable p] {u : Unit} (h : (guard p : Option Unit) = some u) :
    p := by
  by_contra hp
  rw [guard, if_neg hp] at h
  cases h

theorem decodeInsertRecord_sound {pre rest : Blob} {header : UInt8} {r : Record} {offset' : Nat}
    (h : decodeInsertRecord (pre ++ header :: rest) (pre.length + 1) = some (r, offset')) :
    ∃ bytes suf, dataLogHeader :: rest = bytes ++ suf ∧ IsRecord bytes ∧
      offset' = pre.length + bytes.length := by
  simp only [decodeInsertRecord, Option.bind_eq_bind, Option.bind_eq_some_iff, Prod.exists,
    Option.pure_def, Option.some.injEq, Prod.mk.injEq] at h
  obtain ⟨_, _, hlog, _, _, hkey, dataLen, _, hdata, _, hguard, _, hblob, _, rfl⟩ := h
  have hsize := of_guard hguard
  obtain ⟨_, hlen, _⟩ := slice_eq_some hblob
  rw [show pre ++ header :: rest = (pre ++ [header]) ++ rest by simp] at hlog hkey hdata hlen
  obtain ⟨log, rest, rfl, hlogv, rfl, rfl⟩ := (decodeVarint_iff (by simp)).mp hlog
  rw [← List.append_assoc] at hkey hdata hlen
  obtain ⟨klen, rest, rfl, hkeyv, rfl, rfl⟩ := (decodeVarint_iff (by simp; omega)).mp hkey
  rw [← List.append_assoc] at hdata hlen
  have hbound := (decodeVarint_bounds hdata).2
  obtain ⟨key, rest, rfl, hkeylen⟩ := split_at (show varintValue klen ≤ rest.length by
    simp only [List.length_append, List.length_singleton] at hbound
    omega)
  rw [← List.append_assoc] at hdata hlen
  obtain ⟨vlen, rest, rfl, hdatav, rfl, rfl⟩ := (decodeVarint_iff (by simp; omega)).mp hdata
  obtain ⟨value, suf, rfl, hvaluelen⟩ := split_at (show varintValue vlen ≤ rest.length by
    simp only [List.length_append, List.length_singleton] at hlen
    omega)
  refine ⟨_, suf, by simp, .data hlogv hkeyv hdatav hkeylen.symm hvaluelen.symm ?_, ?_⟩
  · rw [hsize]
    simp only [List.length_append]
    omega
  · simp only [List.length_cons, List.length_append]
    omega

theorem decodeTombstoneRecord_sound {pre rest : Blob} {header : UInt8} {r : Record} {offset' : Nat}
    (h : decodeTombstoneRecord (pre ++ header :: rest) (pre.length + 1) = some (r, offset')) :
    ∃ bytes suf, tombstoneLogHeader :: rest = bytes ++ suf ∧ IsRecord bytes ∧
      offset' = pre.length + bytes.length := by
  simp only [decodeTombstoneRecord, Option.bind_eq_bind, Option.bind_eq_some_iff, Prod.exists,
    Option.pure_def, Option.some.injEq, Prod.mk.injEq] at h
  obtain ⟨_, _, hlog, _, _, hkey, _, hguard, _, hblob, _, rfl⟩ := h
  have hsize := of_guard hguard
  obtain ⟨_, hlen, _⟩ := slice_eq_some hblob
  rw [show pre ++ header :: rest = (pre ++ [header]) ++ rest by simp] at hlog hkey hlen
  obtain ⟨log, rest, rfl, hlogv, rfl, rfl⟩ := (decodeVarint_iff (by simp)).mp hlog
  rw [← List.append_assoc] at hkey hlen
  obtain ⟨klen, rest, rfl, hkeyv, rfl, rfl⟩ := (decodeVarint_iff (by simp; omega)).mp hkey
  obtain ⟨key, suf, rfl, hkeylen⟩ := split_at (show varintValue klen ≤ rest.length by
    simp only [List.length_append, List.length_singleton] at hlen
    omega)
  refine ⟨_, suf, by simp, .tombstone hlogv hkeyv hkeylen.symm ?_, ?_⟩
  · rw [hsize]
    simp only [List.length_append]
    omega
  · simp only [List.length_cons, List.length_append]
    omega

/-- What is decoded as a record is one. -/
theorem decodeDiskRecord_sound {pre rest : Blob} {r : Record} {offset' : Nat}
    (h : decodeDiskRecord (pre ++ rest) pre.length = some (some r, offset')) :
    ∃ bytes suf, rest = bytes ++ suf ∧ IsRecord bytes ∧ offset' = pre.length + bytes.length := by
  cases rest with
  | nil => simp [decodeDiskRecord] at h
  | cons header rest =>
    have hhead : (pre ++ header :: rest)[pre.length]? = some header := by simp
    simp only [decodeDiskRecord, hhead, Option.bind_eq_bind, Option.bind_some] at h
    by_cases hdata : header = dataLogHeader
    · rw [if_pos hdata, Option.bind_eq_some_iff] at h
      obtain ⟨⟨_, _⟩, hdec, h⟩ := h
      cases h
      rw [hdata] at hdec ⊢
      exact decodeInsertRecord_sound hdec
    · rw [if_neg hdata] at h
      by_cases htomb : header = tombstoneLogHeader
      · rw [if_pos htomb, Option.bind_eq_some_iff] at h
        obtain ⟨⟨_, _⟩, hdec, h⟩ := h
        cases h
        rw [htomb] at hdec ⊢
        exact decodeTombstoneRecord_sound hdec
      · rw [if_neg htomb] at h
        cases h

theorem decodeVarint_at (pre : Blob) {bs : Blob} (suf : Blob) (h : IsVarint bs) {buffer : Blob}
    {offset : Nat} (hbuffer : buffer = pre ++ (bs ++ suf)) (ho : offset = pre.length) :
    decodeVarint buffer offset = some (varintValue bs, bs.length) := by
  rw [hbuffer, decodeVarint_iff ho]
  exact ⟨bs, suf, rfl, h, rfl, rfl⟩

/-- A record is decoded where it stands. -/
theorem decodeDiskRecord_complete {bytes : Blob} (h : IsRecord bytes) (pre suf : Blob) :
    ∃ r, decodeDiskRecord (pre ++ (bytes ++ suf)) pre.length =
      some (some r, pre.length + bytes.length) ∧ r.blob = bytes := by
  obtain ⟨buffer, hbuffer⟩ : ∃ buffer, buffer = pre ++ (bytes ++ suf) := ⟨_, rfl⟩
  have hslice := slice_mid pre bytes suf rfl rfl
  rw [← hbuffer] at hslice ⊢
  cases h with
  | @data log klen key vlen value hlog hkey hdata hkeylen hdatalen hsize =>
    have hhead : buffer[pre.length]? = some dataLogHeader := by simp [hbuffer]
    have h1 : decodeVarint buffer (pre.length + 1) = _ := decodeVarint_at (pre ++ [dataLogHeader])
      (klen ++ (key ++ (vlen ++ (value ++ suf)))) hlog (by simp [hbuffer]) (by simp)
    have h2 : decodeVarint buffer (pre.length + 1 + log.length) = _ :=
      decodeVarint_at (pre ++ [dataLogHeader] ++ log) (key ++ (vlen ++ (value ++ suf))) hkey
        (by simp [hbuffer]) (by simp; omega)
    have h3 : decodeVarint buffer (pre.length + 1 + log.length + klen.length + key.length) = _ :=
      decodeVarint_at (pre ++ [dataLogHeader] ++ log ++ klen ++ key) (value ++ suf) hdata
        (by simp [hbuffer]) (by simp; omega)
    have hend : pre.length + (dataLogHeader :: (log ++ (klen ++ (key ++ (vlen ++ value))))).length =
        pre.length + 1 + log.length + klen.length + key.length + vlen.length + value.length := by
      simp only [List.length_cons, List.length_append]
      omega
    rw [hend] at hslice ⊢
    simp only [decodeDiskRecord, hhead, ↓reduceIte, decodeInsertRecord, h1, h2, hkeylen, h3,
      hdatalen, Option.bind_eq_bind, Option.bind_some, Nat.add_sub_cancel, hslice, guard]
    rw [if_pos (by rw [hsize]; simp only [List.length_append]; omega)]
    exact ⟨_, rfl, rfl⟩
  | @tombstone log klen key hlog hkey hkeylen hsize =>
    have hhead : buffer[pre.length]? = some tombstoneLogHeader := by simp [hbuffer]
    have h1 : decodeVarint buffer (pre.length + 1) = _ :=
      decodeVarint_at (pre ++ [tombstoneLogHeader]) (klen ++ (key ++ suf)) hlog (by simp [hbuffer])
        (by simp)
    have h2 : decodeVarint buffer (pre.length + 1 + log.length) = _ :=
      decodeVarint_at (pre ++ [tombstoneLogHeader] ++ log) (key ++ suf) hkey (by simp [hbuffer])
        (by simp; omega)
    have hend : pre.length + (tombstoneLogHeader :: (log ++ (klen ++ key))).length =
        pre.length + 1 + log.length + klen.length + key.length := by
      simp only [List.length_cons, List.length_append]
      omega
    rw [hend] at hslice ⊢
    simp only [decodeDiskRecord, hhead, show ¬ tombstoneLogHeader = dataLogHeader by decide,
      ↓reduceIte, decodeTombstoneRecord, h1, h2, hkeylen, Option.bind_eq_bind, Option.bind_some,
      Nat.add_sub_cancel, hslice, guard]
    rw [if_pos (by rw [hsize]; simp only [List.length_append]; omega)]
    exact ⟨_, rfl, rfl⟩

theorem IsRecord.length_pos {bytes : Blob} (h : IsRecord bytes) : 0 < bytes.length := by
  cases h <;> simp

theorem isRecord_of {key : Blob} {e : Entry} (h : Record.Fits key e) :
    IsRecord (Record.of key e).blob := by
  have hdec := Record.decodeDiskRecord_of [] [] h (show 0 = ([] : Blob).length from rfl)
  rw [List.append_nil] at hdec
  obtain ⟨bytes, suf, hcat, hrecord, hoffset⟩ := decodeDiskRecord_sound hdec
  rw [hcat, List.length_append, List.length_nil] at hoffset
  obtain rfl : suf = [] := List.length_eq_zero_iff.mp (by omega)
  rwa [hcat, List.append_nil]

/-! ## Logs -/

/-- Records up to the end, or to a byte that heads none. -/
inductive IsLog : Blob → Prop
  | done : IsLog []
  | stop {header : UInt8} {rest : Blob} : header ≠ dataLogHeader → header ≠ tombstoneLogHeader →
      IsLog (header :: rest)
  | record {bytes rest : Blob} : IsRecord bytes → IsLog rest → IsLog (bytes ++ rest)

namespace WalIterator

/-- The loop ends, and yields the records at the front of the buffer: as bytes any, as records those
that an encoder made. -/
def ReadsLog (buffer : Blob) : Prop :=
  ∃ rs, (WalIterator.new buffer).collect (buffer.length + 1) = some rs ∧
    (∀ parts, (∀ bytes ∈ parts, IsRecord bytes) → parts.flatten <+: buffer →
      parts <+: rs.map (·.blob)) ∧
    ∀ rs', (∀ r ∈ rs', Encoded r) → blobs rs' <+: buffer → rs' <+: rs

theorem next_cons (pre : Blob) (header : UInt8) (rest : Blob) :
    next ⟨pre ++ header :: rest, pre.length⟩ =
      (decodeDiskRecord (pre ++ header :: rest) pre.length).map fun (r, offset) =>
        (r, ⟨pre ++ header :: rest, offset⟩) := by
  rw [next, if_neg (by simp)]

/-- Whatever the loop gets through is a log. -/
theorem collect_sound {fuel : Nat} {pre rest : Blob} {rs : List Record}
    (h : collect fuel ⟨pre ++ rest, pre.length⟩ = some rs) : IsLog rest := by
  induction fuel generalizing pre rest rs with
  | zero => cases h
  | succ fuel ih =>
    cases rest with
    | nil => exact .done
    | cons header rest =>
      rw [collect, next_cons, Option.bind_eq_bind, Option.bind_eq_some_iff] at h
      obtain ⟨⟨r, it⟩, hnext, h⟩ := h
      obtain ⟨⟨r', offset'⟩, hdec, hpair⟩ := Option.map_eq_some_iff.mp hnext
      cases hpair
      cases r with
      | none =>
        have hhead : (pre ++ header :: rest)[pre.length]? = some header := by simp
        simp only [decodeDiskRecord, hhead, Option.bind_eq_bind, Option.bind_some] at hdec
        by_cases hdata : header = dataLogHeader
        · rw [if_pos hdata, Option.bind_eq_some_iff] at hdec
          obtain ⟨_, _, hdec⟩ := hdec
          cases hdec
        · rw [if_neg hdata] at hdec
          by_cases htomb : header = tombstoneLogHeader
          · rw [if_pos htomb, Option.bind_eq_some_iff] at hdec
            obtain ⟨_, _, hdec⟩ := hdec
            cases hdec
          · exact .stop hdata htomb
      | some r =>
        obtain ⟨bytes, suf, hcat, hrecord, rfl⟩ := decodeDiskRecord_sound hdec
        simp only [Option.bind_eq_bind, Option.bind_eq_some_iff] at h
        obtain ⟨rs', hrest, _⟩ := h
        rw [hcat, ← List.append_assoc, ← List.length_append] at hrest
        rw [hcat]
        exact .record hrecord (ih hrest)

/-- One round over a record. -/
theorem collect_record {bytes : Blob} (h : IsRecord bytes) (fuel : Nat) (pre suf : Blob) :
    ∃ r, decodeDiskRecord (pre ++ (bytes ++ suf)) pre.length =
      some (some r, pre.length + bytes.length) ∧
      r.blob = bytes ∧ collect (fuel + 1) ⟨pre ++ (bytes ++ suf), pre.length⟩ =
        (collect fuel ⟨(pre ++ bytes) ++ suf, (pre ++ bytes).length⟩).map (r :: ·) := by
  obtain ⟨r, hdec, hblob⟩ := decodeDiskRecord_complete h pre suf
  have hpos := h.length_pos
  refine ⟨r, hdec, hblob, ?_⟩
  rw [collect, next, if_neg (by simp only [List.length_append]; omega), hdec, List.append_assoc,
    List.length_append]
  simp only [Option.map_some, Option.bind_eq_bind, Option.bind_some]
  cases collect fuel ⟨pre ++ (bytes ++ suf), pre.length + bytes.length⟩ <;> rfl

/-- The loop gets through every log. -/
theorem collect_complete {rest : Blob} (h : IsLog rest) {fuel : Nat} (hfuel : rest.length < fuel)
    (pre : Blob) : ∃ rs, collect fuel ⟨pre ++ rest, pre.length⟩ = some rs := by
  induction h generalizing fuel pre with
  | done =>
    obtain ⟨fuel, rfl⟩ : ∃ k, fuel = k + 1 := ⟨fuel - 1, by omega⟩
    exact ⟨[], by simp [collect, next]⟩
  | @stop header rest hdata htomb =>
    obtain ⟨fuel, rfl⟩ : ∃ k, fuel = k + 1 := ⟨fuel - 1, by omega⟩
    have hhead : (pre ++ header :: rest)[pre.length]? = some header := by simp
    refine ⟨[], ?_⟩
    rw [collect, next_cons]
    simp only [decodeDiskRecord, hhead, if_neg hdata, if_neg htomb, Option.bind_eq_bind,
      Option.bind_some, Option.pure_def, Option.map_some]
  | @record bytes rest hrecord _ ih =>
    obtain ⟨fuel, rfl⟩ : ∃ k, fuel = k + 1 := ⟨fuel - 1, by omega⟩
    have hpos := hrecord.length_pos
    rw [List.length_append] at hfuel
    obtain ⟨r, _, _, hround⟩ := collect_record hrecord fuel pre rest
    obtain ⟨rs, hrs⟩ := ih (show _ < fuel by omega) (pre ++ bytes)
    rw [hround, hrs]
    exact ⟨r :: rs, rfl⟩

/-- The loop yields the records that stand in front of it, each with its bytes. -/
theorem collect_parts {parts : List Blob} (hparts : ∀ bytes ∈ parts, IsRecord bytes) {fuel : Nat}
    {pre suf : Blob} {rs : List Record}
    (h : collect fuel ⟨pre ++ (parts.flatten ++ suf), pre.length⟩ = some rs) :
    parts <+: rs.map (·.blob) := by
  induction parts generalizing fuel pre rs with
  | nil => exact List.nil_prefix
  | cons bytes parts ih =>
    cases fuel with
    | zero => cases h
    | succ fuel =>
      obtain ⟨r, _, hblob, hround⟩ := collect_record (hparts bytes (List.mem_cons_self ..)) fuel pre
        (parts.flatten ++ suf)
      rw [List.flatten_cons, List.append_assoc, hround, Option.map_eq_some_iff] at h
      obtain ⟨rs', hrest, rfl⟩ := h
      rw [List.map_cons, hblob, List.prefix_cons_inj]
      exact ih (fun b hb => hparts b (List.mem_cons_of_mem _ hb)) hrest

theorem collect_encoded {ws : Entries} (hfits : ∀ w ∈ ws, Record.Fits w.1 w.2) {fuel : Nat}
    {pre suf : Blob} {rs : List Record}
    (h : collect fuel ⟨pre ++ (logBlob ws ++ suf), pre.length⟩ = some rs) :
    ws.map recordOf <+: rs := by
  induction ws generalizing fuel pre rs with
  | nil => exact List.nil_prefix
  | cons w ws ih =>
    cases fuel with
    | zero => cases h
    | succ fuel =>
      have hw := hfits w (List.mem_cons_self ..)
      have hcons : logBlob (w :: ws) = (recordOf w).blob ++ logBlob ws := by simp [logBlob]
      obtain ⟨r, hdec, _, hround⟩ := collect_record (isRecord_of hw) fuel pre (logBlob ws ++ suf)
      rw [Record.decodeDiskRecord_of pre _ hw rfl] at hdec
      cases hdec
      rw [hcons, List.append_assoc, hround, Option.map_eq_some_iff] at h
      obtain ⟨rs', hrest, rfl⟩ := h
      rw [List.map_cons, List.prefix_cons_inj]
      exact ih (fun w' hw' => hfits w' (List.mem_cons_of_mem _ hw')) hrest

/-! ## A torn log -/

theorem isLog_logBlob {ws : Entries} (hfits : ∀ w ∈ ws, Record.Fits w.1 w.2) : IsLog (logBlob ws) :=
  collect_sound (collect_logBlob hfits [] (Nat.lt_succ_self _))

/-- A log behind a record is a log. -/
theorem IsLog.tail {bytes rest : Blob} (hbytes : IsRecord bytes) (h : IsLog (bytes ++ rest)) :
    IsLog rest := by
  obtain ⟨rs, hrs⟩ := collect_complete h (Nat.lt_succ_self _) []
  obtain ⟨r, _, _, hround⟩ := collect_record hbytes (bytes ++ rest).length [] rest
  rw [hround, Option.map_eq_some_iff] at hrs
  obtain ⟨rs', hrest, _⟩ := hrs
  exact collect_sound hrest

/-- A record cut inside is no log. -/
theorem isLog_cut {key : Blob} {e : Entry} (hfits : Record.Fits key e) {n : Nat} (hn : 0 < n)
    (hcut : n < (Record.of key e).blob.length) : ¬ IsLog ((Record.of key e).blob.take n) := by
  intro h
  have hhead : ∃ rest, (Record.of key e).blob.take n = e.header :: rest := by
    obtain ⟨k, rfl⟩ : ∃ k, n = k + 1 := ⟨n - 1, by omega⟩
    simp only [Record.of, List.singleton_append, List.take_succ_cons]
    exact ⟨_, rfl⟩
  obtain ⟨tail, hhead⟩ := hhead
  obtain ⟨front, hfront⟩ : ∃ front, front = (Record.of key e).blob.take n := ⟨_, rfl⟩
  rw [← hfront] at h hhead
  cases h with
  | done => cases hhead
  | stop hdata htomb =>
    cases hhead
    cases e with
    | data => exact hdata rfl
    | tombstone => exact htomb rfl
  | @record bytes rest hrecord _ =>
    -- The whole record would be decoded as `bytes`.
    have hwhole : (Record.of key e).blob = bytes ++ (rest ++ (Record.of key e).blob.drop n) := by
      rw [← List.append_assoc, hfront, List.take_append_drop]
    have hlength := congrArg List.length hfront
    rw [List.length_append, List.length_take] at hlength
    obtain ⟨r, hdec, _⟩ :=
      decodeDiskRecord_complete hrecord [] (rest ++ (Record.of key e).blob.drop n)
    have hof := Record.decodeDiskRecord_of [] [] hfits (show 0 = ([] : Blob).length from rfl)
    rw [← hwhole, List.length_nil, List.nil_append] at hdec
    rw [List.append_nil, List.nil_append, hdec] at hof
    simp only [Option.some.injEq, Prod.mk.injEq] at hof
    omega

/-- A log cut anywhere is a log if and only if it is cut between two records. -/
theorem isLog_take {ws : Entries} (hfits : ∀ w ∈ ws, Record.Fits w.1 w.2) (n : Nat) :
    IsLog ((logBlob ws).take n) ↔ ∃ k, (logBlob ws).take n = logBlob (ws.take k) := by
  constructor
  · induction ws generalizing n with
    | nil => exact fun _ => ⟨0, by simp [logBlob]⟩
    | cons w ws ih =>
      intro h
      have hw := hfits w (List.mem_cons_self ..)
      have hcons : logBlob (w :: ws) = (recordOf w).blob ++ logBlob ws := by simp [logBlob]
      rw [hcons] at h ⊢
      by_cases hin : n < (recordOf w).blob.length
      · rw [List.take_append_of_le_length (Nat.le_of_lt hin)] at h ⊢
        rcases Nat.eq_zero_or_pos n with rfl | hpos
        · exact ⟨0, rfl⟩
        · exact absurd h (isLog_cut hw hpos hin)
      · rw [List.take_append, List.take_of_length_le (by omega)] at h ⊢
        obtain ⟨k, hk⟩ := ih (fun w' hw' => hfits w' (List.mem_cons_of_mem _ hw')) _
          (IsLog.tail (isRecord_of hw) h)
        refine ⟨k + 1, ?_⟩
        rw [hk, List.take_succ_cons]
        simp [logBlob]
  · rintro ⟨k, hk⟩
    rw [hk]
    exact isLog_logBlob fun w hw => hfits w (List.mem_of_mem_take hw)

/-- The loop over a buffer ends, and yields its records, if and only if the buffer is a log: a log
cut inside a record is none. Over any other buffer it panics, after however many rounds. -/
theorem readsLog_iff (buffer : Blob) :
    (ReadsLog buffer ↔ IsLog buffer) ∧
    (¬ IsLog buffer → ∀ fuel, (WalIterator.new buffer).collect fuel = none) ∧
    ∀ rs, (∀ r ∈ rs, Encoded r) → ∀ n, buffer = (blobs rs).take n →
      (IsLog buffer ↔ ∃ k, buffer = blobs (rs.take k)) := by
  have hnew : WalIterator.new buffer = ⟨[] ++ buffer, ([] : Blob).length⟩ := rfl
  refine ⟨⟨?_, ?_⟩, ?_, ?_⟩
  · rintro ⟨rs, hrs, _⟩
    exact collect_sound (hnew ▸ hrs)
  · intro hlog
    obtain ⟨rs, hrs⟩ := collect_complete hlog (Nat.lt_succ_self _) []
    refine ⟨rs, hrs, ?_, ?_⟩
    · rintro parts hparts ⟨suf, hsuf⟩
      rw [← hsuf] at hrs
      exact collect_parts hparts hrs
    · rintro rs' hrs' ⟨suf, hsuf⟩
      obtain ⟨ws, rfl, hfits⟩ := exists_map fun r hr => (hrs' r hr).entry
      rw [← hsuf, blobs_map] at hrs
      exact collect_encoded hfits hrs
  · intro hlog fuel
    cases hcollect : (WalIterator.new buffer).collect fuel with
    | none => rfl
    | some rs => exact absurd (collect_sound (hnew ▸ hcollect)) hlog
  · rintro rs hrs n rfl
    obtain ⟨ws, rfl, hfits⟩ := exists_map fun r hr => (hrs r hr).entry
    rw [blobs_map, isLog_take hfits]
    simp only [← List.map_take, blobs_map]

/-- A record whose last byte was not written. -/
theorem torn_record_panics : ∃ r, encodeDataRecord [107] [1, 2] = some r ∧
    ¬ ReadsLog (r.blob.take 6) ∧ (WalIterator.new (r.blob.take 6)).collect 7 = none := by
  refine ⟨_, rfl, ?_, by decide +kernel⟩
  rintro ⟨rs, hrs, _⟩
  have hnone : (WalIterator.new (([0, 5, 1, 107, 2, 1, 2] : Blob).take 6)).collect 7 = none := by
    decide +kernel
  cases hnone.symm.trans hrs

end WalIterator

end Lsmlite
