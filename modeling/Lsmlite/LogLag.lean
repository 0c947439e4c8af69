import Lsmlite.DiskMap
import Lsmlite.ShortWrites

/-!
# What a log lags behind

A log drains its buffer when it is asked to log the next record. So its file is always behind: by
the last record, and by no more than its buffer and its flush time allow.
-/

namespace Lsmlite

namespace Wal

/-! ## One log -/

/-- The clock, read at `now`, does not go back. -/
def Ticks : Nat → List (Record × Clock) → Prop
  | _, [] => True
  | now, (_, clock) :: ws => now ≤ clock.now ∧ clock.now ≤ clock.flushed ∧ Ticks clock.flushed ws

/-- The log has `filed` in its file and `buffered` in its buffer, and was flushed not before the
first record of the buffer was logged. -/
structure Lags (wal : Wal) (filed buffered : List (Record × Clock)) : Prop where
  fd : wal.fd.content = blobs (filed.map Prod.fst)
  buffer : wal.buffer = blobs (buffered.map Prod.fst)
  size : (blobs (buffered.dropLast.map Prod.fst)).length < defaultWalBufferSize
  flushed : ∀ w ∈ buffered, wal.lastFlush ≤ w.2.flushed
  now : ∀ w ∈ buffered, w.2.now ≤ wal.lastFlush + defaultWalBufferFlushTime
  behind : buffered = [] → filed = []

theorem blobs_append (rs rs' : List Record) : blobs (rs ++ rs') = blobs rs ++ blobs rs' :=
  List.flatMap_append

theorem lags_new (fileTs now : Nat) (faults : List IoResult) :
    (new fileTs now faults).Lags [] [] where
  fd := rfl
  buffer := rfl
  size := by decide
  flushed w hw := by cases hw
  now w hw := by cases hw
  behind _ := rfl

/-- A record starts a buffer of its own, or joins one that is small and young. -/
theorem Lags.writeLog {wal : Wal} {filed buffered : List (Record × Clock)}
    (h : wal.Lags filed buffered) (hend : wal.fd.pos = wal.fd.content.length) {r : Record}
    {clock : Clock}
    (hwhole : wal.needsFlush clock.now = true →
      (wal.fd.faults.headD .full).Whole wal.buffer.length) (hlast : wal.lastFlush ≤ clock.now)
    (hclock : clock.now ≤ clock.flushed) :
    (wal.writeLog r clock).Lags filed (buffered ++ [(r, clock)]) ∨
      (wal.writeLog r clock).Lags (filed ++ buffered) [(r, clock)] := by
  by_cases hflush : wal.needsFlush clock.now = true
  · right
    have hwrite := File.write_accepted hend wal.buffer
    have haccepted : (wal.fd.faults.headD .full).accepted wal.buffer.length = wal.buffer.length :=
      hwhole hflush
    constructor
    · simp only [Wal.writeLog, hflush, if_true, flush, hwrite, haccepted, List.take_length]
      rw [h.fd, h.buffer, List.map_append, blobs_append]
    · simp [Wal.writeLog, hflush, flush, blobs]
    · exact Nat.zero_lt_succ _
    · intro w hw
      rw [List.mem_singleton.mp hw]
      simp [Wal.writeLog, hflush, flush]
    · intro w hw
      rw [List.mem_singleton.mp hw]
      simp only [Wal.writeLog, hflush, if_true, flush]
      omega
    · exact fun hnil => absurd hnil (List.cons_ne_nil _ _)
  · left
    have hsmall := hflush
    simp only [needsFlush, Bool.or_eq_true, decide_eq_true_eq, not_or,
      Nat.not_le, Nat.not_lt] at hsmall
    obtain ⟨hsize, hyoung⟩ := hsmall
    simp only [Wal.writeLog, if_neg hflush]
    constructor
    · exact h.fd
    · simp [h.buffer, blobs]
    · rw [List.dropLast_concat, ← h.buffer]
      exact hsize
    · intro w hw
      rcases List.mem_append.mp hw with hw | hw
      · exact h.flushed w hw
      · rw [List.mem_singleton.mp hw]
        exact hlast.trans hclock
    · intro w hw
      rcases List.mem_append.mp hw with hw | hw
      · exact h.now w hw
      · rw [List.mem_singleton.mp hw]
        exact hyoung
    · exact fun hnil => absurd hnil (List.append_ne_nil_of_right_ne_nil _ (List.cons_ne_nil _ _))

theorem Lags.logAll {wal : Wal} {filed buffered ws : List (Record × Clock)} {time : Nat}
    (h : wal.Lags filed buffered) (hend : wal.fd.pos = wal.fd.content.length)
    (hlast : wal.lastFlush ≤ time) (hwhole : wal.FlushesWhole ws) (hticks : Ticks time ws) :
    ∃ filed' buffered', filed' ++ buffered' = filed ++ buffered ++ ws ∧
      (wal.logAll ws).Lags filed' buffered' := by
  induction ws generalizing wal filed buffered time with
  | nil => exact ⟨filed, buffered, (List.append_nil _).symm, h⟩
  | cons w ws ih =>
    obtain ⟨r, clock⟩ := w
    obtain ⟨hnow, hclock, hticks⟩ := hticks
    obtain ⟨hwhole, hrest⟩ := hwhole
    have hend' := (writeLog_bytes hend r clock).1
    have hlast' : (wal.writeLog r clock).lastFlush ≤ clock.flushed := by
      unfold Wal.writeLog
      split
      · exact Nat.le_refl _
      · exact hlast.trans (hnow.trans hclock)
    have hall : filed ++ buffered ++ (r, clock) :: ws = filed ++ buffered ++
      [(r, clock)] ++ ws := by simp
    rw [hall]
    rcases h.writeLog hend hwhole (hlast.trans hnow) hclock with hjoins | hstarts
    · rw [List.append_assoc filed buffered]
      exact ih hjoins hend' hlast' hrest hticks
    · exact ih hstarts hend' hlast' hrest hticks

/-- Of all records that were logged the file of a log lacks the last one, and before it fewer than
64000 bytes: records whose logging was done no more than 400 ms before the last one's began. -/
theorem lags_little {fileTs now : Nat} {faults : List IoResult} {ws : List (Record × Clock)}
    (hwhole : (new fileTs now faults).FlushesWhole ws) (hticks : Ticks now ws) :
    ∃ filed buffered, filed ++ buffered = ws ∧
      ((new fileTs now faults).logAll ws).fd.content = blobs (filed.map Prod.fst) ∧
      ((new fileTs now faults).logAll ws).buffer = blobs (buffered.map Prod.fst) ∧
      (blobs (buffered.dropLast.map Prod.fst)).length < defaultWalBufferSize ∧
      ∀ w ∈ ws.getLast?, w ∈ buffered ∧
        ∀ w' ∈ buffered, w.2.now ≤ w'.2.flushed + defaultWalBufferFlushTime := by
  obtain ⟨filed, buffered, hsplit, hlags⟩ :=
    (lags_new fileTs now faults).logAll rfl (Nat.le_refl now) hwhole hticks
  rw [List.nil_append, List.nil_append] at hsplit
  refine ⟨filed, buffered, hsplit, hlags.fd, hlags.buffer, hlags.size, fun w hw => ?_⟩
  have hmem : w ∈ buffered := by
    by_cases hnil : buffered = []
    · rw [← hsplit, hnil, hlags.behind hnil] at hw
      cases hw
    · rw [← hsplit, List.getLast?_append_of_ne_nil _ hnil] at hw
      exact List.mem_of_getLast? hw
  refine ⟨hmem, fun w' hw' => ?_⟩
  have hflushed := hlags.flushed w' hw'
  have hnow := hlags.now w hmem
  omega

/-- Writes that are accepted whole. -/
theorem flushesWhole_clean {wal : Wal} (hfaults : wal.fd.faults = []) (ws : List (Record × Clock)) :
    wal.FlushesWhole ws := by
  induction ws generalizing wal with
  | nil => trivial
  | cons w ws ih =>
    obtain ⟨r, clock⟩ := w
    refine ⟨fun _ => by rw [hfaults]; rfl, ih ?_⟩
    unfold Wal.writeLog
    split
    · simp [flush, File.write, File.next, File.put, hfaults]
    · exact hfaults

/-- Three records, the last of which flushes the first two. -/
theorem lags_little_flushed :
    ∃ r, encodeDataRecord [97] [1] = some r ∧
    ∃ filed buffered, filed ++ buffered = [(r, ⟨0, 0⟩), (r, ⟨1, 1⟩), (r, (⟨402, 403⟩ : Clock))] ∧
      ((new 0 0 []).logAll [(r, ⟨0, 0⟩), (r, ⟨1, 1⟩), (r, ⟨402, 403⟩)]).fd.content =
        blobs (filed.map Prod.fst) ∧
      ((new 0 0 []).logAll [(r, ⟨0, 0⟩), (r, ⟨1, 1⟩), (r, ⟨402, 403⟩)]).buffer =
        blobs (buffered.map Prod.fst) ∧
      (blobs (buffered.dropLast.map Prod.fst)).length < defaultWalBufferSize ∧
      ∀ w ∈ [(r, ⟨0, 0⟩), (r, ⟨1, 1⟩), (r, (⟨402, 403⟩ : Clock))].getLast?, w ∈ buffered ∧
        ∀ w' ∈ buffered, w.2.now ≤ w'.2.flushed + defaultWalBufferFlushTime := by
  refine ⟨Record.of [97] (.data [1]), Record.encodeDataRecord_eq (by decide +kernel),
    lags_little ?_ ?_⟩
  · exact flushesWhole_clean rfl _
  · exact ⟨by decide, by decide, by decide, by decide, by decide, by decide, trivial⟩

/-- A log of records joins the next one to a buffer that is small, or starts a buffer with it. -/
theorem Holds.writeLog_small {wal : Wal} {filed buffered : Entries} (h : wal.Holds filed buffered)
    (key : Blob) (e : Entry) (clock : Clock) :
    (wal.writeLog (Record.of key e) clock).Holds filed (buffered ++ [(key, e)]) ∧
        (logBlob buffered).length < defaultWalBufferSize ∨
      (wal.writeLog (Record.of key e) clock).Holds (filed ++ buffered) [(key, e)] := by
  by_cases hflush : wal.needsFlush clock.now = true
  · right
    constructor
    · simp only [Wal.writeLog, if_pos hflush, flush, h.fd, h.buffer,
        File.write_append, logBlob_append]
    · simp [Wal.writeLog, hflush, flush, logBlob_singleton]
  · left
    have hsmall := hflush
    simp only [needsFlush, Bool.or_eq_true, decide_eq_true_eq, not_or,
      Nat.not_le, h.buffer] at hsmall
    refine ⟨⟨?_, ?_⟩, hsmall.1⟩
    · simp only [Wal.writeLog, if_neg hflush, h.fd]
    · simp only [Wal.writeLog, if_neg hflush, h.buffer, logBlob_append, logBlob_singleton]

end Wal

/-! ## The logs of a run -/

namespace Table

/-- The table's writes are in its log. The log's file lacks the last of them, and before it less
than the buffer holds. -/
def LagsLittle (t : Table) : Prop :=
  ∃ filed buffered, t.inner.wal.Holds filed buffered ∧ filed ++ buffered = t.writes ∧
    (logBlob buffered.dropLast).length < defaultWalBufferSize ∧
      ∀ w ∈ t.writes.getLast?, w ∈ buffered

theorem LagsLittle.taking {t : Table} (ht : t.Took) (h : t.LagsLittle) {w : Write} {clock : Clock}
    {inner : MemtableInner} (hw : t.inner.write w.key w.entry clock = some (.ok inner)) :
    (t.taking inner w).LagsLittle := by
  obtain ⟨filed, buffered, hwal, hparts, _, _⟩ := h
  have hwal' :
      (t.taking inner w).inner.wal = t.inner.wal.writeLog (Record.of w.key w.entry) clock :=
    (ht.inserted hw).wal
  have hlast : (t.writes ++ [(w.key, w.entry)]).getLast? = some (w.key, w.entry) :=
    List.getLast?_concat
  rcases hwal.writeLog_small w.key w.entry clock with ⟨hjoins, hsmall⟩ | hstarts
  · refine ⟨filed, buffered ++ [(w.key, w.entry)], hwal' ▸ hjoins, ?_, ?_, fun v hv => ?_⟩
    · rw [writes_taking, ← hparts, List.append_assoc]
    · rwa [List.dropLast_concat]
    · rw [writes_taking, hlast] at hv
      cases hv
      exact List.mem_append_right _ (List.mem_singleton_self _)
  · refine ⟨filed ++ buffered, [(w.key, w.entry)], hwal' ▸ hstarts, ?_,
      Nat.zero_lt_succ _, fun v hv => ?_⟩
    · rw [writes_taking, hparts]
    · rw [writes_taking, hlast] at hv
      cases hv
      exact List.mem_singleton_self _

end Table

namespace Engine

end Engine

end Lsmlite
