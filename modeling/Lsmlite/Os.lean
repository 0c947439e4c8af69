import Lsmlite.Util

/-!
# Files

A file descriptor with its content and position. `faults` decides the next calls: with none
left, every call succeeds in full, as `std` documents it.
-/

namespace Lsmlite

inductive IoResult where
  | full
  | short (n : Nat)
  | error
  deriving DecidableEq, Repr

inductive IoError where
  | failed
  | unexpectedEof
  deriving DecidableEq, Repr

structure File where
  content : Blob
  pos : Nat
  faults : List IoResult
  deriving DecidableEq, Repr

namespace File

def create (faults : List IoResult) : File := ⟨[], 0, faults⟩

def opened (content : Blob) (faults : List IoResult) : File := ⟨content, 0, faults⟩

/-- The result the next call gets. -/
def next (fd : File) : IoResult × File :=
  match fd.faults with
  | [] => (.full, fd)
  | r :: rs => (r, { fd with faults := rs })

def put (fd : File) (buf : Blob) : File :=
  { fd with
    content := fd.content.take fd.pos ++ buf ++ fd.content.drop (fd.pos + buf.length)
    pos := fd.pos + buf.length }

/-- `write`: the number of bytes accepted, all or only a prefix. -/
def write (fd : File) (buf : Blob) : Except IoError Nat × File :=
  match fd.next with
  | (.full, fd) => (.ok buf.length, fd.put buf)
  | (.short n, fd) => (.ok (min n buf.length), fd.put (buf.take n))
  | (.error, fd) => (.error .failed, fd)

def seek (fd : File) (offset : Nat) : Except IoError Unit × File :=
  match fd.next with
  | (.error, fd) => (.error .failed, fd)
  | (_, fd) => (.ok (), { fd with pos := offset })

/-- `read` into a buffer of `n` bytes: the bytes read. -/
def read (fd : File) (n : Nat) : Except IoError Blob × File :=
  match fd.next with
  | (.full, fd) =>
    let got := (fd.content.drop fd.pos).take n
    (.ok got, { fd with pos := fd.pos + got.length })
  | (.short m, fd) =>
    let got := (fd.content.drop fd.pos).take (min m n)
    (.ok got, { fd with pos := fd.pos + got.length })
  | (.error, fd) => (.error .failed, fd)

/-- `read_exact` of `n` bytes; it goes on after a short read. -/
def readExact (fd : File) (n : Nat) : Except IoError Blob × File :=
  match fd.next with
  | (.error, fd) => (.error .failed, fd)
  | (_, fd) =>
    let got := (fd.content.drop fd.pos).take n
    let fd := { fd with pos := fd.pos + got.length }
    if got.length = n then (.ok got, fd) else (.error .unexpectedEof, fd)

/-- `metadata()?.len()`. -/
def len (fd : File) : Except IoError Nat × File :=
  match fd.next with
  | (.error, fd) => (.error .failed, fd)
  | (_, fd) => (.ok fd.content.length, fd)

@[simp] theorem next_nil (content : Blob) (pos : Nat) :
    next ⟨content, pos, []⟩ = (.full, ⟨content, pos, []⟩) := rfl

/-- Without faults, a write at the end appends. -/
theorem write_append (content buf : Blob) :
    write ⟨content, content.length, []⟩ buf =
      (.ok buf.length, ⟨content ++ buf, (content ++ buf).length, []⟩) := by
  simp [write, put]

@[simp] theorem seek_nil (content : Blob) (pos offset : Nat) :
    seek ⟨content, pos, []⟩ offset = (.ok (), ⟨content, offset, []⟩) := rfl

@[simp] theorem len_nil (content : Blob) (pos : Nat) :
    len ⟨content, pos, []⟩ = (.ok content.length, ⟨content, pos, []⟩) := rfl

theorem read_nil (content : Blob) (pos n : Nat) :
    read ⟨content, pos, []⟩ n =
      (.ok ((content.drop pos).take n),
        ⟨content, pos + ((content.drop pos).take n).length, []⟩) := rfl

/-- Reading `mid` where it stands. -/
theorem readExact_mid (pre mid suf : Blob) {pos n : Nat} (hp : pos = pre.length)
    (hn : n = mid.length) :
    readExact ⟨pre ++ (mid ++ suf), pos, []⟩ n =
      (.ok mid, ⟨pre ++ (mid ++ suf), pos + mid.length, []⟩) := by
  subst hp hn
  simp [readExact]

end File

end Lsmlite
