import Lsmlite.Util

/-!
# Paths and file names

Paths as `std::path` reads them on Unix, where a name is any bytes but `/` and zero, and the names
`util/mod.rs` generates.
-/

namespace Lsmlite

abbrev PathBuf := Blob

/-- A text of ASCII characters. -/
def ascii (text : List Char) : Blob := text.map Char.toUInt8

abbrev dot : UInt8 := 46
abbrev slash : UInt8 := 47

inductive Component where
  | rootDir
  | curDir
  | parentDir
  | normal (name : Blob)
  deriving DecidableEq, Repr

namespace Path

/-- A component that is not the first: empty ones and `.` are skipped. -/
def laterComponent (name : Blob) : Option Component :=
  if name = [] ∨ name = [dot] then none
  else if name = [dot, dot] then some .parentDir
  else some (.normal name)

/-- The first component of a relative path keeps a leading `.`. -/
def firstComponent (name : Blob) : Option Component :=
  if name = [dot] then some .curDir else laterComponent name

/-- The bytes cut at every separator. -/
def splitAt (sep : UInt8) : Blob → List Blob
  | [] => [[]]
  | c :: cs =>
    if c = sep then [] :: splitAt sep cs
    else match splitAt sep cs with
      | [] => [[c]]
      | part :: parts => (c :: part) :: parts

def components (path : PathBuf) : List Component :=
  match splitAt slash path with
  | [] => []
  | [] :: parts => if path = [] then [] else .rootDir :: parts.filterMap laterComponent
  | part :: parts => (firstComponent part).toList ++ parts.filterMap laterComponent

/-- `==` on paths. -/
def eq (a b : PathBuf) : Bool := components a = components b

/-- `join` with a relative path. -/
def join (dir name : PathBuf) : PathBuf := dir ++ slash :: name

def fileName (path : PathBuf) : Option Blob :=
  match (components path).getLast? with
  | some (.normal name) => some name
  | _ => none

/-- What follows the last dot of the file name, unless that dot is its first byte. -/
def extension (path : PathBuf) : Option Blob := do
  let name ← fileName path
  match (splitAt dot name).reverse with
  | ext :: stem :: rest => if rest = [] ∧ stem = [] then none else some ext
  | _ => none

/-- `OsStr::to_str`: the name, if it is UTF-8. -/
def toStr (name : Blob) : Option Blob :=
  if ByteArray.IsValidUTF8 ⟨name.toArray⟩ then some name else none

end Path

/-- A number as `format!` writes it. -/
def decimal (n : Nat) : Blob := ascii (Nat.toDigits 10 n)

def enginePrefix : Blob := ascii ['l', 's', 'm', 'l', 'i', 't', 'e']

def walPrefix : Blob := ascii ['l', 's', 'm', 'l', 'i', 't', 'e', '.', 'w', 'a', 'l']

def sstableExtension : Blob := ascii ['s', 's', 't', 'a', 'b', 'l', 'e']

def logExtension : Blob := ascii ['l', 'o', 'g']

/-- `lsmlite.wal.{start_ts}.log` -/
def generateWalFileName (startTs : Nat) : PathBuf :=
  walPrefix ++ dot :: decimal startTs ++ dot :: logExtension

/-- `lsmlite.{start_ts}.sstable` -/
def generateSstableFileName (startTs : Nat) : PathBuf :=
  enginePrefix ++ dot :: decimal startTs ++ dot :: sstableExtension

example : Path.components (Path.join [dot] (generateSstableFileName 7)) =
    [.curDir, .normal (generateSstableFileName 7)] := by decide +kernel

end Lsmlite
