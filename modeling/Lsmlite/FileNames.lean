import Lsmlite.Restart

/-!
# Generated file names

A generated name, listed under `./`, is recognised by its extension and read back as its timestamp.
-/

namespace Lsmlite

/-! ## Cutting at a separator -/

namespace Path

theorem splitAt_of_not_mem {sep : UInt8} {text : Blob} (h : sep ∉ text) :
    splitAt sep text = [text] := by
  induction text with
  | nil => rfl
  | cons c text ih =>
    rw [List.mem_cons, not_or] at h
    rw [splitAt, if_neg (Ne.symm h.1), ih h.2]

theorem splitAt_append {sep : UInt8} {part : Blob} (h : sep ∉ part) (rest : Blob) :
    splitAt sep (part ++ sep :: rest) = part :: splitAt sep rest := by
  induction part with
  | nil => simp [splitAt]
  | cons c part ih =>
    rw [List.mem_cons, not_or] at h
    rw [List.cons_append, splitAt, if_neg (Ne.symm h.1), ih h.2]

/-- The path of a directory entry ends in its name. -/
theorem fileName_join_dot {name : Blob} (hslash : slash ∉ name)
    (hname : laterComponent name = some (.normal name)) :
    fileName (join [dot] name) = some name := by
  have hsplit : splitAt slash (dot :: slash :: name) = [dot] :: [name] := by
    rw [← splitAt_of_not_mem hslash]
    simp [splitAt, dot, slash]
  have hcomponents : components (join [dot] name) = [.curDir, .normal name] := by
    simp only [join, List.cons_append, List.nil_append, components, hsplit]
    simp [firstComponent, hname]
  rw [fileName, hcomponents]
  rfl

/-- A name of three parts or more has the last one as its extension. -/
theorem extension_of {path : PathBuf} {name stem ext : Blob} (front : List Blob)
    (hname : fileName path = some name) (hsplit : splitAt dot name = front ++ [stem, ext])
    (hfront : front ≠ []) : extension path = some ext := by
  have hreverse : (front ++ [stem, ext]).reverse = ext :: stem :: front.reverse := by simp
  rw [extension, hname, Option.bind_eq_bind, Option.bind_some, hsplit, hreverse]
  simp [hfront]

end Path

/-! ## Texts -/

/-- ASCII is its own UTF-8. -/
theorem utf8_ascii {text : List Char} (h : ∀ c ∈ text, c.utf8Size = 1) :
    text.flatMap String.utf8EncodeChar = ascii text := by
  induction text with
  | nil => rfl
  | cons c text ih =>
    rw [List.flatMap_cons, String.utf8EncodeChar_eq_singleton (h c (List.mem_cons_self ..)),
      ih fun d hd => h d (List.mem_cons_of_mem _ hd)]
    rfl

theorem toStr_ascii {text : List Char} (h : ∀ c ∈ text, c.utf8Size = 1) :
    Path.toStr (ascii text) = some (ascii text) := by
  apply if_pos
  refine ⟨text, ByteArray.ext ?_⟩
  rw [List.utf8Encode, utf8_ascii h, List.data_toByteArray]

theorem ascii_append (text text' : List Char) : ascii (text ++ text') = ascii text ++ ascii text' :=
  List.map_append

/-! ## Numbers -/

theorem digit_bounds {c : Char} (h : c.isDigit = true) : 48 ≤ c.toNat ∧ c.toNat ≤ 57 :=
  Char.isDigit_iff_toNat.mp h

theorem utf8Size_digit {c : Char} (h : c.isDigit = true) : c.utf8Size = 1 := by
  have hle : c.val.toNat ≤ 57 := (digit_bounds h).2
  rw [Char.utf8Size, if_pos (UInt32.le_iff_toNat_le.mpr (hle.trans (by decide)))]

theorem toUInt8_digit {c : Char} (h : c.isDigit = true) : c.toUInt8.toNat = c.toNat := by
  have hle := (digit_bounds h).2
  rw [Char.toUInt8, UInt32.toNat_toUInt8]
  exact Nat.mod_eq_of_lt (show c.toNat < 2 ^ 8 by omega)

theorem isDigit_toUInt8 {c : Char} (h : c.isDigit = true) : isDigit c.toUInt8 = true := by
  have hbounds := digit_bounds h
  rw [← toUInt8_digit h] at hbounds
  rw [isDigit, Bool.and_eq_true, decide_eq_true_eq, decide_eq_true_eq, UInt8.le_iff_toNat_le,
    UInt8.le_iff_toNat_le]
  exact hbounds

theorem digits_decimal {n : Nat} {c : Char} (hc : c ∈ Nat.toDigits 10 n) : c.isDigit = true :=
  Nat.isDigit_of_mem_toDigits (by decide) (by decide) hc

theorem decimal_digits {n : Nat} {c : UInt8} (hc : c ∈ decimal n) : isDigit c = true := by
  obtain ⟨d, hd, rfl⟩ := List.mem_map.mp hc
  exact isDigit_toUInt8 (digits_decimal hd)

theorem not_mem_decimal {c : UInt8} (hc : isDigit c = false) (n : Nat) : c ∉ decimal n := by
  intro hmem
  rw [decimal_digits hmem] at hc
  cases hc

/-- The number that digits stand for. -/
def digitsValue (digits : Blob) (acc : Nat) : Nat :=
  digits.foldl (fun acc c => acc * 10 + (c.toNat - 48)) acc

theorem digitsValue_ascii {text : List Char} (h : ∀ c ∈ text, c.isDigit = true) (acc : Nat) :
    digitsValue (ascii text) acc = Nat.ofDigitChars 10 text acc := by
  induction text generalizing acc with
  | nil => rfl
  | cons c text ih =>
    have hrest := ih fun d hd => h d (List.mem_cons_of_mem _ hd)
    rw [Nat.ofDigitChars_cons, ← hrest, Nat.mul_comm 10,
      ← toUInt8_digit (h c (List.mem_cons_self ..))]
    rfl

theorem digitsValue_decimal (n : Nat) : digitsValue (decimal n) 0 = n :=
  (digitsValue_ascii (fun _ hc => digits_decimal hc) 0).trans Nat.ofDigitChars_ten_toDigits

theorem le_digitsValue (cs : Blob) (acc : Nat) : acc ≤ digitsValue cs acc := by
  induction cs generalizing acc with
  | nil => exact Nat.le_refl acc
  | cons c cs ih => exact (show acc ≤ acc * 10 + (c.toNat - 48) by omega).trans (ih _)

theorem parseDigits {cs : Blob} (hdigits : ∀ c ∈ cs, isDigit c = true) {acc : Nat}
    (hlt : digitsValue cs acc < 2 ^ 128) :
    cs.foldlM (fun (acc : Nat) c => do
      guard (isDigit c)
      let acc := acc * 10 + (c.toNat - 48)
      guard (acc < 2 ^ 128)
      return acc) acc = some (digitsValue cs acc) := by
  induction cs generalizing acc with
  | nil => rfl
  | cons c cs ih =>
    have hc := hdigits c (List.mem_cons_self ..)
    have hle := le_digitsValue cs (acc * 10 + (c.toNat - 48))
    have hsame : digitsValue (c :: cs) acc = digitsValue cs (acc * 10 + (c.toNat - 48)) := rfl
    rw [hsame] at hlt ⊢
    rw [List.foldlM_cons]
    simp only [hc, guard, ↓reduceIte, if_pos (show acc * 10 + (c.toNat - 48) < 2 ^ 128 by omega),
      Option.pure_def, Option.bind_eq_bind, Option.bind_some]
    exact ih (fun c' hc' => hdigits c' (List.mem_cons_of_mem _ hc')) hlt

theorem decimal_ne_nil (n : Nat) : decimal n ≠ [] := by
  rw [decimal, ascii, Ne, List.map_eq_nil_iff]
  exact Nat.toDigits_ne_nil

/-- There is no plus sign before digits. -/
theorem head_decimal (n : Nat) : (decimal n).head? ≠ some 43 := fun h =>
  not_mem_decimal (by decide) n (List.mem_of_head? h)

theorem parseU128_decimal {n : Nat} (h : n < 2 ^ 128) : parseU128 (decimal n) = some n := by
  have hvalue := digitsValue_decimal n
  have hparse :=
      parseDigits (fun c hc => decimal_digits hc) (show digitsValue (decimal n) 0 < 2 ^ 128 by
    rwa [hvalue])
  rw [hvalue] at hparse
  have hguard : (guard (decimal n ≠ []) : Option Unit) = some () := if_pos (decimal_ne_nil n)
  rw [parseU128, if_neg (head_decimal n)]
  dsimp only
  rw [hguard]
  exact hparse

/-! ## The names of the database -/

/-- The entry of a database file. -/
def sstableEntry (ts : Nat) (content : Blob) : DirEntry :=
  ⟨generateSstableFileName ts, true, content⟩

def walEntry (ts : Nat) (content : Blob) : DirEntry := ⟨generateWalFileName ts, true, content⟩

theorem splitAt_sstableFileName (ts : Nat) : Path.splitAt dot (generateSstableFileName ts) =
    [enginePrefix, decimal ts, sstableExtension] := by
  have hname : generateSstableFileName ts = enginePrefix ++ dot ::
      (decimal ts ++ dot :: sstableExtension) :=
    List.append_assoc ..
  rw [hname, Path.splitAt_append (by decide),
    Path.splitAt_append (not_mem_decimal (by decide) ts), Path.splitAt_of_not_mem (by decide)]

theorem splitAt_walFileName (ts : Nat) : Path.splitAt dot (generateWalFileName ts) =
    [enginePrefix, ascii ['w', 'a', 'l'], decimal ts, logExtension] := by
  have hname : generateWalFileName ts = enginePrefix ++
      dot :: (ascii ['w', 'a', 'l'] ++ dot :: (decimal ts ++ dot :: logExtension)) := by
    have hwal : walPrefix = enginePrefix ++ dot :: ascii ['w', 'a', 'l'] := by decide
    simp [generateWalFileName, hwal]
  rw [hname, Path.splitAt_append (by decide),
    Path.splitAt_append (by decide), Path.splitAt_append (not_mem_decimal (by decide) ts),
    Path.splitAt_of_not_mem (by decide)]

theorem not_slash_decimal (ts : Nat) : slash ∉ decimal ts := not_mem_decimal (by decide) ts

theorem fileName_sstable (ts : Nat) :
    Path.fileName (Path.join [dot] (generateSstableFileName ts)) =
      some (generateSstableFileName ts) := by
  apply Path.fileName_join_dot
  · have hengine : slash ∉ enginePrefix := by decide
    have hext : slash ∉ dot :: sstableExtension := by decide
    simp only [generateSstableFileName, List.mem_append, List.mem_cons, not_or]
    exact ⟨⟨hengine, by decide, not_slash_decimal ts⟩, List.mem_cons.not.mp hext |> not_or.mp⟩
  · rfl

theorem fileName_wal (ts : Nat) :
    Path.fileName (Path.join [dot] (generateWalFileName ts)) = some (generateWalFileName ts) := by
  apply Path.fileName_join_dot
  · have hwal : slash ∉ walPrefix := by decide
    have hext : slash ∉ dot :: logExtension := by decide
    simp only [generateWalFileName, List.mem_append, List.mem_cons, not_or]
    exact ⟨⟨hwal, by decide, not_slash_decimal ts⟩, List.mem_cons.not.mp hext |> not_or.mp⟩
  · rfl

/-- A generated name is a `str`. -/
theorem toStr_generated {front ext : List Char} (hfront : front.all (·.utf8Size = 1) = true)
    (hext : ext.all (·.utf8Size = 1) = true) (ts : Nat) :
    Path.toStr (ascii front ++ dot :: decimal ts ++ dot :: ascii ext) =
      some (ascii front ++ dot :: decimal ts ++ dot :: ascii ext) := by
  have htext : ascii front ++ dot :: decimal ts ++ dot :: ascii ext =
      ascii (front ++ '.' :: Nat.toDigits 10 ts ++ '.' :: ext) := by
    rw [ascii_append, ascii_append]
    rfl
  rw [htext]
  apply toStr_ascii
  intro c hc
  simp only [List.mem_append, List.mem_cons] at hc
  rcases hc with (hc | rfl | hc) | rfl | hc
  · exact of_decide_eq_true (List.all_eq_true.mp hfront c hc)
  · rfl
  · exact utf8Size_digit (digits_decimal hc)
  · rfl
  · exact of_decide_eq_true (List.all_eq_true.mp hext c hc)

theorem toStr_sstable (ts : Nat) :
    Path.toStr (generateSstableFileName ts) = some (generateSstableFileName ts) :=
  toStr_generated (by decide) (by decide) ts

theorem toStr_wal (ts : Nat) :
    Path.toStr (generateWalFileName ts) = some (generateWalFileName ts) :=
  toStr_generated (by decide) (by decide) ts

theorem extension_sstable (ts : Nat) :
    Path.extension (Path.join [dot] (generateSstableFileName ts)) = some sstableExtension :=
  Path.extension_of [_] (fileName_sstable ts) (splitAt_sstableFileName ts) (by simp)

theorem extension_wal (ts : Nat) :
    Path.extension (Path.join [dot] (generateWalFileName ts)) = some logExtension :=
  Path.extension_of [_, _] (fileName_wal ts) (splitAt_walFileName ts) (by simp)

/-- A restart takes a generated name for what it was generated for. -/
theorem fromPath_sstable (ts : Nat) :
    DatabaseFile.fromPath (Path.join [dot] (generateSstableFileName ts)) =
      some (some .sstable) := by
  rw [DatabaseFile.fromPath, extension_sstable]
  rfl

theorem fromPath_wal (ts : Nat) :
    DatabaseFile.fromPath (Path.join [dot] (generateWalFileName ts)) = some (some .wal) := by
  have hstarts : walPrefix.isPrefixOf (generateWalFileName ts) = true := by
    rw [List.isPrefixOf_iff_prefix, generateWalFileName, List.append_assoc]
    exact List.prefix_append _ _
  rw [DatabaseFile.fromPath, extension_wal, fileName_wal]
  simp only [Option.bind_eq_bind, Option.bind_some, toStr_wal, hstarts]
  rfl

theorem artifact_sstable {ts : Nat} (h : ts < 2 ^ 128) :
    SSTableArtifact.new (Path.join [dot] (generateSstableFileName ts)) =
      some ⟨Path.join [dot] (generateSstableFileName ts), ts⟩ := by
  rw [SSTableArtifact.new, fileName_sstable, Option.bind_eq_bind, Option.bind_some, toStr_sstable,
    Option.bind_eq_bind, Option.bind_some, splitAt_sstableFileName]
  simp only [List.getElem?_cons_succ, List.getElem?_cons_zero, Option.bind_some,
    parseU128_decimal h, Option.pure_def]

theorem artifact_wal {ts : Nat} (h : ts < 2 ^ 128) :
    WalArtifact.new (Path.join [dot] (generateWalFileName ts)) =
      some ⟨Path.join [dot] (generateWalFileName ts), ts⟩ := by
  rw [WalArtifact.new, fileName_wal, Option.bind_eq_bind, Option.bind_some, toStr_wal,
    Option.bind_eq_bind, Option.bind_some, splitAt_walFileName]
  simp only [List.getElem?_cons_succ, List.getElem?_cons_zero, Option.bind_some,
    parseU128_decimal h, Option.pure_def]

theorem decimal_inj {a b : Nat} (h : decimal a = decimal b) : a = b := by
  have hvalue := congrArg (fun digits => digitsValue digits 0) h
  simpa only [digitsValue_decimal] using hvalue

theorem generateSstableFileName_inj {a b : Nat}
    (h : generateSstableFileName a = generateSstableFileName b) : a = b := by
  have hsplit := congrArg (Path.splitAt dot) h
  rw [splitAt_sstableFileName, splitAt_sstableFileName] at hsplit
  simp only [List.cons.injEq, true_and, and_true] at hsplit
  exact decimal_inj hsplit

theorem generateWalFileName_inj {a b : Nat} (h : generateWalFileName a = generateWalFileName b) :
    a = b := by
  have hsplit := congrArg (Path.splitAt dot) h
  rw [splitAt_walFileName, splitAt_walFileName] at hsplit
  simp only [List.cons.injEq, true_and, and_true] at hsplit
  exact decimal_inj hsplit

theorem sstable_ne_wal (a b : Nat) : generateSstableFileName a ≠ generateWalFileName b := by
  intro h
  have hlength := congrArg (fun name => (Path.splitAt dot name).length) h
  simp [splitAt_sstableFileName, splitAt_walFileName] at hlength

/-- Digits that were parsed are those of the value, which fits. -/
theorem parseDigits_some {cs : Blob} {acc value : Nat} (hacc : acc < 2 ^ 128)
    (h : cs.foldlM (fun (acc : Nat) c => do
      guard (isDigit c)
      let acc := acc * 10 + (c.toNat - 48)
      guard (acc < 2 ^ 128)
      return acc) acc = some value) : digitsValue cs acc = value ∧ value < 2 ^ 128 := by
  induction cs generalizing acc with
  | nil =>
    cases h
    exact ⟨rfl, hacc⟩
  | cons c cs ih =>
    rw [List.foldlM_cons, Option.bind_eq_bind, Option.bind_eq_some_iff] at h
    obtain ⟨acc', hstep, h⟩ := h
    simp only [Option.bind_eq_bind, Option.bind_eq_some_iff] at hstep
    obtain ⟨_, _, _, hguard, hstep⟩ := hstep
    cases hstep
    have hlt : acc * 10 + (c.toNat - 48) < 2 ^ 128 := by
      by_contra hnot
      rw [guard, if_neg hnot] at hguard
      cases hguard
    exact ih hlt h

/-- A number is parsed back only if it fits. -/
theorem parseU128_decimal_lt {n value : Nat} (h : parseU128 (decimal n) = some value) :
    n < 2 ^ 128 := by
  rw [parseU128, if_neg (head_decimal n)] at h
  simp only [Option.bind_eq_bind, Option.bind_eq_some_iff] at h
  obtain ⟨_, _, hfold⟩ := h
  obtain ⟨heq, hlt⟩ := parseDigits_some (by decide) (hfold.trans rfl)
  rw [digitsValue_decimal] at heq
  omega

theorem artifact_sstable_lt {ts : Nat} {a : SSTableArtifact}
    (h : SSTableArtifact.new (Path.join [dot] (generateSstableFileName ts)) = some a) :
    ts < 2 ^ 128 := by
  rw [SSTableArtifact.new, fileName_sstable, Option.bind_eq_bind, Option.bind_some, toStr_sstable,
    Option.bind_eq_bind, Option.bind_some, splitAt_sstableFileName] at h
  simp only [List.getElem?_cons_succ, List.getElem?_cons_zero, Option.bind_some,
    Option.bind_eq_some_iff] at h
  obtain ⟨_, hparse, _⟩ := h
  exact parseU128_decimal_lt hparse

theorem artifact_wal_lt {ts : Nat} {a : WalArtifact}
    (h : WalArtifact.new (Path.join [dot] (generateWalFileName ts)) = some a) : ts < 2 ^ 128 := by
  rw [WalArtifact.new, fileName_wal, Option.bind_eq_bind, Option.bind_some, toStr_wal,
    Option.bind_eq_bind, Option.bind_some, splitAt_walFileName] at h
  simp only [List.getElem?_cons_succ, List.getElem?_cons_zero, Option.bind_some,
    Option.bind_eq_some_iff] at h
  obtain ⟨_, hparse, _⟩ := h
  exact parseU128_decimal_lt hparse

end Lsmlite
