import BloomHierarchy.DBOperation

/-!
# The files LevelDB owns

The names LevelDB gives its files (`filename.cc`), how it recognises them, and
`RemoveObsoleteFiles`, with the removal of filter files commented out as it is
in the source.

Results:
1. `parseFileName_bloom`: no filter file has a name that LevelDB recognises.
2. `parseFileName_tableFileName`: a table file is recognised under its number.
3. `FileSteps.keepsFilters`: whatever LevelDB does to its files, the filter files stay.
-/

namespace BloomHierarchy

/-! ## File names -/

inductive FileType
  | log
  | dbLock
  | table
  | descriptor
  | current
  | temp
  | infoLog
deriving DecidableEq, Repr

def kMaxUint64 : UInt64 := -1

def kLastDigitOfMaxUint64 : UInt8 :=
  0x30 + (kMaxUint64 % 10).toUInt8

/-- The loop of `ConsumeDecimalNumber`, with the number of digits it has seen;
`none` is an overflow. -/
def consumeDigits (value : UInt64) (digits : Nat) : Bytes → Option (UInt64 × Nat × Bytes)
  | [] => some (value, digits, [])
  | ch :: rest =>
    if ch < 0x30 || ch > 0x39 then some (value, digits, ch :: rest)
    else if value > kMaxUint64 / 10 || (value == kMaxUint64 / 10 && ch > kLastDigitOfMaxUint64) then
      none
    else consumeDigits (value * 10 + (ch - 0x30).toUInt64) (digits + 1) rest

def consumeDecimalNumber (input : Bytes) : Option (UInt64 × Bytes) :=
  match consumeDigits 0 0 input with
  | none => none
  | some (value, digits, rest) => if digits ≠ 0 then some (value, rest) else none

def manifestPrefix : Bytes :=
  ascii ['M', 'A', 'N', 'I', 'F', 'E', 'S', 'T', '-']

def parseFileName (filename : Bytes) : Option (UInt64 × FileType) :=
  if filename = ascii ['C', 'U', 'R', 'R', 'E', 'N', 'T'] then some (0, .current)
  else if filename = ascii ['L', 'O', 'C', 'K'] then some (0, .dbLock)
  else if filename = ascii ['L', 'O', 'G'] ∨
      filename = ascii ['L', 'O', 'G', '.', 'o', 'l', 'd'] then
    some (0, .infoLog)
  else if manifestPrefix.isPrefixOf filename then
    match consumeDecimalNumber (filename.drop manifestPrefix.length) with
    | none => none
    | some (num, rest) => if rest.isEmpty then some (num, .descriptor) else none
  else
    match consumeDecimalNumber filename with
    | none => none
    | some (num, suffix) =>
      if suffix = ascii ['.', 'l', 'o', 'g'] then some (num, .log)
      else if suffix = ascii ['.', 's', 's', 't'] ∨ suffix = ascii ['.', 'l', 'd', 'b'] then
        some (num, .table)
      else if suffix = ascii ['.', 'd', 'b', 't', 'm', 'p'] then some (num, .temp)
      else none

/-- `%06llu`. -/
def paddedDecimal (number : UInt64) : Bytes :=
  List.replicate (6 - (toDecimal number.toNat).length) 0x30 ++ toDecimal number.toNat

/-- The name without the directory. -/
def makeFileName (number : UInt64) (suffix : List Char) : Bytes :=
  paddedDecimal number ++ ascii ('.' :: suffix)

def tableFileName (number : UInt64) : Bytes :=
  makeFileName number ['l', 'd', 'b']

/-- The files LevelDB creates. -/
inductive DBFile
  | log (number : UInt64)
  | table (number : UInt64)
  | sstTable (number : UInt64)
  | descriptor (number : UInt64)
  | current
  | lock
  | temp (number : UInt64)
  | infoLog
  | oldInfoLog
deriving DecidableEq, Repr

def DBFile.fileName : DBFile → Bytes
  | .log number => makeFileName number ['l', 'o', 'g']
  | .table number => tableFileName number
  | .sstTable number => makeFileName number ['s', 's', 't']
  | .descriptor number => manifestPrefix ++ paddedDecimal number
  | .current => ascii ['C', 'U', 'R', 'R', 'E', 'N', 'T']
  | .lock => ascii ['L', 'O', 'C', 'K']
  | .temp number => makeFileName number ['d', 'b', 't', 'm', 'p']
  | .infoLog => ascii ['L', 'O', 'G']
  | .oldInfoLog => ascii ['L', 'O', 'G', '.', 'o', 'l', 'd']

/-! ## Obsolete files -/

/-- What `RemoveObsoleteFiles` reads of the database. -/
structure LiveFiles where
  bgError : Bool := false
  live : List UInt64
  logNumber : UInt64
  prevLogNumber : UInt64 := 0
  manifestFileNumber : UInt64

/-- The variable `keep`; a file that is not recognised is not touched. -/
def LiveFiles.keep (l : LiveFiles) (filename : Bytes) : Bool :=
  match parseFileName filename with
  | none => true
  | some (number, type) =>
    match type with
    | .log => number ≥ l.logNumber || number == l.prevLogNumber
    | .descriptor => number ≥ l.manifestFileNumber
    | .table => l.live.contains number
    | .temp => l.live.contains number
    | .current => true
    | .dbLock => true
    | .infoLog => true

def removeObsoleteFiles (l : LiveFiles) (d : Directory) : Directory :=
  if l.bgError then d else d.keepFiles l.keep

/-- One thing LevelDB does to the files of the directory. -/
inductive FileStep : Directory → Directory → Prop
  | write {d : Directory} (f : DBFile) (contents : Bytes) :
      FileStep d (d.write (d.pathOf f.fileName) contents)
  | remove {d : Directory} (f : DBFile) : FileStep d (d.keepFiles fun name => name != f.fileName)
  | removeObsoleteFiles {d : Directory} (l : LiveFiles) : FileStep d (removeObsoleteFiles l d)

/-- What a LevelDB process does to the files, from opening the database to
closing it. -/
abbrev FileSteps : Directory → Directory → Prop :=
  Relation.ReflTransGen FileStep

/-! ## Table files are recognised -/

/-- The number that digits stand for after `value`. -/
def digitsValue (value : Nat) (digits : Bytes) : Nat :=
  digits.foldl (fun value c => 10 * value + (c.toNat - 0x30)) value

theorem le_digitsValue (value : Nat) (digits : Bytes) : value ≤ digitsValue value digits := by
  induction digits generalizing value with
  | nil => exact Nat.le_refl _
  | cons c digits ih =>
    have hrest := ih (10 * value + (c.toNat - 0x30))
    show value ≤ digitsValue (10 * value + (c.toNat - 0x30)) digits
    omega

theorem digitsValue_toDecimal (n : Nat) : digitsValue 0 (toDecimal n) = n := by
  have hdigits : ∀ c ∈ Nat.toDigits 10 n, c.toNat.toUInt8.toNat = c.toNat := by
    intro c hc
    have hrange := toNat_of_mem_toDigits hc
    exact Nat.mod_eq_of_lt (by omega)
  have hvalue := Nat.ofDigitChars_toDigits (b := 10) (n := n) (by decide) (by decide)
  rw [Nat.ofDigitChars] at hvalue
  rw [digitsValue, toDecimal, ascii, List.foldl_map]
  refine Eq.trans (List.foldl_ext _ _ _ fun value c hc => ?_) hvalue
  rw [hdigits c hc]
  rfl

theorem digitsValue_append (value : Nat) (a b : Bytes) :
    digitsValue value (a ++ b) = digitsValue (digitsValue value a) b :=
  List.foldl_append

theorem digitsValue_paddedDecimal (number : UInt64) :
    digitsValue 0 (paddedDecimal number) = number.toNat := by
  have hzeros : ∀ k, digitsValue 0 (List.replicate k 0x30) = 0 := by
    intro k
    induction k with
    | zero => rfl
    | succ k ih => exact ih
  rw [paddedDecimal, digitsValue_append, hzeros, digitsValue_toDecimal]

theorem mem_paddedDecimal {number : UInt64} {c : UInt8} (h : c ∈ paddedDecimal number) :
    0x30 ≤ c ∧ c ≤ 0x39 := by
  rcases List.mem_append.mp h with h | h
  · rw [(List.mem_replicate.mp h).2]
    decide
  · exact mem_toDecimal h

/-- A digit is consumed if the number with it still fits. -/
theorem consumeDigits_digit {c : UInt8} (hlow : 0x30 ≤ c) (hhigh : c ≤ 0x39) {value : UInt64}
    (hbound : 10 * value.toNat + (c.toNat - 0x30) < 2 ^ 64) (k : Nat) (rest : Bytes) :
    ∃ next : UInt64, next.toNat = 10 * value.toNat + (c.toNat - 0x30) ∧
      consumeDigits value k (c :: rest) = consumeDigits next (k + 1) rest := by
  have hlow' : 48 ≤ c.toNat := UInt8.le_iff_toNat_le.mp hlow
  have hhigh' : c.toNat ≤ 57 := UInt8.le_iff_toNat_le.mp hhigh
  have hdigit : (c < 0x30 || c > 0x39) = false := by
    simp [UInt8.not_lt.mpr hlow, UInt8.not_lt.mpr hhigh]
  have hfits : (value > kMaxUint64 / 10 ||
      (value == kMaxUint64 / 10 && c > kLastDigitOfMaxUint64)) = false := by
    have htenth : (kMaxUint64 / 10).toNat = 1844674407370955161 := by decide
    have hlast : kLastDigitOfMaxUint64.toNat = 53 := by decide
    simp only [Bool.or_eq_false_iff, Bool.and_eq_false_iff, decide_eq_false_iff_not,
      beq_eq_false_iff_ne, UInt64.lt_iff_toNat_lt, UInt8.lt_iff_toNat_lt, ne_eq,
      ← UInt64.toNat_inj, htenth, hlast]
    omega
  refine ⟨value * 10 + (c - 0x30).toUInt64, ?_, ?_⟩
  · have hsub : (c - 0x30).toUInt64.toNat = c.toNat - 0x30 := by
      rw [UInt8.toNat_toUInt64, UInt8.toNat_sub_of_le _ _ hlow]
      rfl
    rw [UInt64.toNat_add, UInt64.toNat_mul, hsub]
    change (value.toNat * 10 % 2 ^ 64 + (c.toNat - 0x30)) % 2 ^ 64 = _
    omega
  · rw [consumeDigits, hdigit, hfits, if_neg Bool.false_ne_true, if_neg Bool.false_ne_true]

/-- All digits in front are consumed, if their number fits. -/
theorem consumeDigits_append {digits rest : Bytes} (hdigits : ∀ c ∈ digits, 0x30 ≤ c ∧ c ≤ 0x39)
    (hrest : ∀ c ∈ rest.head?, c < 0x30) {value : UInt64} (k : Nat)
    (hbound : digitsValue value.toNat digits < 2 ^ 64) :
    consumeDigits value k (digits ++ rest) =
      some (UInt64.ofNat (digitsValue value.toNat digits), k + digits.length, rest) := by
  induction digits generalizing value k with
  | nil =>
    have hvalue : UInt64.ofNat (digitsValue value.toNat []) = value := UInt64.ofNat_toNat
    rw [hvalue]
    cases rest with
    | nil => rfl
    | cons c rest =>
      have hc : c < 0x30 := hrest c rfl
      rw [List.nil_append, consumeDigits, decide_eq_true hc]
      rfl
  | cons c digits ih =>
    obtain ⟨⟨hlow, hhigh⟩, hdigits⟩ := List.forall_mem_cons.mp hdigits
    have hvalue : digitsValue value.toNat (c :: digits) =
        digitsValue (10 * value.toNat + (c.toNat - 0x30)) digits := rfl
    have hle := le_digitsValue (10 * value.toNat + (c.toNat - 0x30)) digits
    rw [hvalue] at hbound ⊢
    obtain ⟨next, hnext, hstep⟩ := consumeDigits_digit hlow hhigh (hle.trans_lt hbound) k
      (digits ++ rest)
    rw [List.cons_append, hstep, ih hdigits (k + 1) (hnext ▸ hbound), hnext, List.length_cons,
      Nat.add_assoc k 1, Nat.add_comm 1]

/-- A table file is recognised under its number. -/
theorem parseFileName_tableFileName (number : UInt64) :
    parseFileName (tableFileName number) = some (number, .table) := by
  have hne : paddedDecimal number ≠ [] := by
    simp [paddedDecimal, toDecimal, ascii, Nat.toDigits_ne_nil]
  obtain ⟨c, hc⟩ := Option.isSome_iff_exists.mp (List.isSome_head?.mpr hne)
  have hhead : (tableFileName number).head? = some c := by
    rw [tableFileName, makeFileName, List.head?_append_of_ne_nil _ hne, hc]
  have hdigit := (mem_paddedDecimal (List.mem_of_head? hc)).2
  -- the other names start with letters
  have hletter : ∀ {name : Bytes} {l : UInt8}, name.head? = some l → 0x39 < l →
      tableFileName number ≠ name := by
    rintro name l hl hlt rfl
    rw [hhead] at hl
    cases hl
    exact absurd hdigit (UInt8.not_le.mpr hlt)
  have hmanifest : ¬ manifestPrefix.isPrefixOf (tableFileName number) = true := by
    intro h
    obtain ⟨rest, hrest⟩ := List.isPrefixOf_iff_prefix.mp h
    have hm : (manifestPrefix ++ rest).head? = some 0x4d := rfl
    exact hletter hm (by decide) hrest.symm
  have hvalue : digitsValue (0 : UInt64).toNat (paddedDecimal number) = number.toNat :=
    digitsValue_paddedDecimal number
  have hnumber : consumeDecimalNumber (tableFileName number) =
      some (number, ascii ['.', 'l', 'd', 'b']) := by
    rw [consumeDecimalNumber, tableFileName, makeFileName,
      consumeDigits_append (fun c hc => mem_paddedDecimal hc) (fun c hc => by cases hc; decide) 0
        (hvalue.trans_lt number.toNat_lt), hvalue, UInt64.ofNat_toNat]
    dsimp only
    rw [if_pos (by simpa using hne)]
  unfold parseFileName
  rw [if_neg (hletter rfl (by decide)), if_neg (hletter rfl (by decide)),
    if_neg (not_or.mpr ⟨hletter rfl (by decide), hletter rfl (by decide)⟩), if_neg hmanifest,
    hnumber]
  rfl

/-! ## Filter files are not LevelDB's -/

theorem getLast?_append_bloomExt (stem : Bytes) : (stem ++ bloomExt).getLast? = some 0x6d := by
  simp [bloomExt, ascii]

theorem getLast?_of_append {pre rest : Bytes} {c : UInt8} (h : (pre ++ rest).getLast? = some c)
    (hpre : c ∉ pre) : rest.getLast? = some c := by
  cases rest with
  | nil =>
    rw [List.append_nil] at h
    exact absurd (List.mem_of_getLast? h) hpre
  | cons a rest =>
    rwa [List.getLast?_append_of_ne_nil _ (List.cons_ne_nil a rest)] at h

/-- What is consumed is a run of digits in front. -/
theorem consumeDigits_eq_some {value num : UInt64} {digits n : Nat} {input rest : Bytes}
    (h : consumeDigits value digits input = some (num, n, rest)) :
    ∃ pre, input = pre ++ rest ∧ ∀ c ∈ pre, c ≤ 0x39 := by
  induction input generalizing value digits with
  | nil =>
    cases h
    exact ⟨[], rfl, by simp⟩
  | cons ch input ih =>
    unfold consumeDigits at h
    split at h
    · cases h
      exact ⟨[], rfl, by simp⟩
    · next hdigit =>
      split at h
      · cases h
      · obtain ⟨pre, hpre, hall⟩ := ih h
        refine ⟨ch :: pre, by rw [hpre]; rfl, List.forall_mem_cons.mpr ⟨?_, hall⟩⟩
        simp only [Bool.or_eq_true, decide_eq_true_eq, not_or, UInt8.not_lt] at hdigit
        exact hdigit.2

theorem consumeDecimalNumber_eq_some {num : UInt64} {input rest : Bytes}
    (h : consumeDecimalNumber input = some (num, rest)) :
    ∃ pre, input = pre ++ rest ∧ ∀ c ∈ pre, c ≤ 0x39 := by
  unfold consumeDecimalNumber at h
  split at h
  · cases h
  · next value digits rest' hloop =>
    split at h
    · cases h
      exact consumeDigits_eq_some hloop
    · cases h

theorem getLast?_consumeDecimalNumber {num : UInt64} {input rest : Bytes}
    (h : consumeDecimalNumber input = some (num, rest)) (hlast : input.getLast? = some 0x6d) :
    rest.getLast? = some 0x6d := by
  obtain ⟨pre, rfl, hdigits⟩ := consumeDecimalNumber_eq_some h
  exact getLast?_of_append hlast fun hmem => absurd (hdigits _ hmem) (by decide)

/-- No filter file has a name that LevelDB recognises. -/
theorem parseFileName_bloom (stem : Bytes) : parseFileName (stem ++ bloomExt) = none := by
  have hlast := getLast?_append_bloomExt stem
  generalize stem ++ bloomExt = filename at hlast
  have hne : ∀ {name : Bytes}, name.getLast? ≠ some 0x6d → filename ≠ name := by
    rintro name hname rfl
    exact hname hlast
  unfold parseFileName
  rw [if_neg (hne (by decide)), if_neg (hne (by decide)),
    if_neg (not_or.mpr ⟨hne (by decide), hne (by decide)⟩)]
  split
  · next hmanifest =>
    obtain ⟨rest, rfl⟩ := List.isPrefixOf_iff_prefix.mp hmanifest
    rw [List.drop_left]
    split
    · rfl
    · next num rest' hnum =>
      have hrest := getLast?_consumeDecimalNumber hnum (getLast?_of_append hlast (by decide))
      cases rest' with
      | nil => cases hrest
      | cons a rest' => rfl
  · split
    · rfl
    · next num suffix hnum =>
      have hsuffix := getLast?_consumeDecimalNumber hnum hlast
      have hne' : ∀ {name : Bytes}, name.getLast? ≠ some 0x6d → suffix ≠ name := by
        rintro name hname rfl
        exact hname hsuffix
      rw [if_neg (hne' (by decide)), if_neg (not_or.mpr ⟨hne' (by decide), hne' (by decide)⟩),
        if_neg (hne' (by decide))]

theorem m_not_mem_paddedDecimal (number : UInt64) : (0x6d : UInt8) ∉ paddedDecimal number :=
  fun h => absurd (mem_paddedDecimal h).2 (by decide)

theorem getLast?_makeFileName (number : UInt64) (suffix : List Char) :
    (makeFileName number suffix).getLast? = (ascii ('.' :: suffix)).getLast? :=
  List.getLast?_append_of_ne_nil _ (List.cons_ne_nil _ _)

/-- LevelDB creates no file with the name of a filter file. -/
theorem fileName_ne_bloom (f : DBFile) (stem : Bytes) : f.fileName ≠ stem ++ bloomExt := by
  suffices hlast : f.fileName.getLast? ≠ some 0x6d from fun h =>
    hlast (h ▸ getLast?_append_bloomExt stem)
  cases f with
  | log number => exact fun h => absurd (getLast?_makeFileName number _ ▸ h) (by decide)
  | table number => exact fun h => absurd (getLast?_makeFileName number _ ▸ h) (by decide)
  | sstTable number => exact fun h => absurd (getLast?_makeFileName number _ ▸ h) (by decide)
  | temp number => exact fun h => absurd (getLast?_makeFileName number _ ▸ h) (by decide)
  | descriptor number =>
    intro h
    exact m_not_mem_paddedDecimal number (List.mem_of_getLast? (getLast?_of_append h (by decide)))
  | current => decide
  | lock => decide
  | infoLog => decide
  | oldInfoLog => decide

/-! ## What LevelDB leaves alone -/

/-- From `d` to `d'` the filter files stay as they are. -/
structure KeepsFilters (d d' : Directory) : Prop where
  path : d'.path = d.path
  accessible : d.Accessible → d'.Accessible
  filter : d.Accessible → ∀ stem, d'.contents? (stem ++ bloomExt) = d.contents? (stem ++ bloomExt)

theorem KeepsFilters.keepFiles {d : Directory} {keep : Bytes → Bool}
    (h : ∀ stem, keep (stem ++ bloomExt) = true) : KeepsFilters d (d.keepFiles keep) where
  path := rfl
  accessible hd := Directory.keepFiles_accessible hd keep
  filter _ stem := by rw [Directory.contents?_keepFiles, if_pos (h stem)]

theorem FileStep.keepsFilters {d d' : Directory} (h : FileStep d d') : KeepsFilters d d' := by
  cases h with
  | write f contents =>
    refine ⟨Directory.write_path _ _ _, fun hd => Directory.write_accessible hd _ _,
      fun hd stem => ?_⟩
    rw [Directory.contents?_write hd, if_neg (fileName_ne_bloom f stem).symm]
  | remove f =>
    exact .keepFiles fun stem => by simpa using (fileName_ne_bloom f stem).symm
  | removeObsoleteFiles l =>
    unfold BloomHierarchy.removeObsoleteFiles
    split
    · exact ⟨rfl, id, fun _ _ => rfl⟩
    · refine .keepFiles fun stem => ?_
      rw [LiveFiles.keep, parseFileName_bloom]

/-- Whatever LevelDB does to its files, the filter files stay. -/
theorem FileSteps.keepsFilters {d d' : Directory} (h : FileSteps d d') : KeepsFilters d d' := by
  induction h with
  | refl => exact ⟨rfl, id, fun _ _ => rfl⟩
  | tail _ hstep ih =>
    have hlast := hstep.keepsFilters
    refine ⟨hlast.path.trans ih.path, fun hd => hlast.accessible (ih.accessible hd),
      fun hd stem => ?_⟩
    rw [hlast.filter (ih.accessible hd), ih.filter hd]

end BloomHierarchy
