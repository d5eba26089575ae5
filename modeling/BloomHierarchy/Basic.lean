import Mathlib

/-!
# Byte strings and the database directory

A `std::string` is a list of bytes. A database directory is the finite set of
files LevelDB and the filter code keep in `outDir + dbDir + dbname`, together
with the answers the operating system gives when a file is opened.

`readdir` promises no order. A `ReaddirOrder` is the order of one pass over a
directory, so a function that lists the directory takes one, and a statement
for all of them covers whatever order each call happens to see.
-/

namespace BloomHierarchy

/-! ## Byte strings -/

abbrev Bytes := List UInt8

/-- A string literal of the source. -/
def ascii (cs : List Char) : Bytes :=
  cs.map fun c => c.toNat.toUInt8

/-- `std::to_string` on a number that is not negative. -/
def toDecimal (n : Nat) : Bytes :=
  ascii (Nat.toDigits 10 n)

theorem toNat_of_mem_toDigits {n : Nat} {d : Char} (h : d ∈ Nat.toDigits 10 n) :
    48 ≤ d.toNat ∧ d.toNat ≤ 57 := by
  have hdigit := Nat.isDigit_of_mem_toDigits (by decide) (by decide) h
  simpa [Char.isDigit, UInt32.le_iff_toNat_le] using hdigit

/-- A decimal number consists of digits. -/
theorem mem_toDecimal {n : Nat} {c : UInt8} (h : c ∈ toDecimal n) : 0x30 ≤ c ∧ c ≤ 0x39 := by
  obtain ⟨d, hd, rfl⟩ := List.mem_map.mp h
  have hrange := toNat_of_mem_toDigits hd
  have hcode : d.toNat.toUInt8.toNat = d.toNat := Nat.mod_eq_of_lt (by omega)
  rw [UInt8.le_iff_toNat_le, UInt8.le_iff_toNat_le, hcode]
  exact hrange

/-- A record of a dumped table. The `Slice` members of the source are views of
the two strings. -/
structure DBRecord where
  keyData : Bytes
  valData : Bytes
deriving DecidableEq, Repr

/-! ## The directory -/

/-- The files of one database directory by name. `canList`, `canOpen` and
`canCreate` are the answers of `opendir` and of opening a path for reading and
for writing. -/
structure Directory where
  path : Bytes
  files : List (Bytes × Bytes)
  canList : Bool := true
  canOpen : Bytes → Bool := fun _ => true
  canCreate : Bytes → Bool := fun _ => true
  nodup : (files.map Prod.fst).Nodup

/-- The order in which one pass of `readdir` lists the names. -/
structure ReaddirOrder where
  list : List Bytes → List Bytes
  perm : ∀ names, (list names).Perm names

/-- The order in which the model stores the names. -/
def ReaddirOrder.stored : ReaddirOrder :=
  ⟨id, fun _ => List.Perm.refl _⟩

/-- The reverse of the stored order. -/
def ReaddirOrder.reversed : ReaddirOrder :=
  ⟨List.reverse, fun names => List.reverse_perm names⟩

namespace Directory

/-- An empty directory in which every open succeeds. -/
def empty (path : Bytes) : Directory where
  path := path
  files := []
  nodup := List.nodup_nil

def names (d : Directory) : List Bytes :=
  d.files.map Prod.fst

/-- `directory + "/" + filename`. -/
def pathOf (d : Directory) (name : Bytes) : Bytes :=
  d.path ++ ascii ['/'] ++ name

/-- The name under which the directory holds the path `p`, if `p` is a path
of this directory. -/
def nameOf? (d : Directory) (p : Bytes) : Option Bytes :=
  if p.take (d.path.length + 1) = d.pathOf [] then some (p.drop (d.path.length + 1)) else none

/-- The contents of the file called `name`. -/
def contents? (d : Directory) (name : Bytes) : Option Bytes :=
  (d.files.find? fun e => e.1 == name).map Prod.snd

/-- Open the path `p` for reading and read it. -/
def read? (d : Directory) (p : Bytes) : Option Bytes :=
  if d.canOpen p then (d.nameOf? p).bind d.contents? else none

/-- The files after the file `name` has been given the contents `c`. -/
def put (files : List (Bytes × Bytes)) (name c : Bytes) : List (Bytes × Bytes) :=
  (name, c) :: files.filter fun e => e.1 != name

theorem put_nodup {files : List (Bytes × Bytes)} (h : (files.map Prod.fst).Nodup)
    (name c : Bytes) : ((put files name c).map Prod.fst).Nodup := by
  rw [put, List.map_cons, List.nodup_cons]
  constructor
  · intro hmem
    obtain ⟨e, he, hname⟩ := List.mem_map.mp hmem
    have hne := (List.mem_filter.mp he).2
    simp [hname] at hne
  · exact h.sublist (List.filter_sublist.map Prod.fst)

/-- Open the path `p` for writing, which truncates it, and write `c`. When the
open fails the source reports it and returns, so nothing changes. -/
def write (d : Directory) (p c : Bytes) : Directory :=
  if d.canCreate p then
    match d.nameOf? p with
    | none => d
    | some name => { d with files := put d.files name c, nodup := put_nodup d.nodup name c }
  else d

/-- Remove every file whose name fails `keep`. -/
def keepFiles (d : Directory) (keep : Bytes → Bool) : Directory :=
  { d with
    files := d.files.filter fun e => keep e.1
    nodup := d.nodup.sublist (List.filter_sublist.map Prod.fst) }

/-- Every open succeeds. -/
structure Accessible (d : Directory) : Prop where
  list : d.canList = true
  open_ : ∀ p, d.canOpen p = true
  create : ∀ p, d.canCreate p = true

theorem accessible_empty (path : Bytes) : (empty path).Accessible :=
  ⟨rfl, fun _ => rfl, fun _ => rfl⟩

/-! ## Paths and names -/

theorem pathOf_eq (d : Directory) (name : Bytes) : d.pathOf name = d.pathOf [] ++ name := by
  simp [pathOf]

theorem length_pathOf_nil (d : Directory) : (d.pathOf []).length = d.path.length + 1 := by
  simp [pathOf, ascii]

theorem pathOf_injective (d : Directory) {a b : Bytes} (h : d.pathOf a = d.pathOf b) : a = b := by
  rw [pathOf_eq, pathOf_eq d b] at h
  exact List.append_cancel_left h

@[simp] theorem nameOf?_pathOf (d : Directory) (name : Bytes) :
    d.nameOf? (d.pathOf name) = some name := by
  have hlen := d.length_pathOf_nil
  rw [nameOf?, pathOf_eq, ← hlen, List.take_left, List.drop_left, if_pos rfl]

theorem contents?_eq_some {d : Directory} {name c : Bytes} :
    d.contents? name = some c ↔ (name, c) ∈ d.files := by
  have hnodup := d.nodup
  rw [contents?]
  induction hfiles : d.files generalizing d with
  | nil => simp
  | cons e rest ih =>
    rw [hfiles, List.map_cons, List.nodup_cons] at hnodup
    have hrest := ih (d := { d with files := rest, nodup := hnodup.2 }) hnodup.2 rfl
    by_cases hname : e.1 = name
    · have hnot : ∀ c', (name, c') ∉ rest := by
        intro c' hc'
        exact hnodup.1 (hname ▸ List.mem_map_of_mem hc')
      rw [List.find?_cons_of_pos (by simpa using hname)]
      constructor
      · intro h
        have hc : e.2 = c := by simpa using h
        rw [← hname, ← hc]
        exact List.mem_cons_self
      · intro h
        rcases List.mem_cons.mp h with he | hc
        · rw [← he]
          rfl
        · exact absurd hc (hnot c)
    · rw [List.find?_cons_of_neg (by simpa using hname)]
      have hne : (name, c) ≠ e := fun h => hname (by rw [← h])
      rw [List.mem_cons, or_iff_right hne]
      exact hrest

theorem contents?_eq_none {d : Directory} {name : Bytes} :
    d.contents? name = none ↔ name ∉ d.names := by
  rw [contents?, Option.map_eq_none_iff, List.find?_eq_none, names, List.mem_map]
  constructor
  · rintro h ⟨e, he, rfl⟩
    exact absurd (h e he) (by simp)
  · intro h e he hname
    exact h ⟨e, he, by simpa using hname⟩

theorem mem_names_congr {d d' : Directory} {name : Bytes}
    (h : d'.contents? name = d.contents? name) : name ∈ d'.names ↔ name ∈ d.names := by
  rw [← not_iff_not, ← contents?_eq_none, ← contents?_eq_none, h]

theorem mem_names_of_contents? {d : Directory} {name c : Bytes} (h : d.contents? name = some c) :
    name ∈ d.names :=
  List.mem_map_of_mem (contents?_eq_some.mp h)

theorem read?_pathOf {d : Directory} (hd : d.Accessible) (name : Bytes) :
    d.read? (d.pathOf name) = d.contents? name := by
  rw [read?, if_pos (hd.open_ _), nameOf?_pathOf, Option.bind_some]

/-! ## Writing -/

@[simp] theorem write_path (d : Directory) (p c : Bytes) : (d.write p c).path = d.path := by
  unfold write
  split
  · split <;> rfl
  · rfl

@[simp] theorem write_pathOf (d : Directory) (p c name : Bytes) :
    (d.write p c).pathOf name = d.pathOf name := by
  rw [pathOf, pathOf, write_path]

theorem write_accessible {d : Directory} (hd : d.Accessible) (p c : Bytes) :
    (d.write p c).Accessible := by
  unfold write
  split
  · split
    · exact hd
    · exact ⟨hd.list, hd.open_, hd.create⟩
  · exact hd

theorem write_files {d : Directory} (hd : d.Accessible) (name c : Bytes) :
    (d.write (d.pathOf name) c).files = put d.files name c := by
  rw [write, if_pos (hd.create _), nameOf?_pathOf]

/-- What a write leaves in every file: the new contents under its own name,
and what was there before under every other one. -/
theorem contents?_write {d : Directory} (hd : d.Accessible) (name c other : Bytes) :
    (d.write (d.pathOf name) c).contents? other =
      if other = name then some c else d.contents? other := by
  rw [contents?, write_files hd, put]
  by_cases h : other = name
  · subst h
    simp
  · have hne : ¬ name = other := fun hh => h hh.symm
    rw [List.find?_cons_of_neg (by simpa using hne), if_neg h, contents?, List.find?_filter]
    congr 2
    funext e
    by_cases he : e.1 = other
    · simp [he, h]
    · simp [he]

theorem read?_write {d : Directory} (hd : d.Accessible) (name c other : Bytes) :
    (d.write (d.pathOf name) c).read? (d.pathOf other) =
      if other = name then some c else d.contents? other := by
  have h := read?_pathOf (write_accessible hd (d.pathOf name) c) other
  rw [write_pathOf] at h
  rw [h, contents?_write hd]

/-! ## Removing -/

theorem keepFiles_accessible {d : Directory} (hd : d.Accessible) (keep : Bytes → Bool) :
    (d.keepFiles keep).Accessible :=
  ⟨hd.list, hd.open_, hd.create⟩

theorem contents?_keepFiles (d : Directory) (keep : Bytes → Bool) (name : Bytes) :
    (d.keepFiles keep).contents? name = if keep name then d.contents? name else none := by
  cases hkeep : keep name with
  | true =>
    rw [contents?, contents?, keepFiles, List.find?_filter, if_pos rfl]
    congr 2
    funext e
    by_cases he : e.1 = name
    · simp [he, hkeep]
    · simp [he]
  | false =>
    rw [if_neg (by simp), contents?_eq_none]
    intro hmem
    obtain ⟨e, he, rfl⟩ := List.mem_map.mp hmem
    rw [(List.mem_filter.mp he).2] at hkeep
    cases hkeep

end Directory

end BloomHierarchy
