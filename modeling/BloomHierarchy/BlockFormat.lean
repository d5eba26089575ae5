import BloomHierarchy.Comparator
import BloomHierarchy.Lib.Cursor

/-!
# Blocks of a table (`table/block_builder`, `table/block`)

A block is a run of entries followed by its restart points. An entry stores how
many bytes its key shares with the key before it, and only the rest of the key;
at a restart point the whole key is stored. The builder writes blocks, the
iterator reads them: forwards and backwards from entry to entry, and by a binary
search among the restart points followed by a linear one.

Offsets are natural numbers: a block is smaller than 4 GiB. Where the source
adds two lengths of an entry in 32 bits (`decodeEntry`) the sum wraps here too.
The assertions of the source are left out, and with them `finished_`.

`BlockImage` says what a well-formed block is, without the order in which it was
written; a value of that type carries the proofs. Results:

1. `decodeEntry_eq`: the path for three one-byte lengths reads what the general
   path reads, and `decodeEntry_encode`: an entry's lengths are read back;
2. `BlockBuilder.exists_image`: whatever is added, `finish` writes a well-formed
   block with exactly those entries.

The iterator is proved about in `BlockIterator`.
-/

namespace BloomHierarchy

/-! ## The builder -/

structure BlockBuilder where
  blockRestartInterval : Nat
  buffer : Bytes := []
  restarts : List UInt32 := [0]
  counter : Nat := 0
  lastKey : Bytes := []
deriving Repr, DecidableEq

namespace BlockBuilder

def reset (b : BlockBuilder) : BlockBuilder :=
  { blockRestartInterval := b.blockRestartInterval }

def empty (b : BlockBuilder) : Bool :=
  b.buffer.isEmpty

def currentSizeEstimate (b : BlockBuilder) : Nat :=
  b.buffer.length + b.restarts.length * 4 + 4

def finish (b : BlockBuilder) : Bytes :=
  putFixed32 (b.restarts.foldl putFixed32 b.buffer) (UInt32.ofNat b.restarts.length)

/-- The entry behind the part of its key that is shared. -/
def addShared (b : BlockBuilder) (shared : Nat) (key value : Bytes) : BlockBuilder :=
  let nonShared := key.length - shared
  let buffer := putVarint32 b.buffer (UInt32.ofNat shared)
  let buffer := putVarint32 buffer (UInt32.ofNat nonShared)
  let buffer := putVarint32 buffer (UInt32.ofNat value.length)
  { b with
    buffer := buffer ++ key.drop shared ++ value
    lastKey := b.lastKey.take shared ++ key.drop shared
    counter := b.counter + 1 }

def add (b : BlockBuilder) (key value : Bytes) : BlockBuilder :=
  if b.counter < b.blockRestartInterval then b.addShared (sharedPrefix b.lastKey key) key value
  else
    addShared
      { b with restarts := b.restarts ++ [UInt32.ofNat b.buffer.length], counter := 0 } 0 key value

def addAll (b : BlockBuilder) (entries : List (Bytes × Bytes)) : BlockBuilder :=
  entries.foldl (fun b e => b.add e.1 e.2) b

end BlockBuilder

/-! ## One entry of a block -/

/-- What stands in front of an entry, and the bytes from its key to the limit. -/
structure EntryHead where
  shared : UInt32
  nonShared : UInt32
  valueLength : UInt32
  p : Bytes
deriving Repr, DecidableEq

/-- The general path of `decodeEntry`. -/
def decodeLengths (p : Bytes) : Option EntryHead := do
  let (shared, p) ← getVarint32Ptr p
  let (nonShared, p) ← getVarint32Ptr p
  let (valueLength, p) ← getVarint32Ptr p
  some { shared, nonShared, valueLength, p }

def decodeEntry (p : Bytes) : Option EntryHead :=
  match p with
  | b0 :: b1 :: b2 :: rest => do
    let head ←
      if b0 ||| b1 ||| b2 < 128 then
        -- all three values are encoded in one byte each
        some { shared := b0.toUInt32, nonShared := b1.toUInt32, valueLength := b2.toUInt32,
               p := rest }
      else decodeLengths p
    if UInt32.ofNat head.p.length < head.nonShared + head.valueLength then none else some head
  | _ => none

theorem getVarint32Ptr_cons_of_lt {b : UInt8} (h : b.toNat < 128) (rest : Bytes) :
    getVarint32Ptr (b :: rest) = some (b.toUInt32, rest) := by
  rw [getVarint32Ptr_eq, Varint.decode_cons_of_lt h, Option.map_some, UInt32.ofNat_uInt8ToNat]

theorem lt_128_of_or {b0 b1 b2 : UInt8} (h : b0 ||| b1 ||| b2 < 128) :
    b0.toNat < 128 ∧ b1.toNat < 128 ∧ b2.toNat < 128 := by
  rw [UInt8.lt_iff_toNat_lt, UInt8.toNat_or, UInt8.toNat_or] at h
  have h128 : (128 : UInt8).toNat = 128 := rfl
  rw [h128] at h
  have h01 := Nat.left_le_or (n := b0.toNat ||| b1.toNat) (m := b2.toNat)
  have h2 := Nat.right_le_or (n := b0.toNat ||| b1.toNat) (m := b2.toNat)
  have h0 := Nat.left_le_or (n := b0.toNat) (m := b1.toNat)
  have h1 := Nat.right_le_or (n := b0.toNat) (m := b1.toNat)
  omega

/-- Both paths read the same lengths. -/
theorem decodeEntry_eq {p : Bytes} (h : 3 ≤ p.length) :
    decodeEntry p = (decodeLengths p).bind fun head =>
      if UInt32.ofNat head.p.length < head.nonShared + head.valueLength then none
      else some head := by
  match p, h with
  | b0 :: b1 :: b2 :: rest, _ =>
    by_cases hsmall : b0 ||| b1 ||| b2 < 128
    · obtain ⟨h0, h1, h2⟩ := lt_128_of_or hsmall
      simp [decodeEntry, hsmall, decodeLengths, getVarint32Ptr_cons_of_lt h0,
        getVarint32Ptr_cons_of_lt h1, getVarint32Ptr_cons_of_lt h2]
    · simp only [decodeEntry, hsmall, if_false]
      rfl

theorem decodeEntry_of_length_lt {p : Bytes} (h : p.length < 3) : decodeEntry p = none := by
  match p, h with
  | [], _ => rfl
  | [_], _ => rfl
  | [_, _], _ => rfl

/-- The lengths of an entry take bytes from the input. -/
theorem length_lt_of_decodeEntry {p : Bytes} {head : EntryHead}
    (h : decodeEntry p = some head) : head.p.length < p.length := by
  have hlong : 3 ≤ p.length := by
    by_contra hshort
    rw [decodeEntry_of_length_lt (by omega)] at h
    cases h
  rw [decodeEntry_eq hlong] at h
  obtain ⟨head', hlengths, hhead⟩ := Option.bind_eq_some_iff.mp h
  have hsame : head' = head := by
    split at hhead
    · cases hhead
    · exact Option.some.inj hhead
  subst hsame
  simp only [decodeLengths, Option.bind_eq_bind, Option.bind_eq_some_iff, Prod.exists] at hlengths
  obtain ⟨_, p1, h1, _, p2, h2, _, p3, h3, heq⟩ := hlengths
  cases heq
  have := length_lt_of_getVarint32Ptr h1
  have := length_lt_of_getVarint32Ptr h2
  have := length_lt_of_getVarint32Ptr h3
  show p3.length < p.length
  omega

/-- An entry as it stands in a block. -/
structure BlockEntry where
  shared : Nat
  key : Bytes
  value : Bytes
deriving Repr, DecidableEq

namespace BlockEntry

/-- The three lengths. -/
def head (e : BlockEntry) : Bytes :=
  encodeVarint32 (UInt32.ofNat e.shared) ++
    encodeVarint32 (UInt32.ofNat (e.key.length - e.shared)) ++
    encodeVarint32 (UInt32.ofNat e.value.length)

/-- Behind the lengths. -/
def payload (e : BlockEntry) : Bytes :=
  e.key.drop e.shared ++ e.value

def encode (e : BlockEntry) : Bytes :=
  e.head ++ e.payload

/-- The key can be put together from the one before it. -/
def Shares (e : BlockEntry) (prev : Bytes) : Prop :=
  e.shared ≤ prev.length ∧ prev.take e.shared = e.key.take e.shared

theorem Shares.le {e : BlockEntry} {prev : Bytes} (h : e.Shares prev) :
    e.shared ≤ e.key.length := by
  have := congrArg List.length h.2
  simp only [List.length_take] at this
  have := h.1
  omega

theorem Shares.append {e : BlockEntry} {prev : Bytes} (h : e.Shares prev) :
    prev.take e.shared ++ e.key.drop e.shared = e.key := by
  rw [h.2, List.take_append_drop]

theorem encodeVarint32_length_pos (v : UInt32) : 0 < (encodeVarint32 v).length := by
  rw [encodeVarint32_eq]
  exact Varint.length_encode_pos _ _

theorem three_le_length_encode (e : BlockEntry) : 3 ≤ e.encode.length := by
  have h1 := encodeVarint32_length_pos (UInt32.ofNat e.shared)
  have h2 := encodeVarint32_length_pos (UInt32.ofNat (e.key.length - e.shared))
  have h3 := encodeVarint32_length_pos (UInt32.ofNat e.value.length)
  simp only [encode, head, List.length_append]
  omega

/-- The head of an entry is read back in front of anything. -/
theorem decodeEntry_encode (e : BlockEntry) {rest : Bytes}
    (hsmall : (e.encode ++ rest).length < 2 ^ 32) :
    decodeEntry (e.encode ++ rest) =
      some { shared := UInt32.ofNat e.shared
             nonShared := UInt32.ofNat (e.key.length - e.shared)
             valueLength := UInt32.ofNat e.value.length
             p := e.payload ++ rest } := by
  have hlong : 3 ≤ (e.encode ++ rest).length := by
    have := three_le_length_encode e
    rw [List.length_append]
    omega
  have hpayload : e.payload.length = e.key.length - e.shared + e.value.length := by
    simp [payload]
  have hp : (e.payload ++ rest).length < 2 ^ 32 := by
    simp only [encode, List.length_append] at hsmall ⊢
    omega
  have hsum : (UInt32.ofNat (e.key.length - e.shared) + UInt32.ofNat e.value.length).toNat =
      e.key.length - e.shared + e.value.length := by
    rw [← UInt32.ofNat_add, UInt32.toNat_ofNat_of_lt' (Nat.lt_of_le_of_lt ?_ hp)]
    rw [List.length_append, hpayload]
    omega
  have hfits : ¬ UInt32.ofNat (e.payload ++ rest).length <
      UInt32.ofNat (e.key.length - e.shared) + UInt32.ofNat e.value.length := by
    rw [UInt32.lt_iff_toNat_lt, hsum, UInt32.toNat_ofNat_of_lt' hp, List.length_append, hpayload]
    omega
  have hlengths : decodeLengths (e.encode ++ rest) =
      some { shared := UInt32.ofNat e.shared
             nonShared := UInt32.ofNat (e.key.length - e.shared)
             valueLength := UInt32.ofNat e.value.length
             p := e.payload ++ rest } := by
    have hread (v : UInt32) (p : Bytes) :
        getVarint32Ptr (encodeVarint32 v ++ p) = some (v, p) := getVarint32_append v p
    simp [decodeLengths, encode, head, hread]
  rw [decodeEntry_eq hlong, hlengths, Option.bind_some, if_neg hfits]

end BlockEntry

/-! ## Well-formed blocks -/

/-- The bytes of the entries in front of the restart points. -/
def encodeAll (items : List BlockEntry) : Bytes :=
  items.flatMap BlockEntry.encode

def finalKey (items : List BlockEntry) : Bytes :=
  (items.getLast?.map BlockEntry.key).getD []

/-- Where entry `i` begins. -/
def offsetOf (items : List BlockEntry) (i : Nat) : Nat :=
  (encodeAll (items.take i)).length

/-- The entries of a block and the positions among them at which the keys are whole. -/
structure BlockImage where
  items : List BlockEntry
  points : List Nat
  shares : ∀ i (h : i < items.length), items[i].Shares (finalKey (items.take i))
  first : points[0]? = some 0
  increasing : points.Pairwise (· < ·)
  inside : ∀ p ∈ points, p = 0 ∨ p < items.length
  whole : ∀ p ∈ points, ∀ h : p < items.length, items[p].shared = 0

namespace BlockImage

def entries (img : BlockImage) : List (Bytes × Bytes) :=
  img.items.map fun e => (e.key, e.value)

def offset (img : BlockImage) (i : Nat) : Nat :=
  offsetOf img.items i

def restarts (img : BlockImage) : List UInt32 :=
  img.points.map fun p => UInt32.ofNat (img.offset p)

def bytes (img : BlockImage) : Bytes :=
  encodeAll img.items ++ (img.restarts.flatMap encodeFixed32 ++
    encodeFixed32 (UInt32.ofNat img.points.length))

/-- A block without entries has one restart point. -/
def nil : BlockImage where
  items := []
  points := [0]
  shares := by simp
  first := rfl
  increasing := by simp
  inside := by simp
  whole := by simp

theorem finalKey_append (items : List BlockEntry) (e : BlockEntry) :
    finalKey (items ++ [e]) = e.key := by
  simp [finalKey]

theorem shares_append {items : List BlockEntry} {e : BlockEntry}
    (h : ∀ i (h : i < items.length), items[i].Shares (finalKey (items.take i)))
    (he : e.Shares (finalKey items)) (i : Nat) (hi : i < (items ++ [e]).length) :
    (items ++ [e])[i].Shares (finalKey ((items ++ [e]).take i)) := by
  by_cases hold : i < items.length
  · rw [List.getElem_append_left hold, List.take_append_of_le_length hold.le]
    exact h i hold
  · have hlast : i = items.length := by
      simp only [List.length_append, List.length_singleton] at hi
      omega
    subst hlast
    rw [List.getElem_concat_length rfl, List.take_left]
    exact he

theorem whole_append {items : List BlockEntry} {e : BlockEntry} {p : Nat}
    (h : ∀ h : p < items.length, items[p].shared = 0) (he : p = items.length → e.shared = 0)
    (hp : p < (items ++ [e]).length) : (items ++ [e])[p].shared = 0 := by
  by_cases hold : p < items.length
  · rw [List.getElem_append_left hold]
    exact h hold
  · have hlast : p = items.length := by
      simp only [List.length_append, List.length_singleton] at hp
      omega
    subst hlast
    rw [List.getElem_concat_length rfl]
    exact he rfl

/-- One more entry that is no restart point, or the first one. -/
def push (img : BlockImage) (e : BlockEntry) (h : e.Shares (finalKey img.items)) : BlockImage where
  items := img.items ++ [e]
  points := img.points
  shares := shares_append img.shares h
  first := img.first
  increasing := img.increasing
  inside := by
    intro p hp
    rw [List.length_append]
    exact (img.inside p hp).imp_right (by omega)
  whole := by
    intro p hp
    refine whole_append (img.whole p hp) fun hlast => ?_
    -- a point at the end is the first one, in front of which there is no key
    have hempty : img.items = [] := by
      rcases img.inside p hp with hp | hp
      · exact List.eq_nil_of_length_eq_zero (by omega)
      · omega
    have hshort := h.1
    rw [hempty] at hshort
    simpa [finalKey] using hshort

/-- One more entry at a new restart point. -/
def restart (img : BlockImage) (e : BlockEntry) (h : e.shared = 0) (hne : img.items ≠ []) :
    BlockImage where
  items := img.items ++ [e]
  points := img.points ++ [img.items.length]
  shares := shares_append img.shares ⟨by omega, by rw [h, List.take_zero, List.take_zero]⟩
  first := by
    have := img.first
    cases hpoints : img.points with
    | nil => simp [hpoints] at this
    | cons p points => simpa [hpoints] using this
  increasing := by
    refine List.pairwise_append.mpr ⟨img.increasing, by simp, ?_⟩
    intro p hp q hq
    obtain rfl := List.mem_singleton.mp hq
    rcases img.inside p hp with rfl | hlt
    · exact List.length_pos_iff.mpr hne
    · exact hlt
  inside := by
    intro p hp
    rw [List.length_append, List.length_singleton]
    rcases List.mem_append.mp hp with hp | hp
    · exact (img.inside p hp).imp_right (by omega)
    · obtain rfl := List.mem_singleton.mp hp
      exact .inr (Nat.lt_succ_self _)
  whole := by
    intro p hp
    rcases List.mem_append.mp hp with hp | hp
    · exact whole_append (img.whole p hp) fun _ => h
    · obtain rfl := List.mem_singleton.mp hp
      exact whole_append (fun hlt => absurd hlt (Nat.lt_irrefl _)) fun _ => h

end BlockImage

/-! ## The builder writes well-formed blocks -/

namespace BlockBuilder

/-- The builder has written the entries of the image so far. -/
structure Writes (b : BlockBuilder) (img : BlockImage) : Prop where
  buffer : b.buffer = encodeAll img.items
  restarts : b.restarts = img.restarts
  key : b.lastKey = finalKey img.items
  counter : img.items = [] → b.counter = 0

theorem addShared_buffer (b : BlockBuilder) (e : BlockEntry) :
    (b.addShared e.shared e.key e.value).buffer = b.buffer ++ e.encode := by
  simp [addShared, putVarint32, BlockEntry.encode, BlockEntry.head, BlockEntry.payload]

theorem encodeAll_append (items : List BlockEntry) (e : BlockEntry) :
    encodeAll (items ++ [e]) = encodeAll items ++ e.encode := by
  simp [encodeAll]

theorem offsetOf_append {items : List BlockEntry} (e : BlockEntry) {p : Nat}
    (hp : p ≤ items.length) : offsetOf (items ++ [e]) p = offsetOf items p := by
  rw [offsetOf, List.take_append_of_le_length hp, offsetOf]

/-- An entry that shares its key with the one before it. -/
theorem Writes.push {b : BlockBuilder} {img : BlockImage} (h : b.Writes img) (e : BlockEntry)
    (he : e.Shares (finalKey img.items)) :
    (b.addShared e.shared e.key e.value).Writes (img.push e he) where
  buffer := by
    rw [addShared_buffer, h.buffer]
    exact (encodeAll_append _ _).symm
  restarts := by
    show b.restarts = img.points.map fun p => UInt32.ofNat (offsetOf (img.items ++ [e]) p)
    rw [h.restarts]
    refine List.map_congr_left fun p hp => ?_
    have hle : p ≤ img.items.length := by
      have := img.inside p hp
      omega
    rw [offsetOf_append e hle]
    rfl
  key := by
    show b.lastKey.take e.shared ++ e.key.drop e.shared = finalKey (img.items ++ [e])
    rw [h.key, he.append, BlockImage.finalKey_append]
  counter := by simp [BlockImage.push]

/-- An entry with its whole key, at a new restart point. -/
theorem Writes.restart {b : BlockBuilder} {img : BlockImage} (h : b.Writes img) (e : BlockEntry)
    (he : e.shared = 0) (hne : img.items ≠ []) :
    (addShared { b with restarts := b.restarts ++ [UInt32.ofNat b.buffer.length], counter := 0 }
      0 e.key e.value).Writes (img.restart e he hne) where
  buffer := by
    rw [← he, addShared_buffer, h.buffer]
    exact (encodeAll_append _ _).symm
  restarts := by
    show b.restarts ++ [UInt32.ofNat b.buffer.length] =
      (img.points ++ [img.items.length]).map fun p =>
        UInt32.ofNat (offsetOf (img.items ++ [e]) p)
    rw [h.restarts, List.map_append, h.buffer, List.map_singleton,
      offsetOf_append e (Nat.le_refl _), offsetOf, List.take_length]
    congr 1
    refine List.map_congr_left fun p hp => ?_
    have hle : p ≤ img.items.length := by
      have := img.inside p hp
      omega
    rw [offsetOf_append e hle]
    rfl
  key := by
    show b.lastKey.take 0 ++ e.key.drop 0 = finalKey (img.items ++ [e])
    rw [BlockImage.finalKey_append, List.take_zero, List.drop_zero, List.nil_append]
  counter := by simp [BlockImage.restart]

theorem Writes.add {b : BlockBuilder} {img : BlockImage} (h : b.Writes img)
    (hinterval : 1 ≤ b.blockRestartInterval) (key value : Bytes) :
    ∃ img' : BlockImage, (b.add key value).Writes img' ∧
      img'.entries = img.entries ++ [(key, value)] := by
  unfold BlockBuilder.add
  split
  next =>
    let e : BlockEntry := ⟨sharedPrefix b.lastKey key, key, value⟩
    have he : e.Shares (finalKey img.items) := by
      rw [← h.key]
      exact ⟨sharedPrefix_le_left _ _, take_sharedPrefix _ _⟩
    exact ⟨img.push e he, h.push e he, by simp [BlockImage.entries, BlockImage.push, e]⟩
  next hfull =>
    have hne : img.items ≠ [] := by
      intro hempty
      have := h.counter hempty
      omega
    let e : BlockEntry := ⟨0, key, value⟩
    exact ⟨img.restart e rfl hne, h.restart e rfl hne,
      by simp [BlockImage.entries, BlockImage.restart, e]⟩

theorem add_blockRestartInterval (b : BlockBuilder) (key value : Bytes) :
    (b.add key value).blockRestartInterval = b.blockRestartInterval := by
  unfold BlockBuilder.add
  split <;> rfl

theorem Writes.addAll {b : BlockBuilder} {img : BlockImage} (h : b.Writes img)
    (hinterval : 1 ≤ b.blockRestartInterval) (entries : List (Bytes × Bytes)) :
    ∃ img' : BlockImage, (b.addAll entries).Writes img' ∧
      img'.entries = img.entries ++ entries := by
  induction entries generalizing b img with
  | nil => exact ⟨img, h, (List.append_nil _).symm⟩
  | cons e entries ih =>
    obtain ⟨img₁, h₁, he₁⟩ := h.add hinterval e.1 e.2
    have hsame := add_blockRestartInterval b e.1 e.2
    obtain ⟨img₂, h₂, he₂⟩ := ih h₁ (by rw [hsame]; exact hinterval)
    refine ⟨img₂, h₂, ?_⟩
    rw [he₂, he₁, List.append_assoc]
    rfl

theorem Writes.finish {b : BlockBuilder} {img : BlockImage} (h : b.Writes img) :
    b.finish = img.bytes := by
  rw [BlockBuilder.finish, foldl_putFixed32, putFixed32, h.buffer, h.restarts, BlockImage.bytes,
    List.append_assoc]
  simp [BlockImage.restarts]

theorem writes_nil (b : BlockBuilder) : b.reset.Writes .nil where
  buffer := rfl
  restarts := rfl
  key := rfl
  counter := fun _ => rfl

/-- Whatever is added to an empty builder, it writes a well-formed block of these entries. -/
theorem exists_image {b : BlockBuilder} (hinterval : 1 ≤ b.blockRestartInterval)
    (entries : List (Bytes × Bytes)) :
    ∃ img : BlockImage, img.entries = entries ∧ (b.reset.addAll entries).finish = img.bytes := by
  obtain ⟨img, h, he⟩ := (writes_nil b).addAll hinterval entries
  exact ⟨img, he, h.finish⟩

end BlockBuilder

end BloomHierarchy
