import BloomHierarchy.Coding

/-!
# The parts of a table file (`table/format`, `table/table_builder`)

Block handles, the footer, and blocks as they stand in the file: compressed or
not, followed by a byte for the compression and by a masked checksum of both.

The compression libraries and the checksum function are values of `Codec` and
`Crc32c`, which carry what the program relies on: what was compressed is
uncompressed again, and a checksum can be continued. The function that a build
without libraries computes is in `BloomHierarchy.Crc32c`. A read that goes past the
end of a file is short for `pread` and an error for a mapped file
(`RandomAccessFile.read`). Sizes are natural numbers; a handle whose size is near
`2 ^ 64` makes the source's `n + kBlockTrailerSize` wrap, which is left out.

Results: handles and the footer are read back (`BlockHandle.decodeFrom_append`,
`Footer.decodeFrom_encodeTo`), and a block that stands in a file is read back,
with or without checking its checksum (`readBlock_blockBytes`).
-/

namespace BloomHierarchy

/-! ## Libraries -/

/-- `port::Snappy_*` or `port::Zstd_*`. -/
structure Codec where
  /-- `none` if the library is not there. -/
  compress : Bytes → Option Bytes
  getUncompressedLength : Bytes → Option Nat
  uncompress : Bytes → Option Bytes
  length_compress : ∀ {raw compressed}, compress raw = some compressed →
    getUncompressedLength compressed = some raw.length
  uncompress_compress : ∀ {raw compressed}, compress raw = some compressed →
    uncompress compressed = some raw

/-- The functions of a build without the library. -/
def Codec.absent : Codec where
  compress _ := none
  getUncompressedLength _ := none
  uncompress _ := none
  length_compress := nofun
  uncompress_compress := nofun

/-- `crc32c::Extend` returns the checksum of the concatenation. -/
structure Crc32c where
  extend : UInt32 → Bytes → UInt32
  extend_append : ∀ crc a b, extend (extend crc a) b = extend crc (a ++ b)

def Crc32c.value (crc : Crc32c) (data : Bytes) : UInt32 :=
  crc.extend 0 data

/-- The libraries that the program is built with. -/
structure Port where
  snappy : Codec
  zstd : Codec
  crc32c : Crc32c

inductive CompressionType
  | none
  | snappy
  | zstd
deriving Repr, DecidableEq

def CompressionType.code : CompressionType → UInt8
  | .none => 0
  | .snappy => 1
  | .zstd => 2

/-! ## Files -/

structure RandomAccessFile where
  filename : Bytes
  contents : Bytes
  mapped : Bool
deriving Repr, DecidableEq

def RandomAccessFile.read (file : RandomAccessFile) (offset n : Nat) : Except Bytes Bytes :=
  if file.mapped ∧ file.contents.length < offset + n then
    .error (ascii "IO error: ".toList ++ file.filename ++ ascii ": Invalid argument".toList)
  else .ok ((file.contents.drop offset).take n)

theorem RandomAccessFile.read_eq {file : RandomAccessFile} {front middle rest : Bytes}
    (h : file.contents = front ++ (middle ++ rest)) :
    file.read front.length middle.length = .ok middle := by
  have hinside : ¬ file.contents.length < front.length + middle.length := by
    rw [h, List.length_append, List.length_append]
    omega
  rw [read, if_neg (fun hout => hinside hout.2), h, List.drop_left, List.take_left]

/-! ## Handles -/

structure BlockHandle where
  offset : UInt64
  size : UInt64
deriving Repr, DecidableEq

namespace BlockHandle

def kMaxEncodedLength : Nat := 20

def encodeTo (dst : Bytes) (h : BlockHandle) : Bytes :=
  putVarint64 (putVarint64 dst h.offset) h.size

/-- The handle and the input behind it. -/
def decodeFrom (input : Bytes) : Except Bytes (BlockHandle × Bytes) :=
  match (do
    let (offset, input) ← getVarint64 input
    let (size, input) ← getVarint64 input
    some ((⟨offset, size⟩ : BlockHandle), input)) with
  | some r => .ok r
  | none => .error (corruption "bad block handle")

theorem encodeTo_eq (dst : Bytes) (h : BlockHandle) : h.encodeTo dst = dst ++ h.encodeTo [] := by
  simp [encodeTo, putVarint64]

theorem decodeFrom_append (h : BlockHandle) (rest : Bytes) :
    decodeFrom (h.encodeTo [] ++ rest) = .ok (h, rest) := by
  simp [decodeFrom, encodeTo, putVarint64]

theorem length_encodeTo_le (h : BlockHandle) : (h.encodeTo []).length ≤ kMaxEncodedLength := by
  have hoffset := Varint.length_encode_le 9 h.offset.toNat
  have hsize := Varint.length_encode_le 9 h.size.toNat
  simp only [encodeTo, putVarint64, encodeVarint64_eq, List.nil_append, List.length_append,
    kMaxEncodedLength]
  omega

/-- A handle is determined by what is written of it. -/
theorem encodeTo_injective {h h' : BlockHandle} (heq : h.encodeTo [] = h'.encodeTo []) :
    h = h' := by
  have hread := decodeFrom_append h []
  rw [heq, decodeFrom_append] at hread
  cases hread
  rfl

end BlockHandle

/-! ## The footer -/

def kTableMagicNumber : UInt64 := 0xdb4775248b80fb57

/-- `std::string::resize`. -/
def resize (s : Bytes) (n : Nat) : Bytes :=
  s.take n ++ List.replicate (n - s.length) 0

structure Footer where
  metaindexHandle : BlockHandle
  indexHandle : BlockHandle
deriving Repr, DecidableEq

namespace Footer

def kEncodedLength : Nat := 2 * BlockHandle.kMaxEncodedLength + 8

/-- The bytes that are appended to an empty string. -/
def encodeTo (footer : Footer) : Bytes :=
  let dst := footer.indexHandle.encodeTo (footer.metaindexHandle.encodeTo [])
  let dst := resize dst (2 * BlockHandle.kMaxEncodedLength)
  let dst := putFixed32 dst (kTableMagicNumber &&& 0xffffffff).toUInt32
  putFixed32 dst (kTableMagicNumber >>> 32).toUInt32

def decodeFrom (input : Bytes) : Except Bytes Footer :=
  if input.length < kEncodedLength then .error (corruption "not an sstable (footer too short)")
  else
    let magicLo := decodeFixed32 ((input.drop (kEncodedLength - 8)).take 4)
    let magicHi := decodeFixed32 ((input.drop (kEncodedLength - 4)).take 4)
    if magicHi.toUInt64 <<< 32 ||| magicLo.toUInt64 ≠ kTableMagicNumber then
      .error (corruption "not an sstable (bad magic number)")
    else do
      let (metaindexHandle, input) ← BlockHandle.decodeFrom input
      let (indexHandle, _) ← BlockHandle.decodeFrom input
      return { metaindexHandle, indexHandle }

/-- The handles leave room for the padding. -/
theorem exists_padding (footer : Footer) :
    ∃ padding, (footer.metaindexHandle.encodeTo [] ++
        (footer.indexHandle.encodeTo [] ++ padding)).length = 40 ∧
      footer.encodeTo = footer.metaindexHandle.encodeTo [] ++
        (footer.indexHandle.encodeTo [] ++ padding) ++
          (encodeFixed32 (kTableMagicNumber &&& 0xffffffff).toUInt32 ++
            encodeFixed32 (kTableMagicNumber >>> 32).toUInt32) := by
  have hmeta := footer.metaindexHandle.length_encodeTo_le
  have hindex := footer.indexHandle.length_encodeTo_le
  have hdst := footer.indexHandle.encodeTo_eq (footer.metaindexHandle.encodeTo [])
  rw [BlockHandle.kMaxEncodedLength] at hmeta hindex
  refine ⟨List.replicate (40 - (footer.indexHandle.encodeTo
    (footer.metaindexHandle.encodeTo [])).length) 0, ?_, ?_⟩
  · rw [hdst]
    simp only [List.length_append, List.length_replicate]
    omega
  · have hwhole : (footer.indexHandle.encodeTo (footer.metaindexHandle.encodeTo [])).take 40 =
        footer.metaindexHandle.encodeTo [] ++ footer.indexHandle.encodeTo [] := by
      rw [hdst]
      refine List.take_of_length_le ?_
      rw [List.length_append]
      omega
    simp only [encodeTo, resize, BlockHandle.kMaxEncodedLength, putFixed32, hwhole,
      List.append_assoc]

theorem length_encodeTo (footer : Footer) : footer.encodeTo.length = kEncodedLength := by
  obtain ⟨padding, hlen, heq⟩ := footer.exists_padding
  rw [heq, List.length_append, hlen]
  rfl

theorem decodeFrom_encodeTo (footer : Footer) : decodeFrom footer.encodeTo = .ok footer := by
  obtain ⟨padding, hlen, heq⟩ := footer.exists_padding
  have hlong : ¬ footer.encodeTo.length < kEncodedLength := by
    rw [length_encodeTo]
    exact Nat.lt_irrefl _
  have hlo : (footer.encodeTo.drop (kEncodedLength - 8)).take 4 =
      encodeFixed32 (kTableMagicNumber &&& 0xffffffff).toUInt32 := by
    rw [heq, show kEncodedLength - 8 = 40 from rfl, List.drop_left' hlen]
    rfl
  have hhi : (footer.encodeTo.drop (kEncodedLength - 4)).take 4 =
      encodeFixed32 (kTableMagicNumber >>> 32).toUInt32 := by
    rw [heq, show kEncodedLength - 4 = 40 + 4 from rfl, ← List.drop_drop, List.drop_left' hlen]
    rfl
  have hmagic : (kTableMagicNumber >>> 32).toUInt32.toUInt64 <<< 32 |||
      (kTableMagicNumber &&& 0xffffffff).toUInt32.toUInt64 = kTableMagicNumber := by decide
  rw [decodeFrom, if_neg hlong]
  dsimp only
  rw [hlo, hhi, decodeFixed32_encodeFixed32, decodeFixed32_encodeFixed32,
    if_neg (not_not.mpr hmagic), heq, List.append_assoc, List.append_assoc,
    BlockHandle.decodeFrom_append]
  show (do
    let (indexHandle, _) ← BlockHandle.decodeFrom _
    pure (⟨footer.metaindexHandle, indexHandle⟩ : Footer)) = _
  rw [BlockHandle.decodeFrom_append]
  rfl

end Footer

/-! ## Blocks in a file -/

def kBlockTrailerSize : Nat := 5

section
variable (port : Port)

/-- What `WriteBlock` stores for a finished block, and how. -/
def compressBlock (compression : CompressionType) (raw : Bytes) : Bytes × CompressionType :=
  let stored (codec : Codec) : Bytes × CompressionType :=
    match codec.compress raw with
    | some compressed =>
      if compressed.length < raw.length - raw.length / 8 then (compressed, compression)
      else (raw, .none)
    | .none => (raw, .none)
  match compression with
  | .none => (raw, .none)
  | .snappy => stored port.snappy
  | .zstd => stored port.zstd

/-- The type and the checksum behind the contents. -/
def blockTrailer (contents : Bytes) (type : CompressionType) : Bytes :=
  let crc := port.crc32c.extend (port.crc32c.value contents) [type.code]
  [type.code] ++ encodeFixed32 (Crc32c.mask crc)

/-- What `WriteRawBlock` appends. -/
def rawBlock (contents : Bytes) (type : CompressionType) : Bytes :=
  contents ++ blockTrailer port contents type

/-- A finished block in the file. -/
def blockBytes (compression : CompressionType) (raw : Bytes) : Bytes :=
  let stored := compressBlock port compression raw
  rawBlock port stored.1 stored.2

/-- The contents behind the type byte. -/
def uncompressBlock (codec : Codec) (name : String) (data : Bytes) : Except Bytes Bytes :=
  match codec.getUncompressedLength data with
  | none => .error (corruption ("corrupted " ++ name ++ " compressed block length"))
  | some _ =>
    match codec.uncompress data with
    | none => .error (corruption ("corrupted " ++ name ++ " compressed block contents"))
    | some raw => .ok raw

def readBlock (file : RandomAccessFile) (verifyChecksums : Bool) (handle : BlockHandle) :
    Except Bytes Bytes := do
  let n := handle.size.toNat
  let contents ← file.read handle.offset.toNat (n + kBlockTrailerSize)
  if contents.length ≠ n + kBlockTrailerSize then .error (corruption "truncated block read")
  else if verifyChecksums ∧ port.crc32c.value (contents.take (n + 1)) ≠
      Crc32c.unmask (decodeFixed32 ((contents.drop (n + 1)).take 4)) then
    .error (corruption "block checksum mismatch")
  else
    let data := contents.take n
    let type := contents.getD n 0
    if type = CompressionType.none.code then .ok data
    else if type = CompressionType.snappy.code then uncompressBlock port.snappy "snappy" data
    else if type = CompressionType.zstd.code then uncompressBlock port.zstd "zstd" data
    else .error (corruption "bad block type")

variable {port}

theorem length_rawBlock (port : Port) (contents : Bytes) (type : CompressionType) :
    (rawBlock port contents type).length = contents.length + kBlockTrailerSize := by
  simp [rawBlock, blockTrailer, kBlockTrailerSize]

/-- Either the block itself is stored, or what its library makes of it. -/
theorem compressBlock_cases (port : Port) (compression : CompressionType) (raw : Bytes) :
    compressBlock port compression raw = (raw, .none) ∨
      ∃ compressed, compressed.length ≤ raw.length ∧
        (port.snappy.compress raw = some compressed ∧
            compressBlock port compression raw = (compressed, .snappy) ∨
          port.zstd.compress raw = some compressed ∧
            compressBlock port compression raw = (compressed, .zstd)) := by
  cases compression with
  | none => exact .inl rfl
  | snappy =>
    unfold compressBlock
    dsimp only
    split
    next compressed hcompress =>
      split
      next hshorter => exact .inr ⟨compressed, by omega, .inl ⟨hcompress, rfl⟩⟩
      next => exact .inl rfl
    next => exact .inl rfl
  | zstd =>
    unfold compressBlock
    dsimp only
    split
    next compressed hcompress =>
      split
      next hshorter => exact .inr ⟨compressed, by omega, .inr ⟨hcompress, rfl⟩⟩
      next => exact .inl rfl
    next => exact .inl rfl

/-- The handle of contents that stand behind `front`. -/
def handleAt (front contents : Bytes) : BlockHandle :=
  ⟨UInt64.ofNat front.length, UInt64.ofNat contents.length⟩

/-- The checksum covers the contents and the type. -/
theorem rawBlock_eq (port : Port) (contents : Bytes) (type : CompressionType) :
    rawBlock port contents type = (contents ++ [type.code]) ++
      encodeFixed32 (Crc32c.mask (port.crc32c.value (contents ++ [type.code]))) := by
  rw [rawBlock, blockTrailer, ← List.append_assoc, Crc32c.value, port.crc32c.extend_append]
  rfl

/-- What is made of bytes in the file that have a type and a checksum behind them. -/
theorem readBlock_stored {file : RandomAccessFile} {front rest data : Bytes} {type : UInt8}
    {stored : UInt32}
    (hfile : file.contents =
      front ++ (((data ++ [type]) ++ encodeFixed32 (Crc32c.mask stored)) ++ rest))
    (hsmall : file.contents.length < 2 ^ 64) (verifyChecksums : Bool) :
    readBlock port file verifyChecksums (handleAt front data) =
      if verifyChecksums ∧ port.crc32c.value (data ++ [type]) ≠ stored then
        .error (corruption "block checksum mismatch")
      else if type = CompressionType.none.code then .ok data
      else if type = CompressionType.snappy.code then uncompressBlock port.snappy "snappy" data
      else if type = CompressionType.zstd.code then uncompressBlock port.zstd "zstd" data
      else .error (corruption "bad block type") := by
  have hlen : ((data ++ [type]) ++ encodeFixed32 (Crc32c.mask stored)).length =
      data.length + kBlockTrailerSize := by
    simp [kBlockTrailerSize]
  have hbound : front.length + data.length < 2 ^ 64 := by
    rw [hfile, List.length_append, List.length_append, hlen] at hsmall
    omega
  have hoffset : (UInt64.ofNat front.length).toNat = front.length :=
    UInt64.toNat_ofNat_of_lt' (Nat.lt_of_le_of_lt (Nat.le_add_right _ _) hbound)
  have hsize : (UInt64.ofNat data.length).toNat = data.length :=
    UInt64.toNat_ofNat_of_lt' (Nat.lt_of_le_of_lt (Nat.le_add_left _ _) hbound)
  have hread := RandomAccessFile.read_eq hfile
  rw [hlen] at hread
  have hcovered : ((data ++ [type]) ++ encodeFixed32 (Crc32c.mask stored)).take
      (data.length + 1) = data ++ [type] :=
    List.take_left' (by simp)
  have hchecksum : Crc32c.unmask (decodeFixed32
      ((((data ++ [type]) ++ encodeFixed32 (Crc32c.mask stored)).drop
        (data.length + 1)).take 4)) = stored := by
    rw [List.drop_left' (by simp), List.take_of_length_le (by simp), decodeFixed32_encodeFixed32,
      Crc32c.unmask_mask]
  have hdata : ((data ++ [type]) ++ encodeFixed32 (Crc32c.mask stored)).take data.length =
      data := by
    rw [List.append_assoc, List.take_left]
  have htype : ((data ++ [type]) ++ encodeFixed32 (Crc32c.mask stored)).getD data.length 0 =
      type := by
    simp
  rw [readBlock, handleAt, hoffset, hsize, hread]
  show (if ((data ++ [type]) ++ encodeFixed32 (Crc32c.mask stored)).length ≠
    data.length + kBlockTrailerSize then _ else _) = _
  rw [if_neg (not_not.mpr hlen), hcovered, hchecksum, hdata, htype]

/-- Contents that were stored with their type are found again. -/
theorem readBlock_rawBlock {file : RandomAccessFile} {front rest contents : Bytes}
    {type : CompressionType}
    (hfile : file.contents = front ++ (rawBlock port contents type ++ rest))
    (hsmall : file.contents.length < 2 ^ 64) (verifyChecksums : Bool) :
    readBlock port file verifyChecksums (handleAt front contents) =
      match type with
      | .none => .ok contents
      | .snappy => uncompressBlock port.snappy "snappy" contents
      | .zstd => uncompressBlock port.zstd "zstd" contents := by
  rw [rawBlock_eq] at hfile
  rw [readBlock_stored hfile hsmall, if_neg (fun hmismatch => hmismatch.2 rfl)]
  cases type <;> rfl

/-- A block of the table is read back from where it stands. -/
theorem readBlock_blockBytes {file : RandomAccessFile} {front rest raw : Bytes}
    {compression : CompressionType}
    (hfile : file.contents = front ++ (blockBytes port compression raw ++ rest))
    (hsmall : file.contents.length < 2 ^ 64) (verifyChecksums : Bool) :
    readBlock port file verifyChecksums
      (handleAt front (compressBlock port compression raw).1) = .ok raw := by
  have hraw : file.contents = front ++ (rawBlock port (compressBlock port compression raw).1
      (compressBlock port compression raw).2 ++ rest) := hfile
  rw [readBlock_rawBlock hraw hsmall]
  rcases compressBlock_cases port compression raw with
    h | ⟨compressed, -, ⟨hcompress, h⟩ | ⟨hcompress, h⟩⟩
  · rw [h]
  · rw [h]
    simp only [uncompressBlock, port.snappy.length_compress hcompress,
      port.snappy.uncompress_compress hcompress]
  · rw [h]
    simp only [uncompressBlock, port.zstd.length_compress hcompress,
      port.zstd.uncompress_compress hcompress]

end

end BloomHierarchy
