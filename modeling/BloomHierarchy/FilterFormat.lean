import BloomHierarchy.BloomValue

/-!
# Loading a file that need not be a saved filter

`loadFromFile` reads four bytes and then the bits, "assuming the same size as
saved in `saveToFile`". It throws when the file does not open and checks nothing
after that: what a file lacks reads as zero, and what it has beyond the bits is not
read.

Results:
1. `getLsbD_loadedBits`: the bits that any contents are read as.
2. `loadFromFile_any_contents`: every file that opens is loaded, and which contents
   come back when the filter is saved again.
-/

namespace BloomHierarchy

open BitPacking

/-! ## The bits of any contents -/

theorem bitAt_append_zeros (buffer : Bytes) (k p : Nat) :
    bitAt (buffer ++ List.replicate k 0) p = bitAt buffer p := by
  have hbyte : (buffer ++ List.replicate k 0).getD (p / 8) 0 = buffer.getD (p / 8) 0 := by
    rw [List.getD_eq_getElem?_getD, List.getD_eq_getElem?_getD]
    by_cases hp : p / 8 < buffer.length
    · rw [List.getElem?_append_left hp]
    · rw [List.getElem?_append_right (Nat.not_lt.mp hp), List.getElem?_replicate,
        List.getElem?_eq_none (Nat.not_lt.mp hp)]
      split <;> rfl
  rw [bitAt, bitAt, hbyte]

theorem bitAt_take {buffer : Bytes} {k p : Nat} (hp : p / 8 < k) :
    bitAt (buffer.take k) p = bitAt buffer p := by
  rw [bitAt, bitAt, List.getD_eq_getElem?_getD, List.getD_eq_getElem?_getD,
    List.getElem?_take_of_lt hp]

/-- The buffer has the bits that follow the first four bytes. A file of less than
four bytes has none. -/
theorem bitAt_readBuffer {N p : Nat} (hp : p < N) (contents : Bytes) :
    bitAt (readBuffer N contents) p = bitAt (contents.drop 4) p := by
  unfold readBuffer
  dsimp only
  rw [bitAt_append_zeros]
  split
  · next hshort => rw [List.drop_eq_nil_of_le (Nat.le_of_lt hshort)]
  · exact bitAt_take (by omega)

theorem getLsbD_loadedBits {N p : Nat} (hp : p < N) (contents : Bytes) :
    (loadedBits N contents).getLsbD p = bitAt (contents.drop 4) p := by
  rw [loadedBits, getLsbD_unpackBits _ hp, bitAt_readBuffer hp]

/-! ## Saving what was loaded -/

theorem readBuffer_of_length {N : Nat} {contents : Bytes} (hheader : 4 ≤ contents.length)
    (hlen : (contents.drop 4).length = (N + 7) / 8) : readBuffer N contents = contents.drop 4 := by
  unfold readBuffer
  dsimp only
  rw [if_neg (Nat.not_lt.mpr hheader), List.take_of_length_le (Nat.le_of_eq hlen), hlen,
    Nat.sub_self, List.replicate_zero, List.append_nil]

/-- With the header that a filter with `k` hash functions has, exactly the files of
the right length and with zeros behind the last bit are saved as they were. -/
theorem savedBytes_loadedBits_iff {N k : Nat} {contents : Bytes}
    (hheader : contents.take 4 = intBytes k) :
    savedBytes k (loadedBits N contents) = contents ↔
      contents.length = 4 + (N + 7) / 8 ∧ ∀ p, N ≤ p → bitAt (contents.drop 4) p = false := by
  have hfour : 4 ≤ contents.length := by
    have hlen := length_intBytes k
    rw [← hheader, List.length_take] at hlen
    omega
  have hlength : contents.length = 4 + (N + 7) / 8 ↔ (contents.drop 4).length = (N + 7) / 8 := by
    rw [List.length_drop]
    omega
  have hcontents : contents = intBytes k ++ contents.drop 4 := by
    rw [← hheader, List.take_append_drop]
  have hsplit : savedBytes k (loadedBits N contents) = contents ↔
      packBits (loadedBits N contents).getLsbD N (List.replicate ((N + 7) / 8) 0) =
        contents.drop 4 := by
    rw [savedBytes]
    constructor
    · intro h
      exact List.append_cancel_left (h.trans hcontents)
    · intro h
      rw [h]
      exact hcontents.symm
  rw [hsplit, hlength]
  by_cases hsize : (contents.drop 4).length = (N + 7) / 8
  · rw [loadedBits, readBuffer_of_length hfour hsize]
    exact packBits_unpackBits_iff N (contents.drop 4)
  · -- what is written always has the right length
    refine iff_of_false (fun h => hsize ?_) fun h => hsize h.1
    rw [← h, length_packBits, List.length_replicate]

/-- Every file that opens is loaded. Its bits are those that follow the first four
bytes, with zeros in the place of what is missing. If the file records the number of
hash functions of the filter, saving the filter gives the file back exactly if the
file has the length of a saved one and zeros behind the last bit. -/
theorem loadFromFile_any_contents (N : Nat) {d : Directory} {filename contents : Bytes}
    (h : d.read? filename = some contents) :
    ∃ f : BloomValue N, BloomValue.loadFromFile N d filename = .ok f ∧
      (∀ p < N, f.bitArray.getLsbD p = bitAt (contents.drop 4) p) ∧
      (contents.take 4 = intBytes f.numHashFunctions →
        (savedBytes f.numHashFunctions f.bitArray = contents ↔
          contents.length = 4 + (N + 7) / 8 ∧
            ∀ p, N ≤ p → bitAt (contents.drop 4) p = false)) := by
  refine ⟨{ bitArray := loadedBits N contents }, ?_, fun p hp => getLsbD_loadedBits hp contents,
    savedBytes_loadedBits_iff⟩
  rw [BloomValue.loadFromFile, h]

/-- A directory in which the file `5.bloom` of a filter with twelve bits was cut off
after its first byte of bits. -/
def truncatedDir : Directory where
  path := ascii ['d']
  files := [(ascii ['5', '.', 'b', 'l', 'o', 'o', 'm'], [3, 0, 0, 0, 0x85])]
  nodup := by decide

theorem loadFromFile_any_contents_truncated :
    truncatedDir.read? (ascii ['d', '/', '5', '.', 'b', 'l', 'o', 'o', 'm']) =
      some [3, 0, 0, 0, 0x85] ∧
    ∃ f : BloomValue 12, BloomValue.loadFromFile 12 truncatedDir
        (ascii ['d', '/', '5', '.', 'b', 'l', 'o', 'o', 'm']) = .ok f ∧
      (∀ p < 12, f.bitArray.getLsbD p = bitAt (List.drop 4 [3, 0, 0, 0, 0x85]) p) ∧
      (List.take 4 [3, 0, 0, 0, 0x85] = intBytes f.numHashFunctions →
        (savedBytes f.numHashFunctions f.bitArray = [3, 0, 0, 0, 0x85] ↔
          [3, 0, 0, 0, (0x85 : UInt8)].length = 4 + (12 + 7) / 8 ∧
            ∀ p, 12 ≤ p → bitAt (List.drop 4 [3, 0, 0, 0, 0x85]) p = false)) := by
  have hread : truncatedDir.read? (ascii ['d', '/', '5', '.', 'b', 'l', 'o', 'o', 'm']) =
      some [3, 0, 0, 0, 0x85] := by decide
  exact ⟨hread, loadFromFile_any_contents 12 hread⟩

/-- The empty file that `createFile` leaves is loaded as a filter without a bit, and
that filter is saved as six bytes. -/
theorem loadFromFile_accepts_empty :
    (BloomValue.createFile truncatedDir (ascii ['d', '/', '6', '.', 'b'])).read?
      (ascii ['d', '/', '6', '.', 'b']) = some [] ∧
    ∃ f : BloomValue 12, BloomValue.loadFromFile 12
        (BloomValue.createFile truncatedDir (ascii ['d', '/', '6', '.', 'b']))
        (ascii ['d', '/', '6', '.', 'b']) = .ok f ∧
      savedBytes f.numHashFunctions f.bitArray ≠ [] ∧
      f.existsKey polyHash (ascii ['x']) = false := by
  refine ⟨by decide, { bitArray := 0#12 }, by decide, by decide, by decide⟩

end BloomHierarchy
