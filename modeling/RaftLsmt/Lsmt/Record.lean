import RaftLsmt.Lsmt.Key

/-!
# Records

A memtable stores for each key the content buffer of `lsmt_insert`, which by the store's convention
reads `| type | length (4) | data |` (`encodeData`). The flush and the scan take the size of a
record from the embedded length (`contentLen`), never from the size of the stored buffer; `Encoded`
says that the two agree, and `SelfConsistent` that the size of the record has 32 bits as well, in which
the flush adds it up (`bufSize`). A raw record is the key followed by that content, the form it has on
disk and in a query response: `rawOf` builds it, and `KvRawRecord.Wf` says that its 21-byte header
describes it.
-/

set_option autoImplicit false

namespace RaftLsmt.Lsmt

open RaftLsmt.Lib.ByteCodec

/-- `encode_data`: type, little-endian length, data. -/
def encodeData (type : UInt8) (data : Bytes) : Bytes := type :: leBytes 4 data.length ++ data

/-- The `uint32_t` at content offset 1. -/
def contentLen (content : Bytes) : Nat := leNat ((content.drop 1).take 4)

/-- The stored buffer has the five header bytes and ends where the embedded length says. -/
def Encoded (content : Bytes) : Prop :=
  5 ≤ content.length ∧ content.length = 5 + contentLen content

instance (content : Bytes) : Decidable (Encoded content) :=
  inferInstanceAs (Decidable (_ ∧ _))

/-- The stored buffer is encoded, and the size of its record has 32 bits. -/
def SelfConsistent (content : Bytes) : Prop := Encoded content ∧ 21 + contentLen content < 2 ^ 32

instance (content : Bytes) : Decidable (SelfConsistent content) :=
  inferInstanceAs (Decidable (_ ∧ _))

/-- Copying `5 + contentLen` bytes out of the stored buffer stays inside it. -/
def Readable (content : Bytes) : Prop :=
  5 ≤ content.length ∧ 5 + contentLen content ≤ content.length

instance (content : Bytes) : Decidable (Readable content) :=
  inferInstanceAs (Decidable (_ ∧ _))

theorem SelfConsistent.readable {content : Bytes} (h : SelfConsistent content) :
    Readable content :=
  ⟨h.1.1, h.1.2.ge⟩

theorem contentLen_encodeData (type : UInt8) {data : Bytes} (h : data.length < 2 ^ 32) :
    contentLen (encodeData type data) = data.length := by
  have htake : ((encodeData type data).drop 1).take 4 = leBytes 4 data.length := by
    rw [encodeData, List.cons_append, List.drop_succ_cons, List.drop_zero,
      List.take_left' (by simp)]
  rw [contentLen, htake, leNat_leBytes (by omega)]

theorem length_encodeData (type : UInt8) (data : Bytes) :
    (encodeData type data).length = 5 + data.length := by
  simp only [encodeData, List.cons_append, List.length_cons, List.length_append, length_leBytes]
  omega

theorem encoded_encodeData (type : UInt8) {data : Bytes} (h : data.length < 2 ^ 32) :
    Encoded (encodeData type data) := by
  rw [Encoded, contentLen_encodeData type h, length_encodeData]
  exact ⟨Nat.le_add_right _ _, rfl⟩

theorem selfConsistent_encodeData (type : UInt8) {data : Bytes} (h : 21 + data.length < 2 ^ 32) :
    SelfConsistent (encodeData type data) := by
  have hlen : data.length < 2 ^ 32 := by omega
  refine ⟨encoded_encodeData type hlen, ?_⟩
  rw [contentLen_encodeData type hlen]
  exact h

/-- Contents of every size whose record has a size of 32 bits. -/
theorem exists_selfConsistent {n : Nat} (hn : 21 + n < 2 ^ 32) :
    ∃ content : Bytes, SelfConsistent content ∧ content.length = n + 5 := by
  refine ⟨encodeData 2 (List.replicate n 0), selfConsistent_encodeData 2 (by simpa using hn), ?_⟩
  rw [length_encodeData, List.length_replicate, Nat.add_comm]

/-- `kv_raw_record_t`: a valid record with its bytes; `total_size` is their number. -/
@[ext]
structure KvRawRecord where
  key : SlUint128
  rawData : Bytes

namespace KvRawRecord

/-- `total_size`. -/
def totalSize (r : KvRawRecord) : Nat := r.rawData.length

/-- The 21-byte header holds the record's key and the length of the rest. -/
structure Wf (r : KvRawRecord) : Prop where
  header_le : 21 ≤ r.rawData.length
  key_eq : keyOfBytes r.rawData = r.key
  body_len : leNat ((r.rawData.drop 17).take 4) + 21 = r.rawData.length

end KvRawRecord

/-- The record that flush and scan produce for a memtable node: the key and the first
`5 + contentLen` content bytes. -/
def rawOf (node : SlUint128 × Bytes) : KvRawRecord :=
  ⟨node.1, keyBytes node.1 ++ node.2.take (5 + contentLen node.2)⟩

@[simp]
theorem rawOf_key (node : SlUint128 × Bytes) : (rawOf node).key = node.1 := rfl

/-- The length word of a header sits 16 bytes behind the one of the content. -/
theorem drop_seventeen_keyBytes_append (k : SlUint128) (content : Bytes) :
    (keyBytes k ++ content).drop 17 = content.drop 1 := by
  rw [List.drop_append, List.drop_eq_nil_of_le (by simp), List.nil_append, length_keyBytes]

theorem rawOf_wf {node : SlUint128 × Bytes} (h : Readable node.2) : (rawOf node).Wf := by
  obtain ⟨h5, hlen⟩ := h
  have hraw : (rawOf node).rawData.length = 21 + contentLen node.2 := by
    simp only [rawOf, List.length_append, length_keyBytes, List.length_take]
    omega
  refine ⟨by omega, keyOfBytes_keyBytes_append _ _, ?_⟩
  have hbody : (((rawOf node).rawData).drop 17).take 4 = (node.2.drop 1).take 4 := by
    rw [rawOf, drop_seventeen_keyBytes_append, List.drop_take, List.take_take]
    congr 1
    omega
  rw [hbody, hraw, contentLen]
  omega

theorem totalSize_rawOf {node : SlUint128 × Bytes} (h : Readable node.2) :
    (rawOf node).totalSize = 21 + contentLen node.2 := by
  have hlen := h.2
  simp only [KvRawRecord.totalSize, rawOf, List.length_append, length_keyBytes, List.length_take]
  omega

theorem rawOf_rawData_of_encoded {node : SlUint128 × Bytes} (h : Encoded node.2) :
    (rawOf node).rawData = keyBytes node.1 ++ node.2 := by
  rw [rawOf, ← h.2, List.take_length]

theorem rawOf_rawData_of_selfConsistent {node : SlUint128 × Bytes} (h : SelfConsistent node.2) :
    (rawOf node).rawData = keyBytes node.1 ++ node.2 := rawOf_rawData_of_encoded h.1

/-- `buf_size` of `memtable_to_disk`; `RECORD_HEADER_SIZE` and the length are added in 32 bits. -/
def bufSize (content : Bytes) : Nat := (21 + contentLen content) % 2 ^ 32

/-- The stored buffer has a length word, and the copy of `buf_size - 16` bytes out of it is one of a
size that is not negative and stays inside it. -/
def Copyable (content : Bytes) : Prop :=
  5 ≤ content.length ∧ 16 ≤ bufSize content ∧ bufSize content - 16 ≤ content.length

instance (content : Bytes) : Decidable (Copyable content) :=
  inferInstanceAs (Decidable (_ ∧ _))

/-- What `memtable_to_disk` writes for a node. -/
def dumpOf (node : SlUint128 × Bytes) : KvRawRecord :=
  ⟨node.1, keyBytes node.1 ++ node.2.take (bufSize node.2 - 16)⟩

/-- The length word is so long that the sum wraps around and leaves no more than the key and four
bytes. -/
def CutShort (content : Bytes) : Prop := 2 ^ 32 - 5 ≤ contentLen content

instance (content : Bytes) : Decidable (CutShort content) :=
  inferInstanceAs (Decidable (_ ≤ _))

theorem contentLen_lt (content : Bytes) : contentLen content < 2 ^ 32 := by
  have htake : ((content.drop 1).take 4).length ≤ 4 := List.length_take_le _ _
  calc contentLen content < 256 ^ ((content.drop 1).take 4).length := leNat_lt _
    _ ≤ 256 ^ 4 := Nat.pow_le_pow_right (by decide) htake
    _ = 2 ^ 32 := by decide

/-- What is copied is the record that a scan hands out, or it is cut short. -/
theorem copyable_iff {content : Bytes} (hcut : ¬ CutShort content) :
    Copyable content ↔ Readable content ∧ 21 + contentLen content < 2 ^ 32 := by
  have hlt := contentLen_lt content
  unfold CutShort at hcut
  unfold Copyable Readable bufSize
  by_cases hwraps : 21 + contentLen content < 2 ^ 32
  · rw [Nat.mod_eq_of_lt hwraps]
    omega
  · -- the sum wraps around to less than the key
    have hsmall : (21 + contentLen content) % 2 ^ 32 < 16 := by omega
    omega

theorem copyable_of_readable {content : Bytes}
    (h : Readable content ∧ 21 + contentLen content < 2 ^ 32) : Copyable content := by
  refine (copyable_iff ?_).mpr h
  have hlt := h.2
  unfold CutShort
  omega

theorem dumpOf_eq_rawOf {node : SlUint128 × Bytes} (h : 21 + contentLen node.2 < 2 ^ 32) :
    dumpOf node = rawOf node := by
  have hsize : bufSize node.2 - 16 = 5 + contentLen node.2 := by
    rw [bufSize, Nat.mod_eq_of_lt h]
    omega
  rw [dumpOf, hsize, rawOf]

theorem SelfConsistent.not_cutShort {content : Bytes} (h : SelfConsistent content) :
    ¬ CutShort content := by
  have hlt := h.2
  unfold CutShort
  omega

/-! ## Concatenated records -/

/-- The bytes of a file that holds these records one after the other. -/
def fileBytes (rs : List KvRawRecord) : Bytes := rs.flatMap KvRawRecord.rawData

@[simp]
theorem fileBytes_nil : fileBytes [] = [] := rfl

@[simp]
theorem fileBytes_cons (r : KvRawRecord) (rs : List KvRawRecord) :
    fileBytes (r :: rs) = r.rawData ++ fileBytes rs := rfl

@[simp]
theorem fileBytes_append (rs ss : List KvRawRecord) :
    fileBytes (rs ++ ss) = fileBytes rs ++ fileBytes ss := List.flatMap_append

theorem length_le_length_fileBytes {rs : List KvRawRecord} (h : ∀ r ∈ rs, r.Wf) :
    rs.length ≤ (fileBytes rs).length := by
  induction rs with
  | nil => simp
  | cons r rs ih =>
    have hr := (h r List.mem_cons_self).header_le
    have htail := ih fun s hs => h s (List.mem_cons_of_mem r hs)
    simp only [List.length_cons, fileBytes_cons, List.length_append]
    omega

end RaftLsmt.Lsmt
