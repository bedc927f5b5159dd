import RaftLsmt.Lib.FileReplace
import RaftLsmt.Lib.FixedWidth
import RaftLsmt.Lib.TerminatedString
import RaftLsmt.Lsmt.Key

/-!
# What is written to `.lsmt_metadata`

`sst_metadata_write_records` writes the version, the highest tier and 568 bytes for each record, in
the order of the list. There is no count and no checksum, so every string of a fitting length is such
a file, and a file cut behind a record is one, too (`metadata_file_format`): whether a list is
complete cannot be told from the file, and hangs on how it is replaced.

It is written to `temp_path` and renamed. `temp_path` is cut to 255 characters, and so there is one
length of the directory's path for which it is the path of the file itself
(`metadata_replaced_iff`).
-/

set_option autoImplicit false

namespace RaftLsmt.Lsmt

open RaftLsmt.Lib
open RaftLsmt.Lib.ByteCodec
open RaftLsmt.Lib.FileReplace
open RaftLsmt.Lib.StepMachine
open RaftLsmt.Lib.TerminatedString

/-! ## The format -/

/-- `char name[n]`. -/
structure CharArray (n : Nat) where
  bytes : Bytes
  length_eq : bytes.length = n

/-- The fields of `sst_metadata_record_t` that are written. -/
structure DiskRecord where
  sstableFilename : CharArray 256
  sstIndexFilename : CharArray 256
  id : UInt32
  level : UInt32
  createdAt : UInt64
  totalBytes : UInt64
  minKey : SlUint128
  maxKey : SlUint128

/-- The arguments of `sst_metadata_write_records`. -/
structure DiskMetadata where
  version : UInt8
  highestTier : UInt8
  records : List DiskRecord

/-- `buf` when it is written. -/
def recordBytes (r : DiskRecord) : Bytes :=
  r.sstableFilename.bytes ++ (r.sstIndexFilename.bytes ++ (leBytes 4 r.id.toNat ++
    (leBytes 4 r.level.toNat ++ (leBytes 8 r.createdAt.toNat ++ (leBytes 8 r.totalBytes.toNat ++
      (keyBytes r.minKey ++ keyBytes r.maxKey))))))

/-- What `sst_metadata_write_records` writes. -/
def metadataBytes (m : DiskMetadata) : Bytes :=
  [m.version, m.highestTier] ++ m.records.flatMap recordBytes

/-! ### The formats of the fields -/

def charArrayFormat (n : Nat) : FixedWidth UInt8 (CharArray n) where
  width := n
  encode := CharArray.bytes
  length_encode := CharArray.length_eq
  injective a b h := by
    cases a
    cases b
    cases h
    rfl
  surjective bs h := ⟨⟨bs, h⟩, rfl⟩

def uint32Format : FixedWidth UInt8 UInt32 where
  width := 4
  encode x := leBytes 4 x.toNat
  length_encode x := length_leBytes 4 x.toNat
  injective x y h := by
    have hx := x.toNat_lt
    have hy := y.toNat_lt
    have hnat : leNat (leBytes 4 x.toNat) = leNat (leBytes 4 y.toNat) := congrArg leNat h
    rw [leNat_leBytes (by omega), leNat_leBytes (by omega)] at hnat
    exact UInt32.toNat_inj.mp hnat
  surjective bs h := by
    have hlt := leNat_lt bs
    rw [h] at hlt
    refine ⟨UInt32.ofNat (leNat bs), ?_⟩
    show leBytes 4 (UInt32.ofNat (leNat bs)).toNat = bs
    rw [UInt32.toNat_ofNat_of_lt' hlt, ← h]
    exact leBytes_leNat bs

def uint64Format : FixedWidth UInt8 UInt64 where
  width := 8
  encode x := leBytes 8 x.toNat
  length_encode x := length_leBytes 8 x.toNat
  injective x y h := by
    have hx := x.toNat_lt
    have hy := y.toNat_lt
    have hnat : leNat (leBytes 8 x.toNat) = leNat (leBytes 8 y.toNat) := congrArg leNat h
    rw [leNat_leBytes (by omega), leNat_leBytes (by omega)] at hnat
    exact UInt64.toNat_inj.mp hnat
  surjective bs h := by
    have hlt := leNat_lt bs
    rw [h] at hlt
    refine ⟨UInt64.ofNat (leNat bs), ?_⟩
    show leBytes 8 (UInt64.ofNat (leNat bs)).toNat = bs
    rw [UInt64.toNat_ofNat_of_lt' hlt, ← h]
    exact leBytes_leNat bs

def keyFormat : FixedWidth UInt8 SlUint128 :=
  (uint64Format.pair uint64Format).comap {
    toFun k := (k.id, k.timestamp)
    invFun p := ⟨p.1, p.2⟩
    left_inv _ := rfl
    right_inv _ := rfl }

/-- The fields of a record in the order in which they are written. -/
def recordFormat : FixedWidth UInt8 DiskRecord :=
  ((charArrayFormat 256).pair ((charArrayFormat 256).pair (uint32Format.pair (uint32Format.pair
    (uint64Format.pair (uint64Format.pair (keyFormat.pair keyFormat))))))).comap {
      toFun := fun r => (r.sstableFilename, r.sstIndexFilename, r.id, r.level, r.createdAt,
        r.totalBytes, r.minKey, r.maxKey)
      invFun := fun (sst, index, id, level, createdAt, totalBytes, minKey, maxKey) =>
        ⟨sst, index, id, level, createdAt, totalBytes, minKey, maxKey⟩
      left_inv := fun _ => rfl
      right_inv := fun _ => rfl }

theorem recordFormat_encode : recordFormat.encode = recordBytes := rfl

theorem recordFormat_width : recordFormat.width = 568 := rfl

theorem metadataBytes_injective : Function.Injective metadataBytes := by
  intro m n h
  obtain ⟨hhead, hrecords⟩ := List.append_inj h rfl
  rw [← recordFormat_encode] at hrecords
  have hwidth : 0 < recordFormat.width := by
    rw [recordFormat_width]
    omega
  have hsame : m.records = n.records := recordFormat.flatMap_injective hwidth hrecords
  cases m
  cases n
  cases hsame
  cases hhead
  rfl

theorem length_metadataBytes (m : DiskMetadata) :
    (metadataBytes m).length = 2 + 568 * m.records.length := by
  rw [metadataBytes, List.length_append, ← recordFormat_encode, recordFormat.length_flatMap,
    recordFormat_width]
  rfl

theorem exists_metadataBytes_eq {n : Nat} {bs : Bytes} (h : bs.length = 2 + 568 * n) :
    ∃ m, metadataBytes m = bs := by
  match bs, h with
  | [], h =>
    rw [List.length_nil] at h
    omega
  | [_], h =>
    rw [List.length_singleton] at h
    omega
  | version :: highestTier :: rest, h =>
    have hrest : rest.length = recordFormat.width * n := by
      rw [recordFormat_width]
      simp only [List.length_cons] at h
      omega
    obtain ⟨records, hrecords⟩ := recordFormat.exists_flatMap_eq hrest
    refine ⟨⟨version, highestTier, records⟩, ?_⟩
    rw [metadataBytes, ← recordFormat_encode, hrecords]
    rfl

/-- A string is what `sst_metadata_write_records` writes for some list, and then for one list only,
exactly when its length is two and a multiple of 568; and what is left of a file that is cut behind
a record is what it writes for the records before. -/
theorem metadata_file_format :
    (∀ bs : Bytes, (∃! m, metadataBytes m = bs) ↔ ∃ n, bs.length = 2 + 568 * n) ∧
    ∀ (m : DiskMetadata) (k : Nat),
      (metadataBytes m).take (2 + 568 * k) =
        metadataBytes { m with records := m.records.take k } := by
  refine ⟨fun bs => ⟨?_, ?_⟩, fun m k => ?_⟩
  · rintro ⟨m, rfl, -⟩
    exact ⟨m.records.length, length_metadataBytes m⟩
  · rintro ⟨n, hn⟩
    obtain ⟨m, hm⟩ := exists_metadataBytes_eq hn
    exact ⟨m, hm, fun m' hm' => metadataBytes_injective (hm'.trans hm.symm)⟩
  · have hhead : ([m.version, m.highestTier] : Bytes).length = 2 := rfl
    show ([m.version, m.highestTier] ++ m.records.flatMap recordBytes).take (2 + 568 * k) =
      [m.version, m.highestTier] ++ (m.records.take k).flatMap recordBytes
    rw [← hhead, List.take_length_add_append, ← recordFormat_encode, recordFormat.flatMap_take,
      recordFormat_width]

/-! ## The paths -/

/-- `/.lsmt_metadata`. -/
def metadataName : CString := ⟨"/.lsmt_metadata".toList, by decide⟩

/-- `.tmp`. -/
def tmpExt : CString := ⟨".tmp".toList, by decide⟩

/-- `disk_path`, set by `sst_metadata_init`. -/
def diskPath (path : CString) : CString := CString.snprintf 512 (path ++ metadataName)

/-- `temp_path` of `sst_metadata_write_records`. -/
def tempPath (diskPath : CString) : CString := CString.snprintf 256 (diskPath ++ tmpExt)

theorem tempPath_eq_iff (disk : CString) : tempPath disk = disk ↔ disk.length = 255 := by
  have htmp : tmpExt.length = 4 := rfl
  constructor
  · intro h
    have hlength := congrArg CString.length h
    rw [tempPath, CString.snprintf, CString.length_take, CString.length_append, htmp] at hlength
    omega
  · intro h
    apply CString.ext
    show (disk.chars ++ tmpExt.chars).take (256 - 1) = disk.chars
    exact List.take_left' h

theorem tempPath_ne_iff (path : CString) :
    tempPath (diskPath path) ≠ diskPath path ↔ path.length ≠ 240 := by
  have hname : metadataName.length = 15 := rfl
  rw [Ne, tempPath_eq_iff, diskPath, CString.snprintf, CString.length_take, CString.length_append,
    hname]
  omega

/-! ## Replacing the file -/

/-- At every moment of every run the file under `target` holds the content that was renamed into its
place last, and behind a power failure the one that was in its place at some earlier moment. -/
def ReplacedAsAWhole (temp target : CString) : Prop :=
  ∀ (disk : Disk CString UInt8), Replacing.Settled temp target disk →
    ∀ (as bs : List (WriteAction UInt8)) (t s : Replacing CString UInt8) (after : Disk CString UInt8),
      run (Replacing.step temp target) (Replacing.init target disk) as = some t →
      run (Replacing.step temp target) t bs = some s →
      Disk.PowerFailure s.disk t.disk after →
      s.disk.read target = s.current ∧ after.read target = t.current

/-- An empty disk. -/
def emptyDisk : Disk CString UInt8 where
  dir := fun _ => none
  data := fun _ => []
  synced := fun _ => false
  next := 0

/-- A write that opens the file itself leaves it empty. -/
theorem not_replacedAsAWhole (target : CString) : ¬ ReplacedAsAWhole target target := by
  intro h
  have hsettled : Replacing.Settled target target emptyDisk := ⟨nofun, nofun, nofun⟩
  have hread : ((emptyDisk.openWrite target).2).read target = none :=
    (h emptyDisk hsettled [.start [1]] [] _ _ _ rfl rfl ⟨rfl, fun _ _ => rfl⟩).1
  have hopened : ((emptyDisk.openWrite target).2).read target = some [] := by
    show (Function.update emptyDisk.dir target (some 0) target).map
      (Function.update emptyDisk.data 0 []) = some []
    rw [Function.update_self, Option.map_some, Function.update_self]
  rw [hopened] at hread
  cases hread

theorem replacedAsAWhole {temp target : CString} (hne : temp ≠ target) :
    ReplacedAsAWhole temp target := by
  intro disk hsettled as bs t s after hbefore hrun hfail
  have ht : t.Inv temp target := (Replacing.inv_init hsettled).run hne hbefore
  have hs : s.Inv temp target := ht.run hne hrun
  exact ⟨hs.read_eq,
    Replacing.read_of_powerFailure hs ht (Replacing.run_committed hrun) hfail⟩

/-- `.lsmt_metadata` is replaced as a whole, in every run of `sst_metadata_write_records` that may be
cut off anywhere, exactly when the path of the directory does not have 240 characters. -/
theorem metadata_replaced_iff (path : CString) :
    ReplacedAsAWhole (tempPath (diskPath path)) (diskPath path) ↔ path.length ≠ 240 := by
  rw [← tempPath_ne_iff]
  constructor
  · intro h heq
    rw [heq] at h
    exact not_replacedAsAWhole _ h
  · exact replacedAsAWhole

end RaftLsmt.Lsmt
