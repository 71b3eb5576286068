/-
# The keys of the database

`ssdb-master/src/ssdb/const.h`, `t_kv.h`, `t_hash.h`, `t_zset.h`, `t_queue.h` and `binlog.cpp`:
how the containers of the server are laid out in the one ordered key space of LevelDB, and the
`Decoder` that reads keys back.

The first byte tells the data type.  Names and keys that are followed by something are written
behind one byte with their length, which is cut off at 8 bits: for names of more than 255
bytes a decoder does not return what was encoded.
-/
import DoudizhuBackend.Ssdb.Bytes

namespace Ssdb

/-! ## Data types -/

namespace DataType

/-- The entries of the log. -/
def SYNCLOG : Byte := 1
/-- Key-value pairs. -/
def KV : Byte := chr 'k'
/-- The fields of hashes. -/
def HASH : Byte := chr 'h'
/-- The sizes of hashes. -/
def HSIZE : Byte := chr 'H'
/-- The scores of members. -/
def ZSET : Byte := chr 's'
/-- The members by score. -/
def ZSCORE : Byte := chr 'z'
/-- The sizes of sorted sets. -/
def ZSIZE : Byte := chr 'Z'
/-- The items of queues, and the two ends. -/
def QUEUE : Byte := chr 'q'
/-- The sizes of queues. -/
def QSIZE : Byte := chr 'Q'

end DataType

/-- `SSDB_KEY_LEN_MAX`. -/
def keyLenMax : ℕ := 255

/-- `(uint8_t)s.size()`. -/
def lenByte (s : Bytes) : Byte := Fin.ofNat 256 s.length

/-- The byte between name and key in the records of hashes. -/
def equalSign : Byte := chr '='

/-- The length of the names and keys of members. -/
def IsShort (s : Bytes) : Prop := s.length ≤ 255

/-! ## Encoding -/

/-- `encode_kv_key`. -/
def encodeKvKey (key : Bytes) : Bytes := DataType.KV :: key

/-- `encode_hsize_key`. -/
def encodeHsizeKey (name : Bytes) : Bytes := DataType.HSIZE :: name

/-- `encode_hash_key`. -/
def encodeHashKey (name key : Bytes) : Bytes :=
  DataType.HASH :: lenByte name :: (name ++ equalSign :: key)

/-- `encode_zsize_key`. -/
def encodeZsizeKey (name : Bytes) : Bytes := DataType.ZSIZE :: name

/-- `encode_zset_key`. -/
def encodeZsetKey (name key : Bytes) : Bytes :=
  DataType.ZSET :: lenByte name :: (name ++ lenByte key :: key)

/-- The sign and the 8 bytes of a score: `big_endian` of its two's complement. -/
def encodeScore (s : ℤ) : Bytes :=
  (if s < 0 then chr '-' else equalSign) :: bigEndian (s % 2 ^ 64).toNat

/-- `encode_zscore_key`; the score is the decimal text. -/
def encodeZscoreKey (name key score : Bytes) : Bytes :=
  DataType.ZSCORE :: lenByte name :: (name ++ encodeScore (strtoll score) ++ equalSign :: key)

/-- `encode_qsize_key`. -/
def encodeQsizeKey (name : Bytes) : Bytes := DataType.QSIZE :: name

/-- `encode_qitem_key`. -/
def encodeQitemKey (name : Bytes) (seq : ℕ) : Bytes :=
  DataType.QUEUE :: lenByte name :: (name ++ bigEndian seq)

/-- `encode_seq_key`. -/
def encodeSeqKey (seq : ℕ) : Bytes := DataType.SYNCLOG :: bigEndian seq

/-! ## Decoding -/

/-- `Decoder::skip(1)`. -/
def skip1 : Bytes → Option Bytes
  | [] => none
  | _ :: t => some t

/-- `Decoder::read_8_data`: the data and what is left. -/
def read8Data : Bytes → Option (Bytes × Bytes)
  | [] => none
  | n :: t => if t.length < n.val then none else some (t.take n.val, t.drop n.val)

/-- `Decoder::read_uint64` followed by `big_endian`. -/
def readUint64 (s : Bytes) : Option (ℕ × Bytes) :=
  if s.length < 8 then none else some (ofBigEndian (s.take 8), s.drop 8)

/-- The `decode_*` functions of keys that are a type and a name. -/
def decodeNameKey (s : Bytes) : Option Bytes := skip1 s

/-- `decode_hash_key`. -/
def decodeHashKey (s : Bytes) : Option (Bytes × Bytes) := do
  let s ← skip1 s
  let (name, s) ← read8Data s
  let key ← skip1 s
  return (name, key)

/-- `decode_zset_key`. -/
def decodeZsetKey (s : Bytes) : Option (Bytes × Bytes) := do
  let s ← skip1 s
  let (name, s) ← read8Data s
  let (key, _) ← read8Data s
  return (name, key)

/-- `decode_zscore_key`: name, key and the text of the score. -/
def decodeZscoreKey (s : Bytes) : Option (Bytes × Bytes × Bytes) := do
  let s ← skip1 s
  let (name, s) ← read8Data s
  let s ← skip1 s
  let (n, s) ← readUint64 s
  let key ← skip1 s
  return (name, key, str ((n : ℤ).bmod (2 ^ 64)))

/-- `decode_qitem_key`. -/
def decodeQitemKey (s : Bytes) : Option (Bytes × ℕ) := do
  let s ← skip1 s
  let (name, s) ← read8Data s
  let (seq, _) ← readUint64 s
  return (name, seq)

/-- `decode_seq_key`: 0 for a key that is not one of the binlog. -/
def decodeSeqKey (s : Bytes) : ℕ :=
  if s.length = 9 ∧ s.head? = some DataType.SYNCLOG then ofBigEndian s.tail else 0

/-! ## What is encoded is decoded -/

/-- A length up to 255 is its byte. -/
theorem lenByte_val {s : Bytes} (h : s.length ≤ 255) : (lenByte s).val = s.length := by
  show s.length % 256 = s.length
  omega

/-- Lengths that differ by a multiple of 256 have the same byte. -/
theorem lenByte_eq_iff (s t : Bytes) : lenByte s = lenByte t ↔ s.length % 256 = t.length % 256 := by
  rw [Fin.ext_iff]
  rfl

/-- A string behind its length byte is read back. -/
theorem read8Data_lenByte {s : Bytes} (h : s.length ≤ 255) (t : Bytes) :
    read8Data (lenByte s :: (s ++ t)) = some (s, t) := by
  rw [read8Data, lenByte_val h, if_neg (by simp), List.take_left, List.drop_left]

/-- Eight bytes are read back as the number they came from. -/
theorem readUint64_bigEndian {n : ℕ} (h : n < 2 ^ 64) (t : Bytes) :
    readUint64 (bigEndian n ++ t) = some (n, t) := by
  have htake : (bigEndian n ++ t).take 8 = bigEndian n := by
    rw [← length_bigEndian n, List.take_left]
  have hdrop : (bigEndian n ++ t).drop 8 = t := by
    rw [← length_bigEndian n, List.drop_left]
  rw [readUint64, if_neg (by simp), htake, hdrop, ofBigEndian_bigEndian h]

/-- The key of a field is decoded. -/
theorem decodeHashKey_encode {name : Bytes} (h : name.length ≤ 255) (key : Bytes) :
    decodeHashKey (encodeHashKey name key) = some (name, key) := by
  simp [decodeHashKey, encodeHashKey, skip1, read8Data_lenByte h]

/-- The key of a member is decoded. -/
theorem decodeZsetKey_encode {name key : Bytes} (h : name.length ≤ 255) (hk : key.length ≤ 255) :
    decodeZsetKey (encodeZsetKey name key) = some (name, key) := by
  have hkey : read8Data (lenByte key :: key) = some (key, []) := by
    have := read8Data_lenByte hk []
    rwa [List.append_nil] at this
  simp [decodeZsetKey, encodeZsetKey, skip1, read8Data_lenByte h, hkey]

/-- A number modulo `2^64` fits eight bytes. -/
theorem emod_toNat_lt (s : ℤ) : (s % 2 ^ 64).toNat < 2 ^ 64 := by
  have := Int.emod_lt_of_pos s (show (0 : ℤ) < 2 ^ 64 by decide)
  omega

/-- A score is read back from its image. -/
theorem bmod_emod {s : ℤ} (h : IsInt64 s) : (((s % 2 ^ 64).toNat : ℕ) : ℤ).bmod (2 ^ 64) = s := by
  obtain ⟨hlow, hhigh⟩ := h
  rw [Int.toNat_of_nonneg (Int.emod_nonneg s (by decide))]
  have hmod : (s % 2 ^ 64).bmod (2 ^ 64) = s.bmod (2 ^ 64) := Int.emod_bmod s (2 ^ 64)
  rw [hmod]
  exact Int.bmod_eq_of_le_mul_two (by omega) (by omega)

/-- The key of a member by score is decoded, and its score is printed as a number. -/
theorem decodeZscoreKey_encode {name : Bytes} (h : name.length ≤ 255) (key score : Bytes) :
    decodeZscoreKey (encodeZscoreKey name key score) = some (name, key, str (strtoll score)) := by
  simp only [decodeZscoreKey, encodeZscoreKey, encodeScore, skip1, List.append_assoc,
    List.cons_append, Option.bind_eq_bind, Option.bind_some, read8Data_lenByte h,
    readUint64_bigEndian (emod_toNat_lt _), bmod_emod (isInt64_strtoll score)]
  rfl

/-- The key of an item is decoded. -/
theorem decodeQitemKey_encode {name : Bytes} (h : name.length ≤ 255) {seq : ℕ} (hs : seq < 2 ^ 64) :
    decodeQitemKey (encodeQitemKey name seq) = some (name, seq) := by
  have hseq : readUint64 (bigEndian seq) = some (seq, []) := by
    have := readUint64_bigEndian hs []
    rwa [List.append_nil] at this
  simp [decodeQitemKey, encodeQitemKey, skip1, read8Data_lenByte h, hseq]

/-- The key of a log entry is decoded. -/
theorem decodeSeqKey_encode {seq : ℕ} (h : seq < 2 ^ 64) : decodeSeqKey (encodeSeqKey seq) = seq := by
  rw [decodeSeqKey, if_pos (by simp [encodeSeqKey])]
  exact ofBigEndian_bigEndian h

/-- Two entries do not share a key. -/
theorem encodeSeqKey_inj {m n : ℕ} (hm : m < 2 ^ 64) (hn : n < 2 ^ 64)
    (h : encodeSeqKey m = encodeSeqKey n) : m = n :=
  bigEndian_inj hm hn (List.cons.inj h).2

/-- The keys of the entries are in the order of their numbers. -/
theorem encodeSeqKey_lt {m n : ℕ} (h : m < n) (hn : n < 2 ^ 64) : encodeSeqKey m < encodeSeqKey n := by
  rw [encodeSeqKey, encodeSeqKey, List.cons_lt_cons_iff]
  exact Or.inr ⟨rfl, bigEndian_lt h hn⟩

/-- The key of a queue item tells the name and the number even for long names: they are what
stands between the first two and the last eight bytes. -/
theorem encodeQitemKey_inj {name name' : Bytes} {m n : ℕ} (hm : m < 2 ^ 64) (hn : n < 2 ^ 64)
    (h : encodeQitemKey name m = encodeQitemKey name' n) : name = name' ∧ m = n := by
  simp only [encodeQitemKey, List.cons.injEq, true_and] at h
  obtain ⟨hname, hseq⟩ := List.append_inj' h.2 (by simp)
  exact ⟨hname, bigEndian_inj hm hn hseq⟩

end Ssdb
