import PagerDB.Basic
import PagerDB.Lib.LittleEndian

/-! `wal.log` byte by byte: the encoding of one record, `LogReader::ReadAll` over the raw
file and the `LogWriter` that appends to it. LSNs and ids have the widths of the source;
the lengths of a record's fields are bounded by a page, so that their 16-bit length fields
hold them and the before-image never reaches the sentinel 0xFFFF. -/
namespace PagerDB.Wire

open LittleEndian (encode field field_lt layout field_layout)

/- CRC-32, one byte at a time; the sliced and the hardware loops compute the same function. -/

def crc32Round (crc : UInt32) : UInt32 :=
  if crc &&& 1 = 1 then (crc >>> 1) ^^^ 0xEDB88320 else crc >>> 1

/-- The entry of `kCrc32Tables[0]` for one byte. -/
def crc32Entry (i : UInt32) : UInt32 := Nat.iterate crc32Round 8 i

def crc32Update (crc : UInt32) (bytes : Bytes) : UInt32 :=
  bytes.foldl (fun c b => crc32Entry ((c ^^^ UInt32.ofNat b.val) &&& 0xFF) ^^^ (c >>> 8)) crc

def crc32 (bytes : Bytes) : UInt32 := crc32Update 0xFFFFFFFF bytes ^^^ 0xFFFFFFFF

/- Records. -/

inductive LogRecordType where
  | put | delete | allocPage | freePage | rootChange | checkpoint | pageImage | begin | commit
  | abort
  deriving DecidableEq

def LogRecordType.code : LogRecordType → Nat
  | put => 1 | delete => 2 | allocPage => 3 | freePage => 4 | rootChange => 5 | checkpoint => 6
  | pageImage => 7 | begin => 8 | commit => 9 | abort => 10

/-- `none` is a garbage type byte. -/
def LogRecordType.ofCode : Nat → Option LogRecordType
  | 1 => some put | 2 => some delete | 3 => some allocPage | 4 => some freePage
  | 5 => some rootChange | 6 => some checkpoint | 7 => some pageImage | 8 => some begin
  | 9 => some commit | 10 => some abort | _ => none

theorem LogRecordType.ofCode_code (t : LogRecordType) : ofCode t.code = some t := by
  cases t <;> rfl

theorem LogRecordType.code_of_ofCode {n : Nat} {t : LogRecordType} (is : ofCode n = some t) : t.code = n := by
  unfold ofCode at is
  split at is <;> cases is <;> rfl

theorem LogRecordType.code_lt (t : LogRecordType) : t.code < 128 := by
  cases t <;> decide

def kHeaderSize : Nat := 27
def kCrcSize : Nat := 4
def kBeforeAbsent : Nat := 0xFFFF
def kOpEndBit : Nat := 0x80

structure LogRecord where
  lsn : UInt64
  txid : UInt64
  type : LogRecordType
  pageId : UInt32
  opEnd : Bool
  key : Bytes
  value : Bytes
  before : Option Bytes
  keyFits : key.length < 256 ^ 2
  valueFits : value.length < 256 ^ 2
  beforeFits : ∀ b ∈ before, b.length < kBeforeAbsent
  deriving DecidableEq

namespace LogRecord

def beforeBytes (r : LogRecord) : Bytes := r.before.getD []

def serializedSize (r : LogRecord) : Nat :=
  kHeaderSize + r.key.length + r.value.length + r.beforeBytes.length + kCrcSize

def typeByte (r : LogRecord) : Nat := r.type.code + if r.opEnd then kOpEndBit else 0

def beforeLen (r : LogRecord) : Nat :=
  match r.before with
  | some b => b.length
  | none => kBeforeAbsent

def header (r : LogRecord) : Bytes :=
  layout [(8, r.lsn.toNat), (8, r.txid.toNat), (1, r.typeByte), (4, r.pageId.toNat),
    (2, r.key.length), (2, r.value.length), (2, r.beforeLen)]

def payload (r : LogRecord) : Bytes := r.key ++ (r.value ++ r.beforeBytes)

def serialize (r : LogRecord) : Bytes :=
  r.header ++ (r.payload ++ encode 4 (crc32 (r.header ++ r.payload)).toNat)

theorem take_fits (offset : Nat) (lengthField : Nat) (buffer : Bytes) :
    ((buffer.drop offset).take (field lengthField 2 buffer)).length < 256 ^ 2 :=
  lt_of_le_of_lt (List.length_take_le _ _) (field_lt lengthField 2 buffer)

theorem before_fits (offset : Nat) (buffer : Bytes) :
    ∀ b ∈ (if field 25 2 buffer = kBeforeAbsent then none
      else some ((buffer.drop offset).take (field 25 2 buffer)) : Option Bytes),
      b.length < kBeforeAbsent := by
  intro b mem
  split at mem
  · cases mem
  · rename_i present
    obtain rfl := Option.some.inj mem
    have bound := field_lt 25 2 buffer
    have short := List.length_take_le (field 25 2 buffer) (buffer.drop offset)
    simp only [kBeforeAbsent] at present ⊢
    omega

def parse (buffer : Bytes) : Option (LogRecord × Nat) :=
  if buffer.length < kHeaderSize + kCrcSize then none
  else
    let rawTypeByte := field 16 1 buffer
    let keyLen := field 21 2 buffer
    let valLen := field 23 2 buffer
    let beforeLen := field 25 2 buffer
    match LogRecordType.ofCode (rawTypeByte % kOpEndBit) with
    | none => none
    | some type =>
      let beforeBytes := if beforeLen = kBeforeAbsent then 0 else beforeLen
      let total := kHeaderSize + keyLen + valLen + beforeBytes + kCrcSize
      if buffer.length < total then none
      else if (crc32 (buffer.take (total - kCrcSize))).toNat ≠ field (total - kCrcSize) 4 buffer
        then none
      else some (
        { lsn := UInt64.ofNat (field 0 8 buffer)
          txid := UInt64.ofNat (field 8 8 buffer)
          type
          pageId := UInt32.ofNat (field 17 4 buffer)
          opEnd := kOpEndBit ≤ rawTypeByte
          key := (buffer.drop kHeaderSize).take keyLen
          value := (buffer.drop (kHeaderSize + keyLen)).take valLen
          before := if beforeLen = kBeforeAbsent then none
            else some ((buffer.drop (kHeaderSize + keyLen + valLen)).take beforeLen)
          keyFits := take_fits _ 21 buffer
          valueFits := take_fits _ 23 buffer
          beforeFits := before_fits _ buffer }, total)

/- What the fields of a record read back as, whatever follows its header. -/

theorem length_header (r : LogRecord) : r.header.length = kHeaderSize := by
  rw [header, LittleEndian.length_layout]
  rfl

theorem length_payload (r : LogRecord) :
    r.payload.length = r.key.length + r.value.length + r.beforeBytes.length := by
  simp [payload, Nat.add_assoc]

theorem length_serialize (r : LogRecord) : r.serialize.length = r.serializedSize := by
  simp [serialize, length_header, length_payload, serializedSize, kCrcSize]
  omega

theorem typeByte_lt (r : LogRecord) : r.typeByte < 256 := by
  have code := r.type.code_lt
  unfold typeByte kOpEndBit
  split <;> omega

theorem typeByte_mod (r : LogRecord) : r.typeByte % kOpEndBit = r.type.code := by
  have code := r.type.code_lt
  unfold typeByte kOpEndBit
  split <;> omega

theorem opEnd_typeByte (r : LogRecord) : decide (kOpEndBit ≤ r.typeByte) = r.opEnd := by
  have code := r.type.code_lt
  unfold typeByte kOpEndBit
  cases r.opEnd
  · simp
    omega
  · simp

theorem beforeLen_lt (r : LogRecord) : r.beforeLen < 256 ^ 2 := by
  have fits := r.beforeFits
  unfold beforeLen kBeforeAbsent at *
  cases eq : r.before with
  | none => decide
  | some b => exact lt_trans (fits b (by rw [eq]; rfl)) (by decide)

theorem beforeLen_eq_absent (r : LogRecord) : r.beforeLen = kBeforeAbsent ↔ r.before = none := by
  have fits := r.beforeFits
  unfold beforeLen
  cases eq : r.before with
  | none => simp
  | some b =>
    have short := fits b (by rw [eq]; rfl)
    simp only [reduceCtorEq, iff_false]
    exact ne_of_lt short

section Fields

variable (r : LogRecord) (rest : Bytes)

theorem field_lsn : field 0 8 (r.header ++ rest) = r.lsn.toNat :=
  (field_layout [] 8 _ _ rest).trans (Nat.mod_eq_of_lt r.lsn.toNat_lt)

theorem field_txid : field 8 8 (r.header ++ rest) = r.txid.toNat :=
  (field_layout [(8, _)] 8 _ _ rest).trans (Nat.mod_eq_of_lt r.txid.toNat_lt)

theorem field_typeByte : field 16 1 (r.header ++ rest) = r.typeByte :=
  (field_layout [(8, _), (8, _)] 1 _ _ rest).trans (Nat.mod_eq_of_lt r.typeByte_lt)

theorem field_pageId : field 17 4 (r.header ++ rest) = r.pageId.toNat :=
  (field_layout [(8, _), (8, _), (1, _)] 4 _ _ rest).trans (Nat.mod_eq_of_lt r.pageId.toNat_lt)

theorem field_keyLen : field 21 2 (r.header ++ rest) = r.key.length :=
  (field_layout [(8, _), (8, _), (1, _), (4, _)] 2 _ _ rest).trans
    (Nat.mod_eq_of_lt r.keyFits)

theorem field_valLen : field 23 2 (r.header ++ rest) = r.value.length :=
  (field_layout [(8, _), (8, _), (1, _), (4, _), (2, _)] 2 _ _ rest).trans
    (Nat.mod_eq_of_lt r.valueFits)

theorem field_beforeLen : field 25 2 (r.header ++ rest) = r.beforeLen :=
  (field_layout [(8, _), (8, _), (1, _), (4, _), (2, _), (2, _)] 2 _ _ rest).trans
    (Nat.mod_eq_of_lt r.beforeLen_lt)

end Fields

theorem beforeBytes_length (r : LogRecord) :
    (if r.beforeLen = kBeforeAbsent then 0 else r.beforeLen) = r.beforeBytes.length := by
  split
  · rename_i absent
    rw [beforeBytes, r.beforeLen_eq_absent.mp absent]
    rfl
  · rename_i present
    unfold beforeLen beforeBytes at *
    cases eq : r.before with
    | none => exact absurd (by rw [eq]) present
    | some b => rfl

/-- The header alone decides how many bytes are needed: a cut record does not parse. -/
theorem parse_cut (r : LogRecord) {n : Nat} (cut : n < r.serializedSize) :
    parse (r.serialize.take n) = none := by
  by_cases short : n < kHeaderSize + kCrcSize
  · rw [parse, if_pos]
    exact lt_of_le_of_lt (List.length_take_le _ _) short
  · have split : r.serialize.take n = r.header ++ (r.payload ++
        encode 4 (crc32 (r.header ++ r.payload)).toNat).take (n - kHeaderSize) := by
      rw [serialize, List.take_append, length_header, List.take_of_length_le]
      rw [length_header]
      omega
    have length : (r.serialize.take n).length = n := by
      rw [List.length_take, length_serialize]
      omega
    have enough : ¬ (r.serialize.take n).length < kHeaderSize + kCrcSize := by omega
    rw [parse, if_neg enough]
    simp only [length]
    rw [split]
    simp only [field_typeByte, field_keyLen, field_valLen, field_beforeLen, typeByte_mod,
      LogRecordType.ofCode_code, beforeBytes_length]
    exact if_pos cut

/- The pieces of a serialized record at their offsets. -/

section Pieces

variable (r : LogRecord) (rest : Bytes)

theorem serialize_append :
    r.serialize ++ rest = r.header ++ (r.key ++ (r.value ++ (r.beforeBytes ++
      (encode 4 (crc32 (r.header ++ r.payload)).toNat ++ rest)))) := by
  simp [serialize, payload]

theorem take_key : ((r.serialize ++ rest).drop kHeaderSize).take r.key.length = r.key := by
  rw [serialize_append, ← r.length_header, List.drop_left, List.take_left]

theorem take_value :
    ((r.serialize ++ rest).drop (kHeaderSize + r.key.length)).take r.value.length = r.value := by
  rw [serialize_append, ← r.length_header, ← List.drop_drop, List.drop_left, List.drop_left,
    List.take_left]

theorem take_before :
    ((r.serialize ++ rest).drop (kHeaderSize + r.key.length + r.value.length)).take
      r.beforeBytes.length = r.beforeBytes := by
  rw [serialize_append, ← r.length_header, ← List.drop_drop, ← List.drop_drop, List.drop_left,
    List.drop_left, List.drop_left, List.take_left]

theorem take_covered :
    (r.serialize ++ rest).take (r.serializedSize - kCrcSize) = r.header ++ r.payload := by
  have length : (r.header ++ r.payload).length = r.serializedSize - kCrcSize := by
    rw [List.length_append, length_header, length_payload, serializedSize]
    omega
  have shape : r.serialize ++ rest = (r.header ++ r.payload) ++
      (encode 4 (crc32 (r.header ++ r.payload)).toNat ++ rest) := by
    simp [serialize]
  rw [shape, List.take_left' length]

theorem field_crc :
    field (r.serializedSize - kCrcSize) 4 (r.serialize ++ rest) =
      (crc32 (r.header ++ r.payload)).toNat := by
  have length : (r.header ++ r.payload).length = r.serializedSize - kCrcSize := by
    rw [List.length_append, length_header, length_payload, serializedSize]
    omega
  have shape : r.serialize ++ rest = (r.header ++ r.payload) ++
      (encode 4 (crc32 (r.header ++ r.payload)).toNat ++ rest) := by
    simp [serialize]
  rw [field, shape, List.drop_left' length, List.take_left' (LittleEndian.length_encode _ _),
    LittleEndian.decode_encode_of_lt (UInt32.toNat_lt _)]

end Pieces

theorem parse_serialize (r : LogRecord) (rest : Bytes) :
    parse (r.serialize ++ rest) = some (r, r.serializedSize) := by
  have size : r.serializedSize ≤ (r.serialize ++ rest).length := by
    rw [List.length_append, length_serialize]
    omega
  have enough : ¬ (r.serialize ++ rest).length < kHeaderSize + kCrcSize := by
    have room : kHeaderSize + kCrcSize ≤ r.serializedSize := by unfold serializedSize; omega
    omega
  have fields : r.serialize ++ rest = r.header ++ (r.payload ++
      (encode 4 (crc32 (r.header ++ r.payload)).toNat ++ rest)) := by
    simp [serialize]
  have lsn : field 0 8 (r.serialize ++ rest) = r.lsn.toNat := by rw [fields, field_lsn]
  have txid : field 8 8 (r.serialize ++ rest) = r.txid.toNat := by rw [fields, field_txid]
  have typeByte : field 16 1 (r.serialize ++ rest) = r.typeByte := by rw [fields, field_typeByte]
  have pageId : field 17 4 (r.serialize ++ rest) = r.pageId.toNat := by rw [fields, field_pageId]
  have keyLen : field 21 2 (r.serialize ++ rest) = r.key.length := by rw [fields, field_keyLen]
  have valLen : field 23 2 (r.serialize ++ rest) = r.value.length := by rw [fields, field_valLen]
  have beforeLen : field 25 2 (r.serialize ++ rest) = r.beforeLen := by
    rw [fields, field_beforeLen]
  have whole : kHeaderSize + r.key.length + r.value.length + r.beforeBytes.length + kCrcSize =
      r.serializedSize := rfl
  have before : (if r.beforeLen = kBeforeAbsent then none
      else some (((r.serialize ++ rest).drop (kHeaderSize + r.key.length + r.value.length)).take
        r.beforeLen)) = r.before := by
    have length := r.beforeBytes_length
    split
    · rename_i absent
      exact (r.beforeLen_eq_absent.mp absent).symm
    · rename_i present
      rw [if_neg present] at length
      rw [length, take_before, LogRecord.beforeBytes]
      cases eq : r.before with
      | none => exact absurd (r.beforeLen_eq_absent.mpr eq) present
      | some b => rfl
  rw [parse, if_neg enough]
  simp only [lsn, txid, typeByte, pageId, keyLen, valLen, beforeLen, typeByte_mod,
    LogRecordType.ofCode_code, beforeBytes_length, whole, take_covered, field_crc, take_key,
    take_value, before, opEnd_typeByte, if_neg (not_lt.mpr size), ne_eq, not_true_eq_false,
    if_false, UInt64.ofNat_toNat, UInt32.ofNat_toNat]

/- The bytes of what parses. -/

theorem typeByte_of_parts {r : LogRecord} {raw : Nat} (small : raw < 256)
    (ends : r.opEnd = decide (kOpEndBit ≤ raw))
    (type : LogRecordType.ofCode (raw % kOpEndBit) = some r.type) : r.typeByte = raw := by
  have code := LogRecordType.code_of_ofCode type
  unfold kOpEndBit at ends code
  rw [typeByte, ends, code, kOpEndBit]
  split
  · rename_i high
    have := of_decide_eq_true high
    omega
  · rename_i low
    have := of_decide_eq_false (Bool.not_eq_true _ ▸ low)
    omega

def payloadLengths (buffer : Bytes) : Nat × Nat × Nat :=
  (field 21 2 buffer, field 23 2 buffer, if field 25 2 buffer = kBeforeAbsent then 0 else field 25 2 buffer)

structure Parsed (buffer : Bytes) (r : LogRecord) (n : Nat) : Prop where
  total : n = kHeaderSize + (payloadLengths buffer).1 + (payloadLengths buffer).2.1 +
    (payloadLengths buffer).2.2 + kCrcSize
  enough : n ≤ buffer.length
  crc : (crc32 (buffer.take (n - kCrcSize))).toNat = field (n - kCrcSize) 4 buffer
  type : LogRecordType.ofCode (field 16 1 buffer % kOpEndBit) = some r.type
  opEnd : r.opEnd = decide (kOpEndBit ≤ field 16 1 buffer)
  lsn : r.lsn = UInt64.ofNat (field 0 8 buffer)
  txid : r.txid = UInt64.ofNat (field 8 8 buffer)
  pageId : r.pageId = UInt32.ofNat (field 17 4 buffer)
  key : r.key = (buffer.drop kHeaderSize).take (field 21 2 buffer)
  value : r.value = (buffer.drop (kHeaderSize + field 21 2 buffer)).take (field 23 2 buffer)
  before : r.before = if field 25 2 buffer = kBeforeAbsent then none
    else some ((buffer.drop (kHeaderSize + field 21 2 buffer + field 23 2 buffer)).take (field 25 2 buffer))

theorem parsed_of_parse {buffer : Bytes} {r : LogRecord} {n : Nat} (parses : parse buffer = some (r, n)) :
    Parsed buffer r n := by
  obtain ⟨-, parses⟩ := Option.ite_none_left_eq_some.mp parses
  cases type : LogRecordType.ofCode (field 16 1 buffer % kOpEndBit) with
  | none => simp [type] at parses
  | some t =>
    simp only [type] at parses
    obtain ⟨enough, parses⟩ := Option.ite_none_left_eq_some.mp parses
    obtain ⟨crc, parses⟩ := Option.ite_none_left_eq_some.mp parses
    cases parses
    exact ⟨rfl, not_lt.mp enough, not_not.mp crc, type, rfl, rfl, rfl, rfl, rfl, rfl, rfl⟩

namespace Parsed

variable {buffer : Bytes} {r : LogRecord} {n : Nat}

theorem key_length (p : Parsed buffer r n) : r.key.length = field 21 2 buffer := by
  have total := p.total
  have enough := p.enough
  simp only [payloadLengths] at total
  rw [p.key, List.length_take, List.length_drop]
  omega

theorem value_length (p : Parsed buffer r n) : r.value.length = field 23 2 buffer := by
  have total := p.total
  have enough := p.enough
  simp only [payloadLengths] at total
  rw [p.value, List.length_take, List.length_drop]
  omega

theorem beforeLen_eq (p : Parsed buffer r n) : r.beforeLen = field 25 2 buffer := by
  have total := p.total
  have enough := p.enough
  simp only [payloadLengths] at total
  rw [beforeLen, p.before]
  split_ifs with absent
  · exact absent.symm
  · rw [if_neg absent] at total
    dsimp only
    rw [List.length_take, List.length_drop]
    omega

theorem header_eq (p : Parsed buffer r n) : r.header = buffer.take kHeaderSize := by
  have total := p.total
  have enough := p.enough
  have raw : r.typeByte = field 16 1 buffer := typeByte_of_parts (field_lt 16 1 buffer) p.opEnd p.type
  have lsn : r.lsn.toNat = field 0 8 buffer := by
    rw [p.lsn, UInt64.toNat_ofNat_of_lt' (field_lt 0 8 buffer)]
  have txid : r.txid.toNat = field 8 8 buffer := by
    rw [p.txid, UInt64.toNat_ofNat_of_lt' (field_lt 8 8 buffer)]
  have pageId : r.pageId.toNat = field 17 4 buffer := by
    rw [p.pageId, UInt32.toNat_ofNat_of_lt' (field_lt 17 4 buffer)]
  rw [header, lsn, txid, raw, pageId, p.key_length, p.value_length, p.beforeLen_eq]
  have long : 0 + [8, 8, 1, 4, 2, 2, 2].sum ≤ buffer.length := by
    simp only [kHeaderSize] at total
    change 27 ≤ _
    omega
  exact LittleEndian.layout_fieldsAt long

theorem payload_eq (p : Parsed buffer r n) : r.payload = (buffer.drop kHeaderSize).take
    (n - kHeaderSize - kCrcSize) := by
  have total := p.total
  have rest : r.beforeBytes = (buffer.drop (kHeaderSize + field 21 2 buffer + field 23 2 buffer)).take
      (payloadLengths buffer).2.2 := by
    rw [beforeBytes, p.before, payloadLengths]
    split_ifs
    · simp
    · rfl
  have size : n - kHeaderSize - kCrcSize = field 21 2 buffer +
    (field 23 2 buffer + (payloadLengths buffer).2.2) := by
    simp only [payloadLengths] at total ⊢
    omega
  rw [payload, p.key, p.value, rest, size, List.take_add, List.take_add, List.drop_drop, List.drop_drop]

end Parsed

theorem serialize_of_parse {buffer : Bytes} {r : LogRecord} {n : Nat} (parses : parse buffer = some (r, n)) :
    r.serialize = buffer.take n := by
  have p := parsed_of_parse parses
  have total := p.total
  have enough := p.enough
  have body : r.header ++ r.payload = buffer.take (n - kCrcSize) := by
    have split : n - kCrcSize = kHeaderSize + (n - kHeaderSize - kCrcSize) := by omega
    rw [p.header_eq, p.payload_eq, split, List.take_add]
  have length : ((buffer.drop (n - kCrcSize)).take 4).length = 4 := by
    rw [List.length_take, List.length_drop]
    simp only [kCrcSize] at total ⊢
    omega
  have sum : encode 4 (crc32 (r.header ++ r.payload)).toNat = (buffer.drop (n - kCrcSize)).take 4 := by
    have whole := LittleEndian.encode_decode ((buffer.drop (n - kCrcSize)).take 4)
    rw [length] at whole
    rw [body, p.crc]
    exact whole
  have split : n = n - kCrcSize + 4 := by
    simp only [kCrcSize] at total ⊢
    omega
  rw [serialize, ← List.append_assoc, sum, body]
  nth_rewrite 3 [split]
  rw [List.take_add]

end LogRecord

def txnMarker (txid : UInt64) (type : LogRecordType) : LogRecord where
  lsn := 0
  txid := txid
  type := type
  pageId := 0xFFFFFFFF
  opEnd := true
  key := []
  value := []
  before := none
  keyFits := by decide
  valueFits := by decide
  beforeFits := nofun

/- `LogReader::ReadAll`. -/

/-- The scan from one offset on; every record takes bytes, so as much fuel as there are bytes
is enough. `expected` is `kInvalidLsn` before the first record. -/
def readFrom : Nat → UInt64 → Bytes → List LogRecord
  | 0, _, _ => []
  | fuel + 1, expected, bytes =>
    match LogRecord.parse bytes with
    | none => []
    | some (record, consumed) =>
      if expected ≠ 0 ∧ record.lsn ≠ expected then []
      else record :: readFrom fuel (record.lsn + UInt64.ofNat consumed) (bytes.drop consumed)

def readAll (bytes : Bytes) : List LogRecord := readFrom bytes.length 0 bytes

/- `LogWriter`. -/

abbrev RawPage := { bytes : Bytes // bytes.length = kPageSize }

namespace RawPage

def pageLsn (p : RawPage) : UInt64 := UInt64.ofNat (field 8 8 p.val)

def stamp (p : RawPage) (lsn : UInt64) : RawPage :=
  ⟨p.val.take 8 ++ (encode 8 lsn.toNat ++ p.val.drop 16), by
    have length := p.property
    unfold kPageSize at *
    simp [length]⟩

theorem pageLsn_stamp (p : RawPage) (lsn : UInt64) : (p.stamp lsn).pageLsn = lsn := by
  have length : (p.val.take 8).length = 8 := by
    have whole := p.property
    unfold kPageSize at whole
    simp [whole]
  rw [pageLsn, stamp, field, List.drop_left' length,
    List.take_left' (LittleEndian.length_encode _ _),
    LittleEndian.decode_encode_of_lt lsn.toNat_lt, UInt64.ofNat_toNat]

end RawPage

/-- What the file system answers during one call: a failed write may leave some of its bytes. -/
structure FileIo where
  write : Option Nat
  sync : Bool
  truncate : Bool

def FileIo.good : FileIo := ⟨none, true, true⟩

/-- `pwrite`: the file grows with zeros up to the offset if it has to. -/
def writeAt (file : Bytes) (offset : Nat) (data : Bytes) : Bytes :=
  file.take offset ++ (List.replicate (offset - file.length) 0 ++
    (data ++ file.drop (offset + data.length)))

theorem writeAt_end (file data : Bytes) : writeAt file file.length data = file ++ data := by
  simp [writeAt]

structure LogWriter where
  file : Bytes
  buffer : Bytes
  baseLsn : UInt64
  endLsn : UInt64
  flushedLsn : UInt64
  fileBytes : Nat
  imaged : List UInt32

namespace LogWriter

def «open» (file : Bytes) (baseLsn : UInt64) : LogWriter :=
  let e := baseLsn + UInt64.ofNat file.length
  ⟨file, [], baseLsn, e, e, file.length, []⟩

def bufferRecord (w : LogWriter) (r : LogRecord) : LogWriter :=
  { w with
    buffer := w.buffer ++ r.serialize
    endLsn := w.endLsn + UInt64.ofNat r.serializedSize }

def assigned (w : LogWriter) (r : LogRecord) : LogRecord := { r with lsn := w.endLsn }

def append (w : LogWriter) (r : LogRecord) : LogWriter := w.bufferRecord (w.assigned r)

/-- The image is taken after the page got the LSN of its own record. -/
def imageRecord (w : LogWriter) (pageId : UInt32) (page : RawPage) (txid : UInt64)
    (opEnd : Bool) : LogRecord where
  lsn := w.endLsn
  txid := txid
  type := .pageImage
  pageId := pageId
  opEnd := opEnd
  key := []
  value := (page.stamp w.endLsn).val
  before := none
  keyFits := by decide
  valueFits := by rw [(page.stamp w.endLsn).property]; decide
  beforeFits := nofun

def appendPageImage (w : LogWriter) (pageId : UInt32) (page : RawPage) (txid : UInt64)
    (opEnd : Bool) : LogWriter :=
  { w.bufferRecord (w.imageRecord pageId page txid opEnd) with imaged := pageId :: w.imaged }

def needsImage (w : LogWriter) (pageId : UInt32) : Bool := !w.imaged.contains pageId

def synced (io : FileIo) (w : LogWriter) : Bool × LogWriter :=
  if io.sync then (true, { w with flushedLsn := w.endLsn }) else (false, w)

def flush (io : FileIo) (w : LogWriter) : Bool × LogWriter :=
  if w.buffer = [] ∧ w.flushedLsn = w.endLsn then (true, w)
  else if w.buffer = [] then w.synced io
  else
    match io.write with
    | some n => (false, { w with file := writeAt w.file w.fileBytes (w.buffer.take n) })
    | none =>
      synced io { w with
        file := writeAt w.file w.fileBytes w.buffer
        fileBytes := w.fileBytes + w.buffer.length
        buffer := [] }

def flushTo (io : FileIo) (w : LogWriter) (lsn : UInt64) : Bool × LogWriter :=
  if lsn = 0 ∨ lsn < w.flushedLsn ∨ (w.flushedLsn = lsn ∧ lsn = w.endLsn) then (true, w)
  else if w.endLsn ≤ w.flushedLsn then (true, w)
  else w.flush io

def truncate (io : FileIo) (w : LogWriter) (newBase : UInt64) : Bool × LogWriter :=
  if !io.truncate then (false, w)
  else if !io.sync then (false, { w with file := [] })
  else (true, ⟨[], [], newBase, newBase, newBase, 0, []⟩)

end LogWriter

end PagerDB.Wire
