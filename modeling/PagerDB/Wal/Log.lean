import PagerDB.Storage.Page

/-! Write-ahead log records, the buffered writer and the reader. A log file is a
list of whole records and of torn byte runs; that the reader recognises a torn
run is the assumption on CRC-32. An LSN is a byte position: the LSN of the
file's first byte plus the offset in the file. -/
namespace PagerDB

inductive LogBody where
  | put (page : PageId) (key value : Bytes) (before : Option Bytes)
  | delete (page : PageId) (key : Bytes) (before : Option Bytes)
  | allocPage (page : PageId)
  | freePage (page : PageId)
  | rootChange (page : PageId)
  | checkpoint
  | pageImage (page : PageId) (image : Page)
  | begin
  | commit
  | abort
  deriving DecidableEq

namespace LogBody

def pageId : LogBody → PageId
  | put p .. | delete p .. | allocPage p | freePage p | rootChange p | pageImage p _ => p
  | _ => kInvalidPageId

def payloadBytes : LogBody → Nat
  | put _ k v b => k.length + v.length + (b.elim 0 List.length)
  | delete _ k b => k.length + (b.elim 0 List.length)
  | pageImage .. => kPageSize
  | _ => 0

end LogBody

structure LogRecord where
  lsn : Lsn
  txid : TxId
  opEnd : Bool
  body : LogBody
  deriving DecidableEq

/-- Header of 27 bytes, payload, CRC of 4 bytes. -/
def LogRecord.serializedSize (r : LogRecord) : Nat := 27 + r.body.payloadBytes + 4

inductive Chunk where
  | record (r : LogRecord)
  | torn (bytes : Nat)
  deriving DecidableEq

def Chunk.size : Chunk → Nat
  | record r => r.serializedSize
  | torn n => n

/-- `LogReader::ReadAll`: stops at the first bytes that do not parse and at the
first record that does not continue the LSN chain. -/
def readChain : Option Lsn → List Chunk → List LogRecord
  | _, [] => []
  | _, .torn _ :: _ => []
  | none, .record r :: cs => r :: readChain (some (r.lsn + r.serializedSize)) cs
  | some e, .record r :: cs =>
    if r.lsn = e then r :: readChain (some (r.lsn + r.serializedSize)) cs else []

def readAll (file : List Chunk) : List LogRecord := readChain none file

structure LogWriter where
  file : List Chunk
  buffer : List LogRecord
  baseLsn : Lsn
  endLsn : Lsn
  flushedLsn : Lsn
  imaged : List PageId
  deriving DecidableEq

namespace LogWriter

def fileBytes (file : List Chunk) : Nat := (file.map Chunk.size).sum

/-- The writer positions itself by the raw file size. -/
def «open» (file : List Chunk) (baseLsn : Lsn) : LogWriter :=
  let e := baseLsn + fileBytes file
  ⟨file, [], baseLsn, e, e, []⟩

def append (w : LogWriter) (txid : TxId) (opEnd : Bool) (body : LogBody) : LogWriter :=
  let r : LogRecord := ⟨w.endLsn, txid, opEnd, body⟩
  { w with buffer := w.buffer ++ [r], endLsn := w.endLsn + r.serializedSize }

/-- The image embeds its own record's LSN. -/
def appendPageImage (w : LogWriter) (pid : PageId) (page : Page) (txid : TxId)
    (opEnd : Bool) : LogWriter :=
  let w' := w.append txid opEnd (.pageImage pid (page.stamp w.endLsn))
  { w' with imaged := pid :: w.imaged }

def needsImage (w : LogWriter) (pid : PageId) : Bool := !w.imaged.contains pid

def flush (w : LogWriter) : LogWriter :=
  { w with file := w.file ++ w.buffer.map .record, buffer := [], flushedLsn := w.endLsn }

def truncate (_ : LogWriter) (newBase : Lsn) : LogWriter :=
  ⟨[], [], newBase, newBase, newBase, []⟩

def sizeBytes (w : LogWriter) : Nat := w.endLsn - w.baseLsn

end LogWriter

end PagerDB
