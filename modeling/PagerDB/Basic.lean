import Mathlib.Algebra.Ring.Int.Defs
import Mathlib.Data.Nat.Cast.Basic
import Mathlib.Data.List.Lex
import Mathlib.Order.Fin.Basic
import PagerDB.Lib.LittleEndian

/-! Byte strings, identifiers and statuses shared by every layer of the store.
Keys are compared as `std::string_view::compare` does: byte by byte, unsigned. -/
namespace PagerDB

abbrev Byte := Fin 256
abbrev Bytes := List Byte

abbrev PageId := Nat
abbrev Lsn := Nat
abbrev TxId := Nat

def kInvalidPageId : PageId := 0xFFFFFFFF
def kInvalidLsn : Lsn := 0
def kFirstLsn : Lsn := 1
def kInvalidTxId : TxId := 0

/-- Pages 0 and 1 are the two meta copies. -/
def kFirstDataPage : PageId := 2

def kPageSize : Nat := 4096
def kPageHeaderSize : Nat := 40
def kSlotEntrySize : Nat := 8

inductive StatusCode where
  | notFound | ioError | corruption | invalidArgument | busy | internal | noSpace
  deriving DecidableEq, Repr

/-- A non-Ok `Status`; Ok is the success branch of the monad. -/
structure Status where
  code : StatusCode
  message : String
  deriving DecidableEq, Repr

namespace Status

def NotFound (m : String) : Status := ⟨.notFound, m⟩
def IoError (m : String) : Status := ⟨.ioError, m⟩
def Corruption (m : String) : Status := ⟨.corruption, m⟩
def InvalidArgument (m : String) : Status := ⟨.invalidArgument, m⟩
def Busy (m : String) : Status := ⟨.busy, m⟩
def Internal (m : String) : Status := ⟨.internal, m⟩
def NoSpace (m : String) : Status := ⟨.noSpace, m⟩

end Status

/-- How a call ends when it does not end with Ok. `lengthError` is the
`std::length_error` of a `vector::reserve` asked for more than `max_size()`;
`diverges` marks a loop that the page graph makes infinite. -/
inductive Failure where
  | status (s : Status)
  | lengthError
  | diverges
  deriving DecidableEq, Repr

theorem nil_le_bytes (k : Bytes) : ([] : Bytes) ≤ k :=
  not_lt.mp (List.not_lt_nil k)

end PagerDB
