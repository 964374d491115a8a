import PagerDB.Wal.Log

/-! What a handle owns: frames of the buffer pool over the pages of `data.db`, the
meta page in memory and its two copies on disk, and the log. A call of the pool
that can miss meets the next entry of `io`: `none` lets it through and a fault
makes it fail, so a list of entries is one pattern of I/O errors and exhausted
pools. Which frames are evicted, and when, is not decided here. -/
namespace PagerDB

inductive Fault where
  | ioError (message : String)
  | busy
  deriving DecidableEq, Repr

def Fault.status : Fault → Status
  | ioError m => .IoError m
  | busy => .Busy "All buffer pool frames are pinned"

structure Frame where
  page : Page
  dirty : Bool
  deriving DecidableEq

structure MetaPage where
  rootPageId : PageId
  numPages : PageId
  numKeys : Int
  freeListHead : PageId
  generation : Nat
  checkpointLsn : Lsn
  deriving DecidableEq

def MetaPage.init : MetaPage := ⟨kInvalidPageId, 2, 0, kInvalidPageId, 0, kInvalidLsn⟩

/-- The file system under `data.db`: a write past its largest file fails. The
largest file of a volume stays below the 2^32 pages that page ids can name. -/
structure Volume where
  maxPages : Nat
  limit : maxPages ≤ kInvalidPageId

structure Store where
  cache : PageId → Option Frame
  /-- A data page of the file; `none` fails its checksum. -/
  disk : PageId → Option Page
  filePages : Nat
  metaPage : MetaPage
  metaSlots : Bool → Option MetaPage
  wal : Option LogWriter
  vol : Volume
  io : List (Option Fault)

abbrev M := EStateM Failure Store

def fail (s : Status) : M α := throw (.status s)

def failIf (c : Prop) [Decidable c] (e : Failure) : M Unit := if c then throw e else pure ()

def onlyIf (c : Bool) (x : M Unit) : M Unit := if c then x else pure ()

namespace Store

def view (s : Store) (pid : PageId) : Page :=
  match s.cache pid with
  | some f => f.page
  | none => (s.disk pid).getD .zeroed

def isDirty (s : Store) (pid : PageId) : Bool :=
  match s.cache pid with
  | some f => f.dirty
  | none => false

def setFrame (s : Store) (pid : PageId) (f : Frame) : Store :=
  { s with cache := fun q => if q = pid then some f else s.cache q }

def setDisk (s : Store) (pid : PageId) (page : Option Page) : Store :=
  { s with disk := fun q => if q = pid then page else s.disk q }

def putPage (s : Store) (pid : PageId) (page : Page) : Store :=
  s.setFrame pid ⟨page, s.isDirty pid⟩

def dirtied (s : Store) (pid : PageId) : Store := s.setFrame pid ⟨s.view pid, true⟩

end Store

def ioPoint : M Unit := fun s =>
  match s.io with
  | [] => .ok () s
  | none :: rest => .ok () { s with io := rest }
  | some e :: rest => .error (.status e.status) { s with io := rest }

def getPage (pid : PageId) : M Page := fun s => .ok (s.view pid) s

def setPage (pid : PageId) (page : Page) : M Unit := fun s => .ok () (s.putPage pid page)

def markDirty (pid : PageId) : M Unit := fun s => .ok () (s.dirtied pid)

def withNode (pid : PageId) (f : Page → Bool × Page) : M Bool := do
  let r := f (← getPage pid)
  setPage pid r.2
  return r.1

def readPage (pid : PageId) : M Page := do
  let s ← get
  failIf (pid < kFirstDataPage) (.status (.InvalidArgument "Page is a meta page"))
  failIf (s.metaPage.numPages ≤ pid) (.status (.InvalidArgument "Page out of range"))
  ioPoint
  match s.disk pid with
  | some page => return page
  | none => fail (.Corruption "Checksum mismatch on page")

/-- The page is resident, and pinned by the caller, afterwards. A hit does no I/O. -/
def fetchPage (pid : PageId) : M Unit := do
  match (← get).cache pid with
  | some _ => return ()
  | none =>
    ioPoint
    let page ← readPage pid
    modify fun s => s.setFrame pid ⟨page, false⟩

def allocatePage : M PageId := do
  let s ← get
  if s.metaPage.freeListHead ≠ kInvalidPageId then
    let recycled := s.metaPage.freeListHead
    let page ← readPage recycled
    match page.body with
    | .free next =>
      ioPoint
      modify fun s => { s.setDisk recycled (some .zeroed) with
        metaPage := { s.metaPage with freeListHead := next } }
      return recycled
    | _ => fail (.Corruption "Free list head is not a free page")
  else
    let newPageId := s.metaPage.numPages
    ioPoint
    failIf (s.vol.maxPages ≤ newPageId) (.status (.IoError "File too large"))
    modify fun s => { s.setDisk newPageId (some .zeroed) with
      filePages := max s.filePages (newPageId + 1)
      metaPage := { s.metaPage with numPages := newPageId + 1 } }
    return newPageId

/-- `BufferPool::NewPage`: a zeroed, clean frame for a fresh page. -/
def newPage : M PageId := do
  ioPoint
  let pid ← allocatePage
  modify fun s => s.setFrame pid ⟨.zeroed, false⟩
  return pid

def setRootPageId (pid : PageId) : M Unit :=
  modify fun s => { s with metaPage := { s.metaPage with rootPageId := pid } }

def addToNumKeys (delta : Int) : M Unit :=
  modify fun s => { s with metaPage := { s.metaPage with numKeys := s.metaPage.numKeys + delta } }

def setNumKeys (count : Int) : M Unit :=
  modify fun s => { s with metaPage := { s.metaPage with numKeys := count } }

end PagerDB
