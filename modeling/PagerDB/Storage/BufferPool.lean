import PagerDB.Storage.SlottedPage
import PagerDB.Wal.Wire

/-! `BufferPool` with its frames, page table, free list, LRU replacer and guards, over the pager's file.
Calls are atomic; one that would wait for a content latch is not taken. Each call is given the faults of
the reads, writes and log flushes it makes, and a failed write may leave anything on disk. -/
namespace PagerDB.Buffer

open MemoryLib LittleEndian

abbrev FrameId := Nat
abbrev GuardVar := Nat

/- The page header as the pager sees it. -/

def checksum (m : Memory) : Nat := decode (read m 28 4)
def pageLsn (m : Memory) : Lsn := decode (read m 8 8)

def computeChecksum (m : Memory) : Nat :=
  (Wire.crc32 (read m 0 28 ++ ([0, 0, 0, 0] ++ read m 32 (kPageSize - 32)))).toNat

def stampChecksum (m : Memory) : Memory := write m 28 (encode 4 (computeChecksum m))

def isZeroed (m : Memory) : Bool := (read m 0 kPageSize).all (· = 0)

def zeroPage : Memory := fun _ => 0

/- The replacer: recency order with the evictable flags, least recently used first. -/

abbrev LruReplacer := List (FrameId × Bool)

namespace LruReplacer

def remove (r : LruReplacer) (frame : FrameId) : LruReplacer := r.filter (·.1 ≠ frame)

def recordAccess (r : LruReplacer) (frame : FrameId) : LruReplacer :=
  match r.lookup frame with
  | some evictable => remove r frame ++ [(frame, evictable)]
  | none => r ++ [(frame, false)]

def setEvictable (r : LruReplacer) (frame : FrameId) (evictable : Bool) : LruReplacer :=
  r.map fun e => if e.1 = frame then (frame, evictable) else e

def evict (r : LruReplacer) : Option (FrameId × LruReplacer) :=
  match r.find? (·.2) with
  | some (frame, _) => some (frame, remove r frame)
  | none => none

end LruReplacer

inductive LatchMode where
  | kNone | kShared | kExclusive
  deriving DecidableEq

structure Frame where
  page : Memory
  pageId : PageId
  pinCount : Nat
  dirty : Bool
  writer : Bool
  readers : Nat

def Frame.empty : Frame := ⟨zeroPage, kInvalidPageId, 0, false, false, 0⟩

def Frame.tryLock (f : Frame) : Bool := !f.writer && f.readers = 0

/-- `none` while the latch is not to be had. -/
def Frame.lock (f : Frame) : LatchMode → Option Frame
  | .kNone => some f
  | .kShared => if f.writer then none else some { f with readers := f.readers + 1 }
  | .kExclusive => if f.tryLock then some { f with writer := true } else none

def Frame.unlock (f : Frame) : LatchMode → Frame
  | .kNone => f
  | .kShared => { f with readers := f.readers - 1 }
  | .kExclusive => { f with writer := false }

structure Guard where
  frame : FrameId
  pageId : PageId
  mode : LatchMode

structure Pool where
  frames : FrameId → Frame
  /-- The back of the vector comes first. -/
  freeFrames : List FrameId
  pageTable : List (PageId × FrameId)
  replacer : LruReplacer
  wal : Bool
  /-- The pager: the file and what the pool uses of the meta page. -/
  disk : PageId → Memory
  numPages : PageId
  freeListHead : PageId
  verifyChecksums : Bool
  /-- The valid guards, by the variables that own them. -/
  guards : List (GuardVar × Guard)

/-- What goes wrong in a call, by the page it goes wrong for; with what a failed read leaves in the
buffer, and a failed write on disk. -/
structure Faults where
  read : PageId → Option (Status × Memory)
  write : PageId → Option (Status × Memory)
  log : PageId → Option Status

def Faults.none : Faults := ⟨fun _ => .none, fun _ => .none, fun _ => .none⟩

def kMinFrames : Nat := 4

def kFree : Nat := 3

namespace Pool

def create (numFrames : Nat) (wal verifyChecksums : Bool) (disk : PageId → Memory) (numPages : PageId) :
    Pool where
  frames _ := .empty
  freeFrames := List.range (if numFrames < kMinFrames then kMinFrames else numFrames)
  pageTable := []
  replacer := []
  wal := wal
  disk := disk
  numPages := numPages
  freeListHead := kInvalidPageId
  verifyChecksums := verifyChecksums
  guards := []

def setFrame (s : Pool) (f : FrameId) (frame : Frame) : Pool :=
  { s with frames := Function.update s.frames f frame }

def setDisk (s : Pool) (p : PageId) (m : Memory) : Pool :=
  { s with disk := Function.update s.disk p m }

/- Pager. -/

def checkId (s : Pool) (p : PageId) : Option Status :=
  if p < kFirstDataPage then some (.InvalidArgument ("Page " ++ toString p ++ " is a meta page"))
  else if s.numPages ≤ p then
    some (.InvalidArgument ("Page " ++ toString p ++ " out of range (max: " ++
      toString (s.numPages - 1) ++ ")"))
  else none

def readPage (s : Pool) (p : PageId) (out : Memory) (io : Faults) : Option Status × Memory :=
  match s.checkId p with
  | some e => (some e, out)
  | none =>
    match io.read p with
    | some (e, junk) => (some e, junk)
    | none =>
      if s.verifyChecksums && checksum (s.disk p) ≠ computeChecksum (s.disk p) &&
          !isZeroed (s.disk p) then
        (some (.Corruption ("Checksum mismatch on page " ++ toString p)), s.disk p)
      else (none, s.disk p)

def writePage (s : Pool) (p : PageId) (page : Memory) (io : Faults) : Option Status × Memory × Pool :=
  match s.checkId p with
  | some e => (some e, page, s)
  | none =>
    let page := stampChecksum page
    match io.write p with
    | some (e, junk) => (some e, page, s.setDisk p junk)
    | none => (none, page, s.setDisk p page)

def allocatePage (s : Pool) (io : Faults) : Except Status PageId × Pool :=
  if s.freeListHead ≠ kInvalidPageId then
    let recycled := s.freeListHead
    match s.readPage recycled zeroPage io with
    | (some e, _) => (.error e, s)
    | (none, freePage) =>
      if (freePage 4).val ≠ kFree then
        (.error (.Corruption ("Free list head " ++ toString recycled ++ " is not a free page")), s)
      else
        match io.write recycled with
        | some (e, junk) => (.error e, s.setDisk recycled junk)
        | none =>
          (.ok recycled, { s.setDisk recycled zeroPage with
            freeListHead := decode (read freePage kPageHeaderSize 4) })
  else
    match io.write s.numPages with
    | some (e, junk) => (.error e, s.setDisk s.numPages junk)
    | none => (.ok s.numPages, { s.setDisk s.numPages zeroPage with numPages := s.numPages + 1 })

/- Writing a frame back. -/

def enforceWalRule (s : Pool) (f : FrameId) (io : Faults) : Option Status :=
  if !s.wal then none
  else if pageLsn (s.frames f).page = kInvalidLsn then none
  else io.log (s.frames f).pageId

/-- The log first, then the page; then the frame is clean. -/
def writeBack (s : Pool) (f : FrameId) (io : Faults) : Option Status × Pool :=
  match s.enforceWalRule f io with
  | some e => (some e, s)
  | none =>
    let (result, page, s) := s.writePage (s.frames f).pageId (s.frames f).page io
    match result with
    | some e => (some e, s.setFrame f { s.frames f with page := page })
    | none => (none, s.setFrame f { s.frames f with page := page, dirty := false })

/- Frames. -/

def putBack (s : Pool) (victim : FrameId) : Pool :=
  { s with replacer := (s.replacer.recordAccess victim).setEvictable victim true }

def detach (s : Pool) (victim : FrameId) : Pool :=
  { s.setFrame victim { s.frames victim with pageId := kInvalidPageId } with
    pageTable := s.pageTable.filter (·.1 ≠ (s.frames victim).pageId) }

def evictFrame (s : Pool) (io : Faults) : Except Status FrameId × Pool :=
  match s.replacer.evict with
  | none => (.error (.Busy "All buffer pool frames are pinned"), s)
  | some (victim, replacer) =>
    let s := { s with replacer := replacer }
    if (s.frames victim).dirty then
      if (s.frames victim).tryLock then
        match s.writeBack victim io with
        | (some e, s) => (.error e, s.putBack victim)
        | (none, s) => (.ok victim, s.detach victim)
      else (.error (.Internal "Latched frame with zero pins"), s.putBack victim)
    else (.ok victim, s.detach victim)

def acquireFrameLocked (s : Pool) (io : Faults) : Except Status FrameId × Pool :=
  match s.freeFrames with
  | f :: rest => (.ok f, { s with freeFrames := rest })
  | [] => s.evictFrame io

def pin (s : Pool) (f : FrameId) : Pool :=
  { s.setFrame f { s.frames f with pinCount := (s.frames f).pinCount + 1 } with
    replacer := s.replacer.setEvictable f false }

def install (s : Pool) (f : FrameId) (p : PageId) (page : Memory) : Pool :=
  { s.setFrame f { s.frames f with page := page, pageId := p, pinCount := 1, dirty := false } with
    pageTable := if (s.pageTable.lookup p).isSome then s.pageTable else (p, f) :: s.pageTable
    replacer := (s.replacer.recordAccess f).setEvictable f false }

def unuse (s : Pool) (f : FrameId) : Pool := { s with freeFrames := f :: s.freeFrames }

/-- The part of a fetch under the pool latch: a pinned frame that holds the page. -/
def pinPage (s : Pool) (p : PageId) (io : Faults) : Except Status FrameId × Pool :=
  match s.pageTable.lookup p with
  | some f => (.ok f, { s with replacer := s.replacer.recordAccess f }.pin f)
  | none =>
    match s.acquireFrameLocked io with
    | (.error e, s) => (.error e, s)
    | (.ok f, s) =>
      match s.readPage p (s.frames f).page io with
      | (some e, junk) => (.error e, (s.setFrame f { s.frames f with page := junk }).unuse f)
      | (none, page) => (.ok f, s.install f p page)

def handOut (s : Pool) (f : FrameId) (p : PageId) (mode : LatchMode) : Option (Guard × Pool) :=
  ((s.frames f).lock mode).map fun frame => (⟨f, p, mode⟩, s.setFrame f frame)

def fetchPageInternal (s : Pool) (p : PageId) (mode : LatchMode) (io : Faults) :
    Option (Except Status Guard × Pool) :=
  match s.pinPage p io with
  | (.error e, s) => some (.error e, s)
  | (.ok f, s) => (s.handOut f p mode).map fun r => (.ok r.1, r.2)

def newPage (s : Pool) (io : Faults) : Option (Except Status Guard × Pool) :=
  match s.acquireFrameLocked io with
  | (.error e, s) => some (.error e, s)
  | (.ok f, s) =>
    match s.allocatePage io with
    | (.error e, s) => some (.error e, s.unuse f)
    | (.ok p, s) => ((s.install f p zeroPage).handOut f p .kExclusive).map fun r => (.ok r.1, r.2)

def releaseGuard (s : Pool) (f : FrameId) (mode : LatchMode) : Pool :=
  let frame := (s.frames f).unlock mode
  let pinCount := frame.pinCount - 1
  { s.setFrame f { frame with pinCount := pinCount } with
    replacer := if pinCount = 0 then s.replacer.setEvictable f true else s.replacer }

/- Flushing. -/

/-- Write a pinned frame out if it is dirty, under its shared latch, and unpin it. -/
def flushFrame (s : Pool) (f : FrameId) (io : Faults) : Option (Option Status × Pool) :=
  if (s.frames f).dirty then
    if (s.frames f).writer then none
    else
      let (result, s) := s.writeBack f io
      some (result, s.releaseGuard f .kNone)
  else some (none, s.releaseGuard f .kNone)

def flushPage (s : Pool) (p : PageId) (io : Faults) : Option (Option Status × Pool) :=
  match s.pageTable.lookup p with
  | none => some (none, s)
  | some f => (s.pin f).flushFrame f io

/-- The loop of `FlushAll`; after an error it only unpins. -/
def flushLoop (io : Faults) : List FrameId → Option Status → Pool → Option (Option Status × Pool)
  | [], result, s => some (result, s)
  | f :: rest, some e, s => flushLoop io rest (some e) (s.releaseGuard f .kNone)
  | f :: rest, none, s => (s.flushFrame f io).bind fun r => flushLoop io rest r.1 r.2

/-- The page table is hashed: it is walked in some order. -/
def flushAll (s : Pool) (order : List FrameId) (io : Faults) : Option (Option Status × Pool) :=
  if order.isPerm (s.pageTable.map Prod.snd) then flushLoop io order none (order.foldl pin s) else none

/- Guards. -/

def drop (s : Pool) (x : GuardVar) : Pool :=
  match s.guards.lookup x with
  | none => s
  | some g => { s.releaseGuard g.frame g.mode with guards := s.guards.eraseP (·.1 = x) }

/-- A variable takes over a guard and drops its own. -/
def assign (s : Pool) (x : GuardVar) (g : Guard) : Pool :=
  { s.drop x with guards := (x, g) :: (s.drop x).guards }

def move (s : Pool) (x y : GuardVar) : Pool :=
  if x = y then s
  else
    match s.guards.lookup y with
    | none => s.drop x
    | some g => { s with guards := s.guards.eraseP (·.1 = y) }.assign x g

def markDirty (s : Pool) (g : Guard) : Pool :=
  s.setFrame g.frame { s.frames g.frame with dirty := true }

def setPage (s : Pool) (g : Guard) (page : Memory) : Pool :=
  s.setFrame g.frame { s.frames g.frame with page := page }

end Pool

end PagerDB.Buffer
