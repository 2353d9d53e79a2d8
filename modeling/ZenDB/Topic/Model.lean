import Mathlib.Data.List.Sort
import ZenDB.Lib.Bytes
import ZenDB.Lib.FiniteMap

namespace ZenDB

def topicMagic : Nat := 0x43495054
def segmentHeaderSize : Nat := 4

/-- A shared segment; its file is named by `baseOffset`, so that also names the segment. -/
structure Segment where
  baseOffset : Nat
  endOffset : Nat
  byteLen : Nat
  deleteOnDrop : Bool
  deriving DecidableEq, Repr

def Segment.recordCount (s : Segment) : Nat := s.endOffset-s.baseOffset

def Segment.fresh (baseOffset : Nat) : Segment := ⟨baseOffset, baseOffset, segmentHeaderSize, false⟩

def Segment.markDeleted (s : Segment) : Segment := {s with deleteOnDrop := true}

structure ConsumerState where
  committed : Nat
  volatile : Nat
  readerActive : Bool
  deriving DecidableEq, Repr

/-- `segment` is the base offset of the segment the cursor shares. -/
structure SegmentCursor where
  filePos : Nat
  segment : Nat
  logicalOffset : Nat
  deriving DecidableEq, Repr

structure TopicStats where
  earliestOffset : Nat
  nextOffset : Nat
  records : Nat
  retainedBytes : Nat
  deriving DecidableEq, Repr

/-- A topic directory with its writer and its readers. `dir` are the segment files by base offset,
`offsets` the persisted cursors, `held` the segments `compact` removed that a cursor still shares,
and `readers` the live consumer handles. The published segment list and tail offset are those of
the writer whenever no call is running. -/
structure Topic (Name : Type) where
  maxSegmentBytes : Nat
  dir : AList (fun _ : Nat => Bytes)
  offsets : AList (fun _ : Name => Nat)
  segments : List Segment
  held : List Segment
  consumers : AList (fun _ : Name => ConsumerState)
  readers : AList (fun _ : Name => Option SegmentCursor)
  stats : TopicStats

/-- Four bytes of length, cut to 32 bits, then the encoding. -/
def frame {T : Type} (tc : Codec T) (v : T) : Bytes := leBytes 4 (tc.enc v).length ++ tc.enc v

/-- `read_exact` of the length and of the value; a short read leaves the position at the end. -/
def readRecord {T : Type} (tc : Codec T) (file : Bytes) (pos : Nat) : Nat × Option T :=
  match readU32Le file pos with
  | none => (max pos file.length, none)
  | some valueSize =>
    match slice? file (pos+4) valueSize with
    | none => (max pos file.length, none)
    | some bytes => (pos+4+valueSize, tc.dec bytes)

/-- The `for _ in segment.base_offset..offset` loop of `position`. -/
def skipRecords (file : Bytes) : Nat → Nat → Option Nat
  | 0, byteOffset => some byteOffset
  | n+1, byteOffset => do
    let size ← readU32Le file byteOffset
    skipRecords file n (byteOffset+(4+size))

/-- The loop of `scan_active_segment`; every turn but the last moves at least four bytes forward. -/
def scanLoop (file : Bytes) : Nat → Nat → Nat → Option (Nat × Nat)
  | 0, _, _ => none
  | fuel+1, records, cursor =>
    if cursor+4 ≤ file.length then do
      let size ← readU32Le file cursor
      let stop := cursor+4+size
      if stop > file.length then some (records, cursor)
      else scanLoop file fuel (records+1) stop
    else some (records, cursor)

def scanActiveSegment (file : Bytes) (baseOffset : Nat) : Option (Nat × Nat) := do
  let magic ← readU32Le file 0
  if magic ≠ topicMagic then none
  let (records, cursor) ← scanLoop file (file.length+1) 0 segmentHeaderSize
  return (baseOffset+records, cursor)

namespace Topic

variable {Name T : Type} [DecidableEq Name]

def cursors (t : Topic Name) : List SegmentCursor := t.readers.entries.filterMap (·.2)

def shared (t : Topic Name) (base : Nat) : Bool := t.cursors.any (·.segment = base)

/-- Drops the last reference to every removed segment that no cursor shares. -/
def release (t : Topic Name) : Topic Name :=
  { t with
    held := t.held.filter fun s => t.shared s.baseOffset
    dir := (t.held.filter fun s => !t.shared s.baseOffset).foldl
      (fun d s => if s.deleteOnDrop then d.erase s.baseOffset else d) t.dir }

def setCursor (t : Topic Name) (name : Name) (current : Option SegmentCursor) : Topic Name :=
  { t with readers := t.readers.insert name current }

def setConsumer (t : Topic Name) (name : Name) (c : ConsumerState) : Topic Name :=
  { t with consumers := t.consumers.insert name c }

def minCommitted (t : Topic Name) : Option Nat := (t.consumers.entries.map (·.2.committed)).min?

def removable (t : Topic Name) (through : Nat) : Nat :=
  ((t.segments.take (t.segments.length-1)).takeWhile fun s => s.endOffset ≤ through).length

/-- `segments.drain(..count)`; the removed segments are deleted when their last reference goes. -/
def removeSegments (t : Topic Name) (count : Nat) : Topic Name :=
  { t with
    segments := t.segments.drop count
    held := t.held ++ (t.segments.take count).map Segment.markDeleted }

def compact (t : Topic Name) : Option (Topic Name) :=
  match t.minCommitted with
  | none => some t
  | some through =>
    if t.removable through = 0 then some t
    else do
      let removed := t.segments.take (t.removable through)
      let first ← (t.segments.drop (t.removable through)).head?
      let stats := { t.stats with
        earliestOffset := first.baseOffset
        records := t.stats.records-(removed.map Segment.recordCount).sum
        retainedBytes := t.stats.retainedBytes-(removed.map Segment.byteLen).sum }
      return release ({t with stats := stats}.removeSegments (t.removable through))

/-- `create_new` fails when the file exists. -/
def createSegment (dir : AList (fun _ : Nat => Bytes)) (baseOffset : Nat) :
    Option (AList (fun _ : Nat => Bytes) × Segment) :=
  if (dir.lookup baseOffset).isSome then none
  else some (dir.insert baseOffset (leBytes 4 topicMagic), .fresh baseOffset)

def rotateSegment (t : Topic Name) : Option (Topic Name) := do
  let (dir, segment) ← createSegment t.dir t.stats.nextOffset
  compact { t with
    dir := dir
    segments := t.segments ++ [segment]
    stats := {t.stats with retainedBytes := t.stats.retainedBytes+segmentHeaderSize} }

def create (maxSegmentBytes : Nat) : Option (Topic Name) := do
  let (dir, segment) ← createSegment ∅ 0
  return ⟨maxSegmentBytes, dir, ∅, [segment], [], ∅, ∅, ⟨0, 0, 0, segmentHeaderSize⟩⟩

/-- The two `write_all` calls on the active file and the stores behind them. -/
def writeRecord (t : Topic Name) (tc : Codec T) (value : T) : Option (Topic Name × Nat) := do
  let active ← t.segments.getLast?
  let file ← t.dir.lookup active.baseOffset
  let recordSize := 4+(tc.enc value).length
  let offset := t.stats.nextOffset
  return ({ t with
    dir := t.dir.insert active.baseOffset (file ++ frame tc value)
    segments := t.segments.dropLast ++
      [{active with byteLen := active.byteLen+recordSize, endOffset := offset+1}]
    stats := { t.stats with
      nextOffset := offset+1
      records := t.stats.records+1
      retainedBytes := t.stats.retainedBytes+recordSize } }, offset)

def append (t : Topic Name) (tc : Codec T) (value : T) : Option (Topic Name × Nat) := do
  let active ← t.segments.getLast?
  let recordSize := 4+(tc.enc value).length
  if active.recordCount ≠ 0 ∧ active.byteLen+recordSize > t.maxSegmentBytes then
    let t ← t.rotateSegment
    t.writeRecord tc value
  else t.writeRecord tc value

/-- `None` is the error that the consumer already has an active reader. -/
def consumer (t : Topic Name) (name : Name) : Option (Topic Name) :=
  match t.consumers.lookup name with
  | some c =>
    if c.readerActive then none
    else some ((t.setConsumer name {c with readerActive := true}).setCursor name none)
  | none =>
    let offset := t.stats.nextOffset
    some (({t with offsets := t.offsets.insert name offset}.setConsumer name
      ⟨offset, offset, true⟩).setCursor name none)

def commit (t : Topic Name) (name : Name) : Option (Topic Name) := do
  let c ← t.consumers.lookup name
  return {t with offsets := t.offsets.insert name c.volatile}.setConsumer name
    {c with committed := c.volatile}

def seek (t : Topic Name) (name : Name) (offset : Nat) : Option (Topic Name) := do
  let c ← t.consumers.lookup name
  return ((t.setConsumer name {c with volatile := offset}).setCursor name none).release

def reset (t : Topic Name) (name : Name) : Option (Topic Name) := do
  let c ← t.consumers.lookup name
  return ((t.setConsumer name {c with volatile := c.committed}).setCursor name none).release

def dropReader (t : Topic Name) (name : Name) : Option (Topic Name) := do
  let c ← t.consumers.lookup name
  let t := t.setConsumer name {c with volatile := c.committed, readerActive := false}
  return release {t with readers := t.readers.erase name}

def delete (t : Topic Name) (name : Name) : Topic Name :=
  release { t with
    offsets := t.offsets.erase name
    consumers := t.consumers.erase name
    readers := t.readers.erase name }

inductive Positioned where
  | found (cursor : SegmentCursor)
  | atEnd
  | ioError

/-- `None` is the panic of `unwrap` when no segment holds the offset. -/
def position (t : Topic Name) (offset : Nat) : Option Positioned :=
  if offset ≥ t.stats.nextOffset then some .atEnd
  else do
    let segment ← t.segments.find? fun s => s.baseOffset ≤ offset && offset < s.endOffset
    match t.dir.lookup segment.baseOffset with
    | none => some .ioError
    | some file =>
      match skipRecords file (offset-segment.baseOffset) segmentHeaderSize with
      | none => some .ioError
      | some byteOffset => some (.found ⟨byteOffset, segment.baseOffset, offset⟩)

inductive Next (T : Type) where
  | none
  | item (value : T)
  | error
  deriving DecidableEq, Repr

/-- The read at the end of `next`. -/
def readCursor (t : Topic Name) (tc : Codec T) (name : Name) (c : ConsumerState)
    (cursor : SegmentCursor) : Option (Topic Name × Next T) := do
  let file ← t.dir.lookup cursor.segment
  match readRecord tc file cursor.filePos with
  | (pos, some value) =>
    some ((t.setConsumer name {c with volatile := cursor.logicalOffset+1}).setCursor name
      (some {cursor with filePos := pos, logicalOffset := cursor.logicalOffset+1}), .item value)
  | (pos, none) => some (t.setCursor name (some {cursor with filePos := pos}), .error)

def positionAndRead (t : Topic Name) (tc : Codec T) (name : Name) (c : ConsumerState) :
    Option (Topic Name × Next T) := do
  let t := (t.setCursor name none).release
  match ← t.position c.volatile with
  | .found cursor => (t.setCursor name (some cursor)).readCursor tc name c cursor
  | .atEnd => some (t, .none)
  | .ioError => some (t, .error)

def next (t : Topic Name) (tc : Codec T) (name : Name) : Option (Topic Name × Next T) := do
  let current ← t.readers.lookup name
  let c ← t.consumers.lookup name
  match current with
  | none => t.positionAndRead tc name c
  | some cursor =>
    let segment ← (t.segments ++ t.held).find? (·.baseOffset = cursor.segment)
    if cursor.logicalOffset < segment.endOffset then t.readCursor tc name c cursor
    else if cursor.logicalOffset ≥ t.stats.nextOffset then some (t, .none)
    else t.positionAndRead tc name c

/-- The segments of `open`: all but the last end where the next begins. -/
def openSegments (dir : AList (fun _ : Nat => Bytes)) (activeEnd activeLen : Nat) :
    List Nat → Option (List Segment)
  | [] => some []
  | [base] => some [⟨base, activeEnd, activeLen, false⟩]
  | base :: following :: rest => do
    let file ← dir.lookup base
    let magic ← readU32Le file 0
    if magic ≠ topicMagic then none
    let segments ← openSegments dir activeEnd activeLen (following :: rest)
    return ⟨base, following, file.length, false⟩ :: segments

def openDir (maxSegmentBytes : Nat) (dir : AList (fun _ : Nat => Bytes))
    (offsets : AList (fun _ : Name => Nat)) : Option (Topic Name) := do
  let bases := dir.keys.insertionSort (· ≤ ·)
  let activeBase ← bases.getLast?
  let file ← dir.lookup activeBase
  let (activeEnd, activeLen) ← scanActiveSegment file activeBase
  let dir := if activeLen < file.length then dir.insert activeBase (setLen file activeLen) else dir
  let segments ← openSegments dir activeEnd activeLen bases
  let first ← segments.head?
  let last ← segments.getLast?
  return {
    maxSegmentBytes := maxSegmentBytes
    dir := dir
    offsets := offsets
    segments := segments
    held := []
    consumers := insertAll ∅ (offsets.entries.map fun e => ⟨e.1, ⟨e.2, e.2, false⟩⟩)
    readers := ∅
    stats := {
      earliestOffset := first.baseOffset
      nextOffset := last.endOffset
      records := last.endOffset-first.baseOffset
      retainedBytes := (segments.map Segment.byteLen).sum } }

/-- A clean close with every handle dropped, and the following open. -/
def reopen (t : Topic Name) : Option (Topic Name) := openDir t.maxSegmentBytes t.dir t.offsets

end Topic

end ZenDB
