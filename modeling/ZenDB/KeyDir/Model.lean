import Mathlib.Data.List.AList
import Mathlib.Data.List.Sort
import ZenDB.Lib.Bytes

namespace ZenDB

def keyDirMagic : Nat := 0x4452494B
def headerSize : Nat := 4
def tombstone : Nat := 2^32-1
/-- Replay terminator behind the last record; distinct from an empty value's size 0. -/
def sentinel : Nat := 2^32-2

structure KeyDirStats where
  dataSize : Nat
  deadBytes : Nat
  deriving DecidableEq, Repr

/-- `compactionDue` is the test of `maybe_compact`: the source compares the floating-point ratio of
the two counters with `compaction_ratio`; here it is any decision made from them. -/
structure KeyDirConfig where
  initialCapacity : Nat
  compactionDue : KeyDirStats → Bool

structure EntryMeta where
  offset : Nat
  recordSize : Nat
  deriving DecidableEq, Repr

abbrev KeyDirIndex (K : Type) := AList (fun _ : K => EntryMeta)

/-- The memory map is the file: both always have the same bytes. -/
structure KeyDir (K : Type) where
  index : KeyDirIndex K
  mmap : Bytes
  config : KeyDirConfig
  stats : KeyDirStats

variable {K V : Type} [DecidableEq K] (kc : Codec K) (vc : Codec V)

def valueBytesIn (mmap : Bytes) (m : EntryMeta) : Option Bytes := do
  let valueSize ← readU32Le mmap m.offset
  slice? mmap (m.offset+4) valueSize

def growInto (mmap : Bytes) (desired : Nat) : Bytes :=
  setLen mmap (max (mmap.length*2) desired)

/-- `if end + 4 > mmap.len() { grow_into(..) }`: room for the record and the sentinel behind it. -/
def growFor (mmap : Bytes) (tail : Nat) : Bytes :=
  if tail+4 > mmap.length then growInto mmap (tail+4) else mmap

def writeEntryInto (mmap : Bytes) (stats : KeyDirStats) (key : K) (value : V) :
    Option (Bytes × KeyDirStats × EntryMeta) := do
  let kb := kc.enc key
  let vb := vc.enc value
  let total := 8+vb.length+kb.length
  let offset := stats.dataSize
  let tail := offset+total
  let mmap := growFor mmap tail
  let mmap ← splice? mmap offset (leBytes 4 vb.length)
  let vOff := offset+4
  let mmap ← splice? mmap vOff vb
  let kLenOff := vOff+vb.length
  let mmap ← splice? mmap kLenOff (leBytes 4 kb.length)
  let kOff := kLenOff+4
  let mmap ← splice? mmap kOff kb
  let mmap ← splice? mmap tail (leBytes 4 sentinel)
  return (mmap, {stats with dataSize := tail}, ⟨offset, total%2^32⟩)

def writeTombstoneInto (mmap : Bytes) (stats : KeyDirStats) (old : EntryMeta) :
    Option (Bytes × KeyDirStats) := do
  let valueSize ← readU32Le mmap old.offset
  let keySize := old.recordSize-8-valueSize
  let total := 8+keySize
  let newOffset := stats.dataSize
  let tail := newOffset+total
  let mmap := growFor mmap tail
  let keySrcStart := old.offset+8+valueSize
  let mmap ← splice? mmap newOffset (leBytes 4 tombstone)
  let mmap ← splice? mmap (newOffset+4) (leBytes 4 keySize)
  let mmap ← copyWithin? mmap keySrcStart keySize (newOffset+8)
  let mmap ← splice? mmap tail (leBytes 4 sentinel)
  return (mmap, ⟨tail, stats.deadBytes+(8+keySize)⟩)

/-- State of the `while let` loop of `rebuild_index`. -/
structure Rebuild (K : Type) where
  index : KeyDirIndex K
  deadBytes : Nat
  cursor : Nat

def Rebuild.live (r : Rebuild K) (key : K) (valueSize keySize entryEnd : Nat) : Rebuild K :=
  { index := r.index.insert key ⟨r.cursor, (8+valueSize+keySize)%2^32⟩
    deadBytes := match r.index.lookup key with
      | some old => r.deadBytes+old.recordSize
      | none => r.deadBytes
    cursor := entryEnd }

def Rebuild.dead (r : Rebuild K) (key : K) (keySize entryEnd : Nat) : Rebuild K :=
  { index := r.index.erase key
    deadBytes := match r.index.lookup key with
      | some old => r.deadBytes+old.recordSize+(8+keySize)
      | none => r.deadBytes+(8+keySize)
    cursor := entryEnd }

/-- Each turn consumes at least eight bytes, so `mmap.length+1` turns are always enough. -/
def rebuildLoop (mmap : Bytes) : Nat → Rebuild K → Option (Rebuild K)
  | 0, _ => none
  | fuel+1, r =>
    match readU32Le mmap r.cursor with
    | none => some r
    | some valueSize =>
      if valueSize = sentinel then some r
      else
        let isTombstone := valueSize = tombstone
        let keySizeOff := if isTombstone then r.cursor+4 else r.cursor+4+valueSize
        do
          let keySize ← readU32Le mmap keySizeOff
          let keyStart := keySizeOff+4
          let entryEnd := keyStart+keySize
          let key ← kc.dec (← slice? mmap keyStart keySize)
          if isTombstone then rebuildLoop mmap fuel (r.dead key keySize entryEnd)
          else rebuildLoop mmap fuel (r.live key valueSize keySize entryEnd)

/-- The index is empty when `open` calls this. -/
def rebuildIndex (mmap : Bytes) : Option (KeyDirIndex K × KeyDirStats) := do
  let r ← rebuildLoop kc mmap (mmap.length+1) ⟨∅, 0, headerSize⟩
  return (r.index, ⟨r.cursor, r.deadBytes⟩)

namespace KeyDir

def create (config : KeyDirConfig) : Option (KeyDir K) := do
  let mmap := setLen [] config.initialCapacity
  let mmap ← splice? mmap 0 (leBytes 4 keyDirMagic)
  let mmap ← splice? mmap headerSize (leBytes 4 sentinel)
  return ⟨∅, mmap, config, ⟨headerSize, 0⟩⟩

def openFile (mmap : Bytes) (config : KeyDirConfig) : Option (KeyDir K) := do
  let fileMagic ← readU32Le mmap 0
  if fileMagic ≠ keyDirMagic then none
  let (index, stats) ← rebuildIndex kc mmap
  return ⟨index, mmap, config, stats⟩

/-- `if src != cursor { mmap.copy_within(src..src + len, cursor) }` -/
def moveTo (mmap : Bytes) (m : EntryMeta) (cursor : Nat) : Option Bytes :=
  if m.offset ≠ cursor then copyWithin? mmap m.offset m.recordSize cursor else some mmap

/-- The forward sweep of `compact` over the entries sorted by offset. -/
def sweep (mmap : Bytes) (cursor : Nat) :
    List (Sigma (fun _ : K => EntryMeta)) → Option (Bytes × Nat × List (Sigma (fun _ : K => EntryMeta)))
  | [] => some (mmap, cursor, [])
  | ⟨key, m⟩ :: rest => do
    let mmap ← moveTo mmap m cursor
    let (mmap, tail, moved) ← sweep mmap (cursor+m.recordSize) rest
    return (mmap, tail, ⟨key, ⟨cursor, m.recordSize⟩⟩ :: moved)

def byOffset (a b : Sigma (fun _ : K => EntryMeta)) : Prop := a.2.offset ≤ b.2.offset

instance : DecidableRel (byOffset (K := K)) := fun a b => Nat.decLe a.2.offset b.2.offset

/-- `compact` updates the entries through mutable references; here each is inserted again. -/
def compact (kd : KeyDir K) : Option (KeyDir K) := do
  let snapshot := kd.index.entries.insertionSort byOffset
  let (mmap, cursor, moved) ← sweep kd.mmap headerSize snapshot
  let mmap ← splice? mmap cursor (leBytes 4 sentinel)
  let newCapacity := max (cursor+4) kd.config.initialCapacity
  return { kd with
    index := moved.foldl (fun idx e => idx.insert e.1 e.2) kd.index
    mmap := setLen mmap newCapacity
    stats := ⟨cursor, 0⟩ }

def maybeCompact (kd : KeyDir K) : Option (KeyDir K) :=
  if kd.config.compactionDue kd.stats then kd.compact else some kd

/-- The outer `Option` is a panic, the inner one the answer. -/
def get (kd : KeyDir K) (key : K) : Option (Option V) :=
  match kd.index.lookup key with
  | none => some none
  | some m => do
    let v ← vc.dec (← valueBytesIn kd.mmap m)
    return some v

def contains (kd : KeyDir K) (key : K) : Bool := (kd.index.lookup key).isSome

def size (kd : KeyDir K) : Nat := kd.index.entries.length

/-- Appends a live record and points the index at it; `oldSize` is what it makes dead. -/
def place (kd : KeyDir K) (key : K) (value : V) (oldSize : Nat) : Option (KeyDir K) := do
  let (mmap, stats, newMeta) ← writeEntryInto kc vc kd.mmap kd.stats key value
  return { kd with
    index := kd.index.insert key newMeta
    mmap := mmap
    stats := {stats with deadBytes := stats.deadBytes+oldSize} }

/-- Takes `key` out of the index and appends a tombstone copied from its record. -/
def bury (kd : KeyDir K) (key : K) (old : EntryMeta) : Option (KeyDir K) := do
  let stats := {kd.stats with deadBytes := kd.stats.deadBytes+old.recordSize}
  let (mmap, stats) ← writeTombstoneInto kd.mmap stats old
  return { kd with index := kd.index.erase key, mmap := mmap, stats := stats }

def put (kd : KeyDir K) (key : K) (value : V) : Option (KeyDir K) := do
  let kd ← match kd.index.lookup key with
    | some old => kd.place kc vc key value old.recordSize
    | none => kd.place kc vc key value 0
  kd.maybeCompact

def delete (kd : KeyDir K) (key : K) : Option (KeyDir K × Bool) :=
  match kd.index.lookup key with
  | none => some (kd, false)
  | some old => do
    let kd ← kd.bury key old
    return (← kd.maybeCompact, true)

def putIfAbsent (kd : KeyDir K) (key : K) (value : V) : Option (KeyDir K × Bool) :=
  match kd.index.lookup key with
  | some _ => some (kd, false)
  | none => do
    let kd ← kd.place kc vc key value 0
    return (← kd.maybeCompact, true)

def replace (kd : KeyDir K) (key : K) (value : V) : Option (KeyDir K × Option V) :=
  match kd.index.lookup key with
  | some old => do
    let prev ← vc.dec (← valueBytesIn kd.mmap old)
    let kd ← kd.place kc vc key value old.recordSize
    return (← kd.maybeCompact, some prev)
  | none => do
    let kd ← kd.place kc vc key value 0
    return (← kd.maybeCompact, none)

def update (kd : KeyDir K) (key : K) (f : Option V → Option V) : Option (KeyDir K) :=
  match kd.index.lookup key with
  | some old => do
    let current ← vc.dec (← valueBytesIn kd.mmap old)
    match f (some current) with
    | some newV =>
      let kd ← kd.place kc vc key newV old.recordSize
      kd.maybeCompact
    | none =>
      let kd ← kd.bury key old
      kd.maybeCompact
  | none =>
    match f none with
    | some newV => do
      let kd ← kd.place kc vc key newV 0
      kd.maybeCompact
    | none => some kd

def clear (kd : KeyDir K) : Option (KeyDir K) := do
  let mmap ← splice? kd.mmap 0 (leBytes 4 keyDirMagic)
  let mmap ← splice? mmap headerSize (leBytes 4 sentinel)
  return { kd with index := ∅, mmap := mmap, stats := ⟨headerSize, 0⟩ }

end KeyDir

end ZenDB
