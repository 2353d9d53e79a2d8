import ZenDB.Table.Model

namespace ZenDB.Workspace

/-! The configurations that the catalogs of a workspace store. -/

/-- A number of type `f64`, by its bits. -/
structure F64 where
  bits : UInt64
  deriving DecidableEq, Repr

namespace F64

/-- Exponent and fraction. -/
def magnitude (x : F64) : Nat := x.bits.toNat % 2^63

def isNan (x : F64) : Bool := 2047*2^52 < x.magnitude

/-- Equality of numbers: a NaN equals nothing, and the two zeros are equal. -/
def same (x y : F64) : Bool :=
  !x.isNan && !y.isNan && (x.bits = y.bits || (x.magnitude = 0 && y.magnitude = 0))

end F64

structure BPlusTreeConfig where
  initialCapacityPages : UInt64
  compactionRatio : F64
  deriving DecidableEq, Repr

structure KeyDirConfig where
  initialCapacity : UInt64
  compactionRatio : F64
  deriving DecidableEq, Repr

inductive SkipListCapacity where
  | unbounded
  | bounded (maxEntries : UInt64)
  deriving DecidableEq, Repr

structure SkipListConfig where
  capacity : SkipListCapacity
  deriving DecidableEq, Repr

inductive StateConfig where
  | ordered (config : BPlusTreeConfig)
  | unordered (config : KeyDirConfig)
  | inMemory (config : SkipListConfig)
  deriving DecidableEq, Repr

structure TopicConfig where
  maxSegmentBytes : UInt64
  offsets : KeyDirConfig
  deriving DecidableEq, Repr

structure TableConfig where
  state : StateConfig
  maxBufferedRecords : UInt64
  topic : TopicConfig
  deriving DecidableEq, Repr

namespace BPlusTreeConfig

def same (a b : BPlusTreeConfig) : Bool :=
  a.initialCapacityPages = b.initialCapacityPages && a.compactionRatio.same b.compactionRatio

/-- The size of a new file does not overflow. -/
def fits (c : BPlusTreeConfig) : Bool := max c.initialCapacityPages.toNat 2*4096 < 2^64

end BPlusTreeConfig

namespace KeyDirConfig

def same (a b : KeyDirConfig) : Bool :=
  a.initialCapacity = b.initialCapacity && a.compactionRatio.same b.compactionRatio

/-- A new file has room for the magic and the sentinel; `create` panics without. -/
def fits (c : KeyDirConfig) : Bool := 8 ≤ c.initialCapacity.toNat

end KeyDirConfig

def SkipListCapacity.bound : SkipListCapacity → Option Nat
  | .unbounded => none
  | .bounded maxEntries => some maxEntries.toNat

namespace StateConfig

/-- The derived `PartialEq`. -/
def same : StateConfig → StateConfig → Bool
  | .ordered a, .ordered b => a.same b
  | .unordered a, .unordered b => a.same b
  | .inMemory a, .inMemory b => a = b
  | _, _ => false

def kind : StateConfig → StateKind
  | .ordered _ => .ordered
  | .unordered _ => .unordered
  | .inMemory c => .inMemory c.capacity.bound

def fits : StateConfig → Bool
  | .ordered c => c.fits
  | .unordered c => c.fits
  | .inMemory _ => true

end StateConfig

namespace TableConfig

def same (a b : TableConfig) : Bool :=
  a.state.same b.state && a.maxBufferedRecords = b.maxBufferedRecords &&
    (a.topic.maxSegmentBytes = b.topic.maxSegmentBytes && a.topic.offsets.same b.topic.offsets)

def fits (c : TableConfig) : Bool := c.state.fits && c.topic.offsets.fits

end TableConfig

/-- The bits of `0.5`. -/
def defaultCompactionRatio : F64 := ⟨0x3fe0000000000000⟩

def defaultKeyDirConfig : KeyDirConfig := ⟨16777216, defaultCompactionRatio⟩

def defaultTopicConfig : TopicConfig := ⟨67108864, defaultKeyDirConfig⟩

def systemStateConfig : StateConfig := .unordered defaultKeyDirConfig

def systemTableConfig : TableConfig := ⟨systemStateConfig, 1024, defaultTopicConfig⟩

/-- The name is one component of a path, so that different names are different files. -/
def isPathComponent (name : String) : Bool :=
  name ≠ "" && name ≠ "." && name ≠ ".." && name.toList.all fun c => c ≠ '/' && c ≠ '\x00'

end ZenDB.Workspace
