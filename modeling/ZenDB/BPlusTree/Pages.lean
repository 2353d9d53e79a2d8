import ZenDB.Lib.Bisect
import ZenDB.Lib.Slotted

namespace ZenDB

/-! Pages of 4096 bytes. An internal page has a header of 16 bytes and a leaf one of 24; a leaf entry
of more than `MAX_INLINE` = 4064 bytes keeps its value in an extent. A failure of `Option` is a panic,
by an index out of a page or out of the mapping or by a length that underflows, or a file that cannot
grow. -/

open Memory Slotted

abbrev Page := Mem

namespace BPlusTree

/-- The fields of page 0, which is read and written field by field. -/
structure MetaPage where
  root : Nat
  freeHead : Nat
  pages : Nat
  entries : Nat
  rightmostLeaf : Nat
  leafPages : Nat
  leafEntryBytes : Nat
  freePages : Nat
  deriving DecidableEq, Repr

structure Stats where
  entries : Nat
  pages : Nat
  freePages : Nat
  leafPages : Nat
  leafEntryBytes : Nat
  deriving DecidableEq, Repr

structure Config where
  initialCapacityPages : Nat

end BPlusTree

/-- `mapped` is the length of the mapping in pages. The system may refuse a file or a mapping of any
size; `grants` tells which sizes, in pages, it gives. -/
structure BPlusTree where
  mem : Nat → Page
  mapped : Nat
  grants : Nat → Bool
  metaPage : BPlusTree.MetaPage
  stats : BPlusTree.Stats
  config : BPlusTree.Config

structure PageSplit where
  leftPage : Nat
  rightPage : Nat
  separatorKey : Bytes

/-- The shortest prefix of `rightFirst` that exceeds `leftLast`, if a byte of it does. -/
def separatorPrefix : Bytes → Bytes → Option Bytes
  | l :: ls, r :: rs => if r > l then some [r] else (separatorPrefix ls rs).map (r :: ·)
  | _, _ => none

def truncatedSeparator (leftLast rightFirst : Bytes) : Bytes :=
  (separatorPrefix leftLast rightFirst).getD (leftLast ++ [0])

def u16? (pg : Page) (off : Nat) : Option Nat := (read? 4096 pg off 2).map leNat

def u32? (pg : Page) (off : Nat) : Option Nat := (read? 4096 pg off 4).map leNat

def u64? (pg : Page) (off : Nat) : Option Nat := (read? 4096 pg off 8).map leNat

def nextLeaf (pg : Page) : Nat := leNat (read pg 8 8)

def prevLeaf (pg : Page) : Nat := leNat (read pg 16 8)

def leftmostChild (pg : Page) : Nat := leNat (read pg 8 8)

def freeLink (pg : Page) : Nat := leNat (read pg 0 8)

def setNextLeaf (pg : Page) (p : Nat) : Page := write pg 8 (leBytes 8 p)

def setPrevLeaf (pg : Page) (p : Nat) : Page := write pg 16 (leBytes 8 p)

def setLeftmostChild (pg : Page) (p : Nat) : Page := write pg 8 (leBytes 8 p)

def setFreeLink (pg : Page) (p : Nat) : Page := write pg 0 (leBytes 8 p)

/-- Count and data offset of a page as it is repacked. -/
def resetSlots (pg : Page) : Page := setDataOff (setCount pg 0) 4096

/-- The payload of a leaf entry is an extent pointer when the high bit of its length is set. -/
def isOvfl (rawVl : Nat) : Bool := 2^31 ≤ rawVl

def payloadLen (rawVl : Nat) : Nat := if isOvfl rawVl then 8 else rawVl

/-- `value_len & !OVFL_FLAG`. -/
def realLen (rawVl : Nat) : Nat := rawVl%2^31

/-- `len as u32 | OVFL_FLAG`. -/
def ovflLen (len : Nat) : Nat := len%2^31+2^31

/-- The value goes to an extent. -/
def needsExtent (key value : Bytes) : Bool := key.length+value.length+6 > 4064

/-- The bytes behind the key in the entry: the value, or the page number of its extent. -/
def payloadOf (key value : Bytes) : Nat := if needsExtent key value then 8 else value.length

/-- `leaf_es`. -/
def leafEntrySize (key value : Bytes) : Nat := 6+key.length+payloadOf key value

/-- Header, key, payload and slot. -/
def leafEntryBytes (keyLen payloadLen : Nat) : Nat := 6+keyLen+payloadLen+2

def leafEntry (key : Bytes) (rawVl : Nat) (payload : Bytes) : Bytes :=
  leBytes 2 key.length ++ leBytes 4 rawVl ++ key ++ payload

def internalEntry (key : Bytes) (child : Nat) : Bytes := leBytes 2 key.length ++ leBytes 8 child ++ key

/-- `key_bytes_at`. -/
def leafKeyAt (pg : Page) (i : Nat) : Option Bytes := do
  let eo ← slot? 24 4096 pg i
  let kl ← u16? pg eo
  read? 4096 pg (eo+6) kl

def internalKeyAt (pg : Page) (i : Nat) : Option Bytes := do
  let eo ← slot? 16 4096 pg i
  let kl ← u16? pg eo
  read? 4096 pg (eo+10) kl

def internalChildAt (pg : Page) (i : Nat) : Option Nat := do
  let eo ← slot? 16 4096 pg i
  u64? pg (eo+2)

/-- The first separator above `key`. -/
def separatorAfter (pg : Page) (key : Bytes) : Option Nat :=
  partitionLoop (fun mid => (internalKeyAt pg mid).map fun sep => decide (sep ≤ key)) (count pg) 0 (count pg)

def leafFindSlot (pg : Page) (key : Bytes) : Option (Except Nat Nat) :=
  findLoop (fun mid => (leafKeyAt pg mid).map fun k => cmp k key) (count pg) 0 (count pg)

namespace BPlusTree

def pageBytes (t : BPlusTree) (p : Nat) : Option Page := if p < t.mapped then some (t.mem p) else none

def setPage (t : BPlusTree) (p : Nat) (pg : Page) : BPlusTree :=
  {t with mem := Function.update t.mem p pg}

/-- A change of a page in place. -/
def modifyPage (t : BPlusTree) (p : Nat) (f : Page → Option Page) : Option BPlusTree := do
  let pg ← t.pageBytes p
  let pg ← f pg
  return t.setPage p pg

def setRightmostLeaf (t : BPlusTree) (p : Nat) : BPlusTree :=
  {t with metaPage := {t.metaPage with rightmostLeaf := p}}

def setFreeHead (t : BPlusTree) (p : Nat) : BPlusTree :=
  {t with metaPage := {t.metaPage with freeHead := p}}

def setPagesCounter (t : BPlusTree) (n : Nat) : BPlusTree :=
  {t with metaPage := {t.metaPage with pages := n}, stats := {t.stats with pages := n}}

def writeLeafPages (t : BPlusTree) (n : Nat) : BPlusTree :=
  {t with metaPage := {t.metaPage with leafPages := n}, stats := {t.stats with leafPages := n}}

def incLeafPages (t : BPlusTree) : BPlusTree := t.writeLeafPages (t.stats.leafPages+1)

def writeLeafEntryBytes (t : BPlusTree) (n : Nat) : BPlusTree :=
  {t with metaPage := {t.metaPage with leafEntryBytes := n}, stats := {t.stats with leafEntryBytes := n}}

def addLeafEntryBytes (t : BPlusTree) (d : Nat) : BPlusTree :=
  t.writeLeafEntryBytes (t.stats.leafEntryBytes+d)

def subLeafEntryBytes (t : BPlusTree) (d : Nat) : BPlusTree :=
  t.writeLeafEntryBytes (t.stats.leafEntryBytes-d)

def writeFreePages (t : BPlusTree) (n : Nat) : BPlusTree :=
  {t with metaPage := {t.metaPage with freePages := n}, stats := {t.stats with freePages := n}}

def incFreePages (t : BPlusTree) : BPlusTree := t.writeFreePages (t.stats.freePages+1)

def decFreePages (t : BPlusTree) : BPlusTree := t.writeFreePages (t.stats.freePages-1)

/-- The mapping is doubled, or grown to what is needed; a file has less than 2^63 bytes. -/
def ensureCapacity (t : BPlusTree) (pages : Nat) : Option BPlusTree :=
  let newSize := max (t.mapped*2) pages
  if pages ≤ t.mapped then some t
  else if newSize < 2^51 ∧ t.grants newSize then some {t with mapped := newSize}
  else none

def allocPage (t : BPlusTree) : Option (Nat × BPlusTree) :=
  if t.metaPage.freeHead ≠ 0 then do
    let pg ← t.pageBytes t.metaPage.freeHead
    return (t.metaPage.freeHead, (t.setFreeHead (freeLink pg)).decFreePages)
  else do
    let p := t.metaPage.pages
    let t ← t.ensureCapacity (p+1)
    return (p, t.setPagesCounter (p+1))

def freePage (t : BPlusTree) (p : Nat) : Option BPlusTree := do
  let t' ← t.modifyPage p fun pg => some (setFreeLink pg t.metaPage.freeHead)
  return (t'.setFreeHead p).incFreePages

/-- The pages of the freelist behind `last` that continue a descending run, `n` at most. -/
def extendRun (t : BPlusTree) : Nat → Nat → Nat → Option (Nat × Nat)
  | 0, last, runLen => some (last, runLen)
  | n+1, last, runLen => do
    let pg ← t.pageBytes last
    let next := freeLink pg
    if next = 0 ∨ next+1 ≠ last then some (last, runLen) else extendRun t n next (runLen+1)

/-- The link to a place in the freelist: that of the page before it, or the head. -/
def setLinkBehind (t : BPlusTree) (prev : Option Nat) (after : Nat) : Option BPlusTree :=
  match prev with
  | some p => t.modifyPage p fun pg => some (setFreeLink pg after)
  | none => some (t.setFreeHead after)

/-- The scan of `alloc_extent_from_freelist`; at most as many steps as there are pages. -/
def scanFreelist (t : BPlusTree) (nPages : Nat) : Nat → Option Nat → Nat → Option (Option (Nat × BPlusTree))
  | 0, _, _ => some none
  | fuel+1, prev, cur =>
    if cur = 0 then some none
    else do
      let (last, runLen) ← t.extendRun (nPages-1) cur 1
      if runLen = nPages then
        let pg ← t.pageBytes last
        let t' ← t.setLinkBehind prev (freeLink pg)
        return some (last, t'.writeFreePages (t.stats.freePages-nPages))
      else
        let pg ← t.pageBytes cur
        scanFreelist t nPages fuel (some cur) (freeLink pg)

def allocExtentFromFreelist (t : BPlusTree) (nPages : Nat) : Option (Option (Nat × BPlusTree)) :=
  if nPages = 0 then some none
  else if nPages = 1 then
    if t.metaPage.freeHead = 0 then some none
    else do
      let pg ← t.pageBytes t.metaPage.freeHead
      return some (t.metaPage.freeHead, (t.setFreeHead (freeLink pg)).decFreePages)
  else t.scanFreelist nPages t.metaPage.pages none t.metaPage.freeHead

def allocExtent (t : BPlusTree) (nPages : Nat) : Option (Nat × BPlusTree) := do
  match ← t.allocExtentFromFreelist nPages with
  | some found => return found
  | none =>
    let start := t.metaPage.pages
    let t ← t.ensureCapacity (start+nPages)
    return (start, t.setPagesCounter (start+nPages))

/-- `len.div_ceil(PAGE_SIZE)`. -/
def extentPages (len : Nat) : Nat := (len+4095)/4096

/-- The value goes to consecutive pages, the last of which it may not fill. -/
def storeExtent (t : BPlusTree) (start : Nat) (value : Bytes) : BPlusTree :=
  {t with mem := fun p =>
    if start ≤ p ∧ p < start+extentPages value.length then
      write (t.mem p) 0 ((value.drop ((p-start)*4096)).take 4096)
    else t.mem p}

def writeExtent (t : BPlusTree) (value : Bytes) : Option (Nat × BPlusTree) := do
  let (start, t) ← t.allocExtent (extentPages value.length)
  if start*4096+value.length ≤ t.mapped*4096 then return (start, t.storeExtent start value) else none

def readExtent (t : BPlusTree) (start len : Nat) : Option Bytes :=
  if start*4096+len ≤ t.mapped*4096 then
    some ((List.range len).map fun j => t.mem (start+j/4096) (j%4096))
  else none

/-- `for i in 0..n_pages`. -/
def freePages (t : BPlusTree) (start : Nat) : Nat → Nat → Option BPlusTree
  | 0, _ => some t
  | n+1, i => do
    let t ← t.freePage (start+i)
    freePages t start n (i+1)

def freeExtent (t : BPlusTree) (start valueLen : Nat) : Option BPlusTree :=
  t.freePages start (extentPages valueLen) 0

def initLeaf (t : BPlusTree) (page : Nat) (root : Bool) : Option BPlusTree := do
  let t ← t.modifyPage page fun pg => some (write pg 0
    ([1, if root then 1 else 0] ++ leBytes 2 0 ++ leBytes 4 4096 ++ leBytes 8 0 ++ leBytes 8 0))
  return t.incLeafPages

def initInternal (t : BPlusTree) (page : Nat) : Option BPlusTree :=
  t.modifyPage page fun pg => some (write pg 0 ([2, 0] ++ leBytes 2 0 ++ leBytes 4 4096 ++ leBytes 8 0))

/-- The value of an entry: behind the key, or in its extent. -/
def valueBytesAt (t : BPlusTree) (leafPage i : Nat) : Option Bytes := do
  let leaf ← t.pageBytes leafPage
  let eo ← slot? 24 4096 leaf i
  let kl ← u16? leaf eo
  let rawVl ← u32? leaf (eo+2)
  if isOvfl rawVl then
    let start ← u64? leaf (eo+6+kl)
    t.readExtent start (realLen rawVl)
  else read? 4096 leaf (eo+6+kl) rawVl

/-- The child to descend to. -/
def internalSearch (t : BPlusTree) (page : Nat) (key : Bytes) : Option Nat := do
  let buf ← t.pageBytes page
  let lo ← separatorAfter buf key
  if lo = 0 then return leftmostChild buf else internalChildAt buf (lo-1)

/-- The tree of a file that `create` has made. -/
def fresh (config : Config) (grants : Nat → Bool) : BPlusTree :=
  { mem := fun p => if p = 1 then write (fun _ => 0) 0
      ([1, 1] ++ leBytes 2 0 ++ leBytes 4 4096 ++ leBytes 8 0 ++ leBytes 8 0) else fun _ => 0
    mapped := max config.initialCapacityPages 2
    grants := grants
    metaPage := ⟨1, 0, 2, 0, 1, 1, 0, 0⟩
    stats := ⟨0, 2, 0, 1, 0⟩
    config := config }

def create (config : Config) (grants : Nat → Bool) : Option BPlusTree :=
  let initialPages := max config.initialCapacityPages 2
  if initialPages < 2^51 ∧ grants initialPages then some (fresh config grants) else none

end BPlusTree

end ZenDB
