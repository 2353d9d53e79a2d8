import ZenDB.BPlusTree.Pages

namespace ZenDB

open Memory Slotted

/-! The write path: entries of leaves and internal pages, and the splits of full pages. -/

/-- `order` of a split: the slot offsets of the old page, and `none` where the new entry goes. -/
def splitOrder (header : Nat) (scratch : Page) (ip : Nat) : Option (List (Option Nat)) := do
  let before ← (List.range ip).mapM (slot? header 4096 scratch)
  let after ← (List.range' ip (count scratch-ip)).mapM (slot? header 4096 scratch)
  return before.map some ++ none :: after.map some

/-- The number of entries whose bytes reach `half`. -/
def midLoop (half : Nat) : List Nat → Nat → Nat → Nat
  | [], _, _ => 1
  | size :: sizes, used, j => if used+size ≥ half then j+1 else midLoop half sizes (used+size) (j+1)

/-- The byte midpoint; `clamp` panics for a single entry. -/
def splitMid (sizes : List Nat) : Option Nat :=
  if sizes.length < 2 then none
  else some (max 1 (min (midLoop (sizes.sum/2) sizes 0 0) (sizes.length-1)))

/-- The bytes of an old leaf entry with its slot. -/
def scratchLeafSize (scratch : Page) (eo : Nat) : Option Nat := do
  let kl ← u16? scratch eo
  let rawVl ← u32? scratch (eo+2)
  return 6+kl+payloadLen rawVl+2

def scratchInternalSize (scratch : Page) (eo : Nat) : Option Nat := do
  let kl ← u16? scratch eo
  let key ← read? 4096 scratch (eo+10) kl
  return 10+key.length+2

/-- `entry_size`. -/
def splitSize (old : Nat → Option Nat) (new : Nat) : Option Nat → Option Nat
  | none => some new
  | some eo => old eo

/-- `key_bytes_of`; `front` is what stands before the key in an entry. -/
def splitKey (front : Nat) (scratch : Page) (key : Bytes) : Option Nat → Option Bytes
  | none => some key
  | some eo => do
    let kl ← u16? scratch eo
    read? 4096 scratch (eo+front) kl

/-- `child_of`. -/
def splitChild (scratch : Page) (child : Nat) : Option Nat → Option Nat
  | none => some child
  | some eo => u64? scratch (eo+2)

def leafAppendFromScratchSlot (pg scratch : Page) (eo : Nat) : Option Page := do
  let kl ← u16? scratch eo
  let rawVl ← u32? scratch (eo+2)
  let entry ← read? 4096 scratch eo (6+kl+payloadLen rawVl)
  appendEntry 24 4096 pg entry

def internalAppendEntry (pg : Page) (key : Bytes) (child : Nat) : Option Page :=
  appendEntry 16 4096 pg (internalEntry key child)

def internalAppendFromScratchSlot (pg scratch : Page) (eo : Nat) : Option Page := do
  let kl ← u16? scratch eo
  let entry ← read? 4096 scratch eo (10+kl)
  appendEntry 16 4096 pg entry

namespace BPlusTree

/-- The entry is written at `nd`, after its extent if it has one. -/
def writeLeafEntryRaw (t : BPlusTree) (page nd : Nat) (key value : Bytes) : Option BPlusTree :=
  if needsExtent key value then do
    let (start, t) ← t.writeExtent value
    t.modifyPage page fun pg =>
      write? 4096 pg nd (leafEntry key (ovflLen value.length) (leBytes 8 start))
  else t.modifyPage page fun pg => write? 4096 pg nd (leafEntry key value.length value)

def leafAppendInlineEntry (t : BPlusTree) (page : Nat) (key value : Bytes) : Option BPlusTree := do
  let leaf ← t.pageBytes page
  if leafEntrySize key value ≤ dataOff leaf then
    let nd := dataOff leaf-leafEntrySize key value
    let t ← t.writeLeafEntryRaw page nd key value
    t.modifyPage page fun pg => linkSlot 24 4096 pg (count leaf) (count leaf) nd
  else none

/-- The entries of `order` are appended to a leaf. -/
def leafRepack (scratch : Page) (key value : Bytes) (page : Nat) :
    List (Option Nat) → BPlusTree → Option BPlusTree
  | [], t => some t
  | none :: order, t => do
    let t ← t.leafAppendInlineEntry page key value
    leafRepack scratch key value page order t
  | some eo :: order, t => do
    let t ← t.modifyPage page fun pg => leafAppendFromScratchSlot pg scratch eo
    leafRepack scratch key value page order t

/-- The leaf behind a split gets its new predecessor; without one the new leaf is the rightmost. -/
def linkBack (t : BPlusTree) (oldNext right : Nat) : Option BPlusTree :=
  if oldNext ≠ 0 then t.modifyPage oldNext fun pg => some (setPrevLeaf pg right)
  else some (t.setRightmostLeaf right)

/-- The entries before `mid` go to the old leaf and the others to the new one. -/
def leafRepackBoth (scratch : Page) (key value : Bytes) (page right : Nat) (order : List (Option Nat))
    (mid : Nat) (t : BPlusTree) : Option BPlusTree := do
  let t ← leafRepack scratch key value page (order.take mid) t
  leafRepack scratch key value right (order.drop mid) t

/-- The new leaf is linked between `page` and `oldNext`. -/
def linkRight (t : BPlusTree) (page right oldNext : Nat) : Option BPlusTree := do
  let t ← t.modifyPage right fun pg => some (setPrevLeaf (setNextLeaf pg oldNext) page)
  let t ← t.modifyPage page fun pg => some (setNextLeaf pg right)
  t.linkBack oldNext right

/-- The part of `leaf_split` that makes the new leaf. -/
def leafSplitAt (t : BPlusTree) (scratch : Page) (page : Nat) (key value : Bytes)
    (order : List (Option Nat)) (mid : Nat) : Option (BPlusTree × Nat) := do
  let (right, t) ← t.allocPage
  let t ← t.initLeaf right false
  let t ← leafRepackBoth scratch key value page right order mid t
  let t := t.addLeafEntryBytes (leafEntryBytes key.length (payloadOf key value))
  let t ← t.linkRight page right (nextLeaf scratch)
  return (t, right)

def leafSplit (t : BPlusTree) (page : Nat) (key value : Bytes) : Option (BPlusTree × Option PageSplit) := do
  let scratch ← t.pageBytes page
  let ip ← partitionLoop (fun m => (leafKeyAt scratch m).map fun k => decide (k < key)) (count scratch)
    0 (count scratch)
  let order ← splitOrder 24 scratch ip
  let newBytes := leafEntryBytes key.length (payloadOf key value)
  let sizes ← order.mapM (splitSize (scratchLeafSize scratch) newBytes)
  let t ← t.modifyPage page fun pg => some (resetSlots pg)
  if sizes.sum ≤ 4096-24 then
    let t ← leafRepack scratch key value page order t
    return (t.addLeafEntryBytes newBytes, none)
  else
    let mid ← splitMid sizes
    let leftLast ← order[mid-1]? >>= splitKey 6 scratch key
    let rightFirst ← order[mid]? >>= splitKey 6 scratch key
    let (t, right) ← t.leafSplitAt scratch page key value order mid
    return (t, some ⟨page, right, truncatedSeparator leftLast rightFirst⟩)

/-- `count` and `data_off` are those of the caller. -/
def leafRemoveEntry (t : BPlusTree) (page pos count dataOff : Nat) : Option BPlusTree := do
  let leaf ← t.pageBytes page
  let eo ← slot? 24 4096 leaf pos
  let kl ← u16? leaf eo
  let rawVl ← u32? leaf (eo+2)
  let t := t.subLeafEntryBytes (leafEntryBytes kl (payloadLen rawVl))
  t.modifyPage page fun pg => removeSlot 24 4096 pg pos count dataOff eo (6+kl+payloadLen rawVl)

/-- The `Err(pos)` branch of `leaf_insert_bytes`. -/
def leafInsertNew (t : BPlusTree) (page : Nat) (key value : Bytes) (pos : Nat) :
    Option (BPlusTree × Option PageSplit) := do
  let leaf ← t.pageBytes page
  if 24+count leaf*2+(leafEntrySize key value+2) > dataOff leaf then t.leafSplit page key value
  else
    let t ← t.modifyPage page fun pg => shiftRight 24 4096 pos (count leaf) pg
    let nd := dataOff leaf-leafEntrySize key value
    let t ← t.writeLeafEntryRaw page nd key value
    let t ← t.modifyPage page fun pg => linkSlot 24 4096 pg pos (count leaf) nd
    return (t.addLeafEntryBytes (leafEntryBytes key.length (payloadOf key value)), none)

/-- The extent of the entry at `eo`, if it has one, goes to the freelist. -/
def freeValue (t : BPlusTree) (leaf : Page) (eo : Nat) : Option BPlusTree := do
  let kl ← u16? leaf eo
  let rawVl ← u32? leaf (eo+2)
  if isOvfl rawVl then
    let start ← u64? leaf (eo+6+kl)
    t.freeExtent start (realLen rawVl)
  else return t

def leafInsertBytes (t : BPlusTree) (page : Nat) (key value : Bytes) (slot : Except Nat Nat) :
    Option (BPlusTree × Option PageSplit) :=
  match slot with
  | .error pos => t.leafInsertNew page key value pos
  | .ok i => do
    let leaf ← t.pageBytes page
    let eo ← slot? 24 4096 leaf i
    let kl ← u16? leaf eo
    let rawVl ← u32? leaf (eo+2)
    let t ← t.freeValue leaf eo
    if !isOvfl rawVl && !needsExtent key value && rawVl == value.length then
      let t ← t.modifyPage page fun pg => write? 4096 pg (eo+6+kl) value
      return (t, none)
    else
      let t ← t.leafRemoveEntry page i (count leaf) (dataOff leaf)
      t.leafInsertNew page key value i

/-- The entries of `order` are appended to an internal page. -/
def internalRepack (scratch : Page) (key : Bytes) (child : Nat) :
    List (Option Nat) → Page → Option Page
  | [], pg => some pg
  | none :: order, pg => do
    let pg ← internalAppendEntry pg key child
    internalRepack scratch key child order pg
  | some eo :: order, pg => do
    let pg ← internalAppendFromScratchSlot pg scratch eo
    internalRepack scratch key child order pg

/-- The part of `internal_split` that makes the new page. -/
def internalSplitAt (t : BPlusTree) (scratch : Page) (page : Nat) (key : Bytes) (child : Nat)
    (order : List (Option Nat)) (mid rightLeftmost : Nat) : Option (BPlusTree × Nat) := do
  let (right, t) ← t.allocPage
  let t ← t.initInternal right
  let t ← t.modifyPage right fun pg => some (setLeftmostChild pg rightLeftmost)
  let t ← t.modifyPage page (internalRepack scratch key child (order.take mid))
  let t ← t.modifyPage right (internalRepack scratch key child (order.drop (mid+1)))
  return (t, right)

def internalSplit (t : BPlusTree) (page : Nat) (key : Bytes) (child : Nat) :
    Option (BPlusTree × Option PageSplit) := do
  let scratch ← t.pageBytes page
  let ip ← separatorAfter scratch key
  let order ← splitOrder 16 scratch ip
  let sizes ← order.mapM (splitSize (scratchInternalSize scratch) (10+key.length+2))
  let t ← t.modifyPage page fun pg => some (resetSlots pg)
  if sizes.sum ≤ 4096-16 then
    let t ← t.modifyPage page (internalRepack scratch key child order)
    return (t, none)
  else
    let mid ← splitMid sizes
    let leftLast ← order[mid-1]? >>= splitKey 10 scratch key
    let lifted ← order[mid]?
    let rightFirst ← splitKey 10 scratch key lifted
    -- the child of the lifted entry becomes the leftmost one of the right page
    let rightLeftmost ← splitChild scratch child lifted
    let (t, right) ← t.internalSplitAt scratch page key child order mid rightLeftmost
    return (t, some ⟨page, right, truncatedSeparator leftLast rightFirst⟩)

end BPlusTree

end ZenDB
