import Mathlib.Data.List.Basic
import Mathlib.Data.Finset.Basic

/-!
# The hash table of minzip

`minzip/Hash.c`: open addressing with linear probing and tombstones. Items are pointers that are
neither `NULL` nor `HASH_TOMBSTONE`. `unsigned int` and `size_t` are 32 bits; `calloc n size` says
whether the allocation is granted.

The searches walk the array by a pointer and stop at an empty slot. `search` gives `none` where the
source would read outside the array or never stop: it has one step for each slot and one more, and
a search that is still going after that is back where it began.
-/

set_option autoImplicit false

namespace OpenRecovery.Minzip

variable {α : Type}

/-- `void* data` of a slot. -/
inductive Data (α : Type) where
  | null
  | tombstone
  | item (p : α)
deriving DecidableEq

def Data.isNull : Data α → Bool
  | .null => true
  | _ => false

def Data.isTombstone : Data α → Bool
  | .tombstone => true
  | _ => false

def Data.item? : Data α → Option α
  | .item p => some p
  | _ => none

section Data

variable (p : α)

@[simp] theorem Data.isNull_null : (Data.null : Data α).isNull = true := rfl
@[simp] theorem Data.isNull_tombstone : (Data.tombstone : Data α).isNull = false := rfl
@[simp] theorem Data.isNull_item : (Data.item p).isNull = false := rfl
@[simp] theorem Data.isTombstone_null : (Data.null : Data α).isTombstone = false := rfl
@[simp] theorem Data.isTombstone_tombstone : (Data.tombstone : Data α).isTombstone = true := rfl
@[simp] theorem Data.isTombstone_item : (Data.item p).isTombstone = false := rfl
@[simp] theorem Data.item?_null : (Data.null : Data α).item? = none := rfl
@[simp] theorem Data.item?_tombstone : (Data.tombstone : Data α).item? = none := rfl
@[simp] theorem Data.item?_item : (Data.item p).item? = some p := rfl

theorem Data.eq_null {d : Data α} (h : d.isNull = true) : d = .null := by
  cases d with
  | null => rfl
  | tombstone => cases h
  | item p => cases h

end Data

structure HashEntry (α : Type) where
  hashValue : BitVec 32
  data : Data α

/-- A slot as `calloc` leaves it. -/
def HashEntry.zero : HashEntry α := ⟨0, .null⟩

structure HashTable (α : Type) where
  tableSize : Int
  numEntries : Int
  numDeadEntries : Int
  pEntries : List (HashEntry α)
  /-- Whether there is a function to free items with. -/
  freeFunc : Bool

/-- What becomes of a call. -/
inductive Outcome (β : Type) where
  | returned (result : β)
  /-- `abort()` after a failed resize -/
  | aborted
  /-- an `assert` that does not hold -/
  | asserted
  /-- an access outside the array, or a loop that does not end -/
  | undefined
deriving DecidableEq

def Outcome.bind {β γ : Type} : Outcome β → (β → Outcome γ) → Outcome γ
  | .returned b, f => f b
  | .aborted, _ => .aborted
  | .asserted, _ => .asserted
  | .undefined, _ => .undefined

def LOAD_NUMER : Int := 5

def LOAD_DENOM : Int := 8

/-- `sizeof(HashTable)`, which is also what is allocated for a slot. -/
def sizeofHashTable : Nat := 20

def mzHashSize (size : BitVec 32) : BitVec 32 :=
  (size * BitVec.ofInt 32 LOAD_DENOM) / BitVec.ofInt 32 LOAD_NUMER + 1

def roundUpPower2 (val : BitVec 32) : BitVec 32 :=
  let val := val - 1
  let val := val ||| val >>> 1
  let val := val ||| val >>> 2
  let val := val ||| val >>> 4
  let val := val ||| val >>> 8
  let val := val ||| val >>> 16
  val + 1

/-- The new table, or `none` for `NULL`. -/
def mzHashTableCreate (calloc : Nat → Nat → Bool) (initialSize : BitVec 32) (freeFunc : Bool) :
    Outcome (Option (HashTable α)) :=
  if initialSize = 0 then .asserted
  else
    let size := roundUpPower2 initialSize
    if calloc size.toNat sizeofHashTable then
      .returned (some ⟨size.toInt, 0, 0, List.replicate size.toNat .zero, freeFunc⟩)
    else .returned none

/-- The emptied table, and the items the free function is called with. -/
def mzHashTableClear (t : HashTable α) : HashTable α × List α :=
  ({ t with
      pEntries := t.pEntries.map fun e => { e with data := .null }
      numEntries := 0
      numDeadEntries := 0 },
    if t.freeFunc then t.pEntries.filterMap fun e => e.data.item? else [])

def countTombStones (t : HashTable α) : Int := (t.pEntries.countP fun e => e.data.isTombstone : Nat)

/-- `h & (size - 1)` as an index. -/
def slotOf (h : BitVec 32) (size : Int) : Nat := (h &&& BitVec.ofInt 32 (size - 1)).toNat

/-- The inner loop of `resizeHash`: the first empty slot, wrapping around. -/
def freeSlot (es : List (HashEntry α)) (newSize : Int) : Nat → Nat → Option Nat
  | 0, _ => none
  | fuel + 1, newIdx =>
    match es[newIdx]? with
    | none => none
    | some e =>
      if e.data.isNull then some newIdx
      else freeSlot es newSize fuel (slotOf (BitVec.ofNat 32 (newIdx + 1)) newSize)

/-- The outer loop of `resizeHash`: the live entries of the old array go to the new one. -/
def moveEntries (newSize : Int) :
    List (HashEntry α) → List (HashEntry α) → Option (List (HashEntry α))
  | [], new => some new
  | e :: old, new =>
    match e.data with
    | .null | .tombstone => moveEntries newSize old new
    | .item p =>
      match freeSlot new newSize (new.length + 1) (slotOf e.hashValue newSize) with
      | none => none
      | some newIdx => moveEntries newSize old (new.set newIdx ⟨e.hashValue, .item p⟩)

/-- The resized table, or `none` when there is no memory for it. -/
def resizeHash (calloc : Nat → Nat → Bool) (t : HashTable α) (newSize : Int) :
    Outcome (Option (HashTable α)) :=
  if countTombStones t ≠ t.numDeadEntries then .asserted
  else
    let size := (BitVec.ofInt 32 newSize).toNat
    if calloc size sizeofHashTable then
      match moveEntries newSize t.pEntries (List.replicate size .zero) with
      | none => .undefined
      | some new =>
        let t' := { t with pEntries := new, tableSize := newSize, numDeadEntries := 0 }
        if countTombStones t' ≠ 0 then .asserted else .returned (some t')
    else .returned none

/-- Where a search stops: at a slot, or past the last one of a table with a single slot. -/
inductive Stop where
  | at (i : Nat)
  | pastEnd
deriving DecidableEq

/-- The loop of `mzHashTableLookup` and `mzHashTableRemove` from slot `i`: on to the first slot that
is empty or `found`, wrapping around to the start. -/
def search (found : HashEntry α → Bool) (t : HashTable α) : Nat → Nat → Option Stop
  | 0, _ => none
  | fuel + 1, i =>
    match t.pEntries[i]? with
    | none => none
    | some e =>
      if e.data.isNull then some (.at i)
      else if found e then some (.at i)
      else if ((i + 1 : Nat) : Int) = t.tableSize then
        -- edge case - single-entry table
        if t.tableSize = 1 then some .pastEnd else search found t fuel 0
      else search found t fuel (i + 1)

/-- The test for a match in `mzHashTableLookup`. -/
def matches? (itemHash : BitVec 32) (item : α) (cmpFunc : α → α → Int) (e : HashEntry α) : Bool :=
  match e.data with
  | .item p => e.hashValue = itemHash && cmpFunc p item = 0
  | _ => false

/-- The end of `mzHashTableLookup` for a new item that was put into the table. -/
def afterAdd (calloc : Nat → Nat → Bool) (t : HashTable α) (item : α) :
    Outcome (HashTable α × Data α) :=
  let finish := fun t : HashTable α =>
    if t.numEntries < t.tableSize then .returned (t, .item item) else .asserted
  if (t.numEntries + t.numDeadEntries) * LOAD_DENOM > t.tableSize * LOAD_NUMER then
    (resizeHash calloc t (t.tableSize * 2)).bind fun
      | none => .aborted
      | some t => finish t
  else finish t

def mzHashTableLookup (calloc : Nat → Nat → Bool) (t : HashTable α) (itemHash : BitVec 32)
    (item : α) (cmpFunc : α → α → Int) (doAdd : Bool) : Outcome (HashTable α × Data α) :=
  if ¬ t.tableSize > 0 then .asserted
  else
    match search (matches? itemHash item cmpFunc) t (t.pEntries.length + 1)
        (slotOf itemHash t.tableSize) with
    | none | some .pastEnd => .undefined
    | some (.at i) =>
      match t.pEntries[i]? with
      | none => .undefined
      | some e =>
        if e.data.isNull then
          if doAdd then
            afterAdd calloc
              { t with
                pEntries := t.pEntries.set i ⟨itemHash, .item item⟩
                numEntries := t.numEntries + 1 }
              item
          else .returned (t, .null)
        else .returned (t, e.data)

def mzHashTableRemove [DecidableEq α] (t : HashTable α) (itemHash : BitVec 32) (item : α) :
    Outcome (HashTable α × Bool) :=
  if ¬ t.tableSize > 0 then .asserted
  else
    match search (fun e => e.data = .item item) t (t.pEntries.length + 1)
        (slotOf itemHash t.tableSize) with
    | none => .undefined
    | some .pastEnd => .returned (t, false)
    | some (.at i) =>
      match t.pEntries[i]? with
      | none => .undefined
      | some e =>
        if e.data = .item item then
          .returned
            ({ t with
                pEntries := t.pEntries.set i { e with data := .tombstone }
                numEntries := t.numEntries - 1
                numDeadEntries := t.numDeadEntries + 1 },
              true)
        else .returned (t, false)

/-! ## Sequences of calls -/

/-- The calls a user of a table makes; each gives the hash of its item. -/
inductive Op (α : Type) where
  | lookup (item : α) (doAdd : Bool)
  | remove (item : α)
  | clear

/-- What a call gives back: the pointer, whether the item was there, the items freed. -/
inductive Answer (α : Type) where
  | found (data : Data α)
  | removed (ok : Bool)
  | cleared (freed : List α)

section Runs

variable [DecidableEq α] (calloc : Nat → Nat → Bool) (hash : α → BitVec 32)
  (cmpFunc : α → α → Int)

def Op.exec (t : HashTable α) : Op α → Outcome (HashTable α × Answer α)
  | .lookup item doAdd =>
    (mzHashTableLookup calloc t (hash item) item cmpFunc doAdd).bind fun r =>
      .returned (r.1, .found r.2)
  | .remove item =>
    (mzHashTableRemove t (hash item) item).bind fun r => .returned (r.1, .removed r.2)
  | .clear => .returned ((mzHashTableClear t).1, .cleared (mzHashTableClear t).2)

/-- A sequence of calls on one table. -/
def runOps (t : HashTable α) : List (Op α) → Outcome (HashTable α × List (Answer α))
  | [] => .returned (t, [])
  | op :: ops =>
    (op.exec calloc hash cmpFunc t).bind fun r =>
      (runOps r.1 ops).bind fun r' => .returned (r'.1, r.2 :: r'.2)

end Runs

end OpenRecovery.Minzip
