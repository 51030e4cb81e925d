/-
The maps of Wren.

A map is a hash table with open addressing that grows when three quarters of it are in use
and shrinks when its entries would fit into half of it.  Keys are values that never change.
They are equal as `wrenValuesEqual` has it, and hashed by what they consist of: numbers by
their bits, strings by their bytes, classes by their names, ranges by their ends.

The counts are 32 bits wide.  `charValue` is the value of a byte as a `char`, which may be
signed or not.
-/
import Wrenegade.Lib.Probing
import Wrenegade.Model.Primitive

namespace Wrenegade

namespace WrenVM

open Double Probing

/-! ### Hashes -/

/-- Nothing says whether a `char` has a sign. -/
inductive CharKind
  | signed
  | unsigned
deriving DecidableEq

def CharKind.charValue : CharKind → Byte → BitVec 32
  | .signed, b => b.toBitVec.signExtend 32
  | .unsigned, b => b.toBitVec.setWidth 32

def hashBits (bits : Bits) : BitVec 32 :=
  let result := bits.extractLsb' 0 32 ^^^ bits.extractLsb' 32 32
  let result := result ^^^ (result >>> 20 ^^^ result >>> 12)
  result ^^^ (result >>> 7 ^^^ result >>> 4)

/-- FNV-1a. -/
def hashString (char : CharKind) (string : List Byte) : BitVec 32 :=
  string.foldl (fun hash b => (hash ^^^ char.charValue b) * 16777619) 2166136261

/-- Only immutable objects can be hashed. -/
def hashObject (char : CharKind) : Obj → BitVec 32
  | .class_ name => hashString char name
  | .fn arity codeCount => hashBits (ofNat arity) ^^^ hashBits (ofNat codeCount)
  | .range range => hashBits range.from_ ^^^ hashBits range.to_
  | .string value => hashString char value
  | .other => 0

/-- The bits of the values that are no numbers are those of quiet NaNs with a tag. -/
def singletonBits (tag : Nat) : Bits := BitVec.ofNat 64 (0x7ffc000000000000 + tag)

def hashValue (char : CharKind) (heap : Heap) : Value → BitVec 32
  | .null => hashBits (singletonBits 1)
  | .bool false => hashBits (singletonBits 2)
  | .bool true => hashBits (singletonBits 3)
  | .num x => hashBits x
  | .obj address => hashObject char (heap address)

/-! ### Equality -/

def ObjRange.equal (a b : ObjRange) : Bool :=
  Double.equal a.from_ b.from_ && Double.equal a.to_ b.to_ && a.isInclusive == b.isInclusive

/-- The hashes of equal strings are equal, so comparing them first makes no difference. -/
def Obj.equal : Obj → Obj → Bool
  | .range a, .range b => a.equal b
  | .string a, .string b => a = b
  | _, _ => false

def wrenValuesEqual (heap : Heap) (a b : Value) : Bool :=
  if a = b then true
  else
    match a, b with
    | .obj i, .obj j => (heap i).equal (heap j)
    | _, _ => false

/-! ### Keys -/

def isKey (heap : Heap) : Value → Bool
  | .obj address =>
      match heap address with
      | .class_ _ | .range _ | .string _ => true
      | _ => false
  | _ => true

/-- A value that may be a key. -/
abbrev Key (heap : Heap) := { key : Value // isKey heap key = true }

def validateKey (heap : Heap) (arg : Value) : Result (Key heap) :=
  if h : isKey heap arg = true then pure ⟨arg, h⟩
  else throw (.error "Key must be a value type.")

instance (heap : Heap) : BEq (Key heap) where
  beq a b := wrenValuesEqual heap a.val b.val

def Key.hash (char : CharKind) {heap : Heap} (key : Key heap) : Nat :=
  (hashValue char heap key.val).toNat

/-! ### The table -/

def MIN_CAPACITY : Nat := 16

def GROW_FACTOR : Nat := 2

def MAP_LOAD_PERCENT : Nat := 75

/-- An entry whose key is undefined is empty, or a tombstone if its value is not `false`. -/
structure ObjMap (heap : Heap) where
  count : Nat
  entries : Table (Key heap) Value

variable {heap : Heap}

def ObjMap.capacity (map : ObjMap heap) : Nat := map.entries.length

def ObjMap.entry (map : ObjMap heap) (index : Nat) : Option (Key heap × Value) :=
  (map.entries[index]?).bind Slot.content

def wrenNewMap : ObjMap heap := ⟨0, []⟩

section Operations

variable (char : CharKind)

/-- A map without entries has no place to point at either. -/
def findEntry (entries : Table (Key heap) Value) (key : Key heap) : Result Probe :=
  if entries.length = 0 then pure .full
  else
    match find (Key.hash char) entries key with
    | .full => throw (.assertion "Map should have tombstones or empty entries.")
    | probe => pure probe

def insertEntry (entries : Table (Key heap) Value) (key : Key heap) (value : Value) :
    Result (Bool × Table (Key heap) Value) :=
  if entries.length = 0 then throw (.assertion "Should ensure capacity before inserting.")
  else
    match put (Key.hash char) entries key value with
    | none => throw (.assertion "Map should have tombstones or empty entries.")
    | some r => pure r

def resizeMap (map : ObjMap heap) (capacity : Nat) : Result (ObjMap heap) := do
  let entries ← (contents map.entries).foldlM
    (fun entries e => Prod.snd <$> insertEntry char entries e.1 e.2)
    (List.replicate capacity .empty)
  return { map with entries }

/-- `none` is the undefined value. -/
def wrenMapGet (map : ObjMap heap) (key : Key heap) : Result (Option Value) := do
  match ← findEntry char map.entries key with
  | .found index => return (map.entry index).map Prod.snd
  | _ => return none

/-- The first part of `wrenMapSet`: if the map is getting too full, make room. -/
def makeRoom (map : ObjMap heap) : Result (ObjMap heap) :=
  if (map.count + 1) % 2 ^ 32 > map.capacity * MAP_LOAD_PERCENT % 2 ^ 32 / 100 then
    resizeMap char map (max (map.capacity * GROW_FACTOR % 2 ^ 32) MIN_CAPACITY)
  else pure map

def wrenMapSet (map : ObjMap heap) (key : Key heap) (value : Value) : Result (ObjMap heap) := do
  let map ← makeRoom char map
  let (added, entries) ← insertEntry char map.entries key value
  return { entries, count := if added then (map.count + 1) % 2 ^ 32 else map.count }

def wrenMapClear : ObjMap heap := ⟨0, []⟩

/-- The last part of `wrenMapRemoveKey`: a map that is empty has no table, and one that is
getting empty a smaller one. -/
def freeRoom (map : ObjMap heap) : Result (ObjMap heap) :=
  if map.count = 0 then pure wrenMapClear
  else if map.capacity > MIN_CAPACITY ∧
      map.count < map.capacity / GROW_FACTOR * MAP_LOAD_PERCENT % 2 ^ 32 / 100 then
    resizeMap char map (max (map.capacity / GROW_FACTOR) MIN_CAPACITY)
  else pure map

def wrenMapRemoveKey (map : ObjMap heap) (key : Key heap) : Result (Value × ObjMap heap) := do
  match ← findEntry char map.entries key with
  | .found index =>
      let value := ((map.entry index).map Prod.snd).getD .null
      let map ← freeRoom char
        { entries := map.entries.set index .tombstone, count := (map.count + (2 ^ 32 - 1)) % 2 ^ 32 }
      return (value, map)
  | _ => return (.null, map)

end Operations

/-! ### The primitives -/

/-- What a program does with a map. -/
inductive MapCall
  | subscript (key : Value)
  | subscriptSetter (key value : Value)
  | addCore (key value : Value)
  | clear
  | containsKey (key : Value)
  | count
  | remove (key : Value)
deriving DecidableEq

/-- What a primitive answers; `map_addCore` answers the map itself. -/
inductive MapAnswer
  | value (v : Value)
  | map
deriving DecidableEq

section Primitives

variable (char : CharKind)

def map_subscript (map : ObjMap heap) (arg : Value) : Result MapAnswer := do
  let key ← validateKey heap arg
  return .value ((← wrenMapGet char map key).getD .null)

def map_subscriptSetter (map : ObjMap heap) (arg value : Value) :
    Result (MapAnswer × ObjMap heap) := do
  let key ← validateKey heap arg
  return (.value value, ← wrenMapSet char map key value)

def map_addCore (map : ObjMap heap) (arg value : Value) : Result (MapAnswer × ObjMap heap) := do
  let key ← validateKey heap arg
  return (.map, ← wrenMapSet char map key value)

def map_containsKey (map : ObjMap heap) (arg : Value) : Result MapAnswer := do
  let key ← validateKey heap arg
  return .value (.bool (← wrenMapGet char map key).isSome)

def map_count (map : ObjMap heap) : MapAnswer := .value (.num (ofNat map.count))

def map_remove (map : ObjMap heap) (arg : Value) : Result (MapAnswer × ObjMap heap) := do
  let key ← validateKey heap arg
  let (value, map) ← wrenMapRemoveKey char map key
  return (.value value, map)

def MapCall.perform (map : ObjMap heap) : MapCall → Result (MapAnswer × ObjMap heap)
  | .subscript key => do return (← map_subscript char map key, map)
  | .subscriptSetter key value => map_subscriptSetter char map key value
  | .addCore key value => map_addCore char map key value
  | .clear => return (.value .null, wrenMapClear)
  | .containsKey key => do return (← map_containsKey char map key, map)
  | .count => return (map_count map, map)
  | .remove key => map_remove char map key

end Primitives

/-- The calls one after the other.  An error leaves the map to the rest of the program. -/
def runMap (char : CharKind) (map : ObjMap heap) :
    List MapCall → Result (List (Except Text MapAnswer) × ObjMap heap)
  | [] => return ([], map)
  | call :: calls =>
      match call.perform char map with
      | .ok (answer, map) => do
          let (answers, map) ← runMap char map calls
          return (.ok answer :: answers, map)
      | .error (.error message) => do
          let (answers, map) ← runMap char map calls
          return (.error message :: answers, map)
      | .error failure => throw failure

/-! ### Iteration -/

/-- The first used entry from an index on, if any. -/
def usedEntry (map : ObjMap heap) (index : Nat) : Option Nat :=
  (List.range' index (map.capacity - index)).find? fun index => (map.entry index).isSome

/-- `false` is the end. -/
def nextEntry (map : ObjMap heap) (index : Nat) : Value :=
  (usedEntry map index).elim (.bool false) fun index => .num (ofNat index)

def map_iterate (map : ObjMap heap) (iterator : Value) : Result Value := do
  if map.count = 0 then return .bool false
  match iterator with
  | .null => return nextEntry map 0
  | _ =>
      let value ← validateInt iterator "Iterator"
      if value.lt (.finite 0) then return .bool false
      -- the conversion to 32 bits
      else if ¬ value.lt (.finite (2 ^ 32)) then throw .undefined
      else if map.capacity ≤ value.toNat then return .bool false
      else return nextEntry map (value.toNat + 1)

def map_keyIteratorValue (map : ObjMap heap) (iterator : Value) : Result Value := do
  let index ← validateIndex iterator map.capacity "Iterator"
  match map.entry index with
  | some (key, _) => return key.val
  | none => throw (.error "Invalid map iterator.")

def map_valueIteratorValue (map : ObjMap heap) (iterator : Value) : Result Value := do
  let index ← validateIndex iterator map.capacity "Iterator"
  match map.entry index with
  | some (_, value) => return value
  | none => throw (.error "Invalid map iterator.")

/-- `for (entry in map)`. -/
def iterateMap (map : ObjMap heap) : Result (List (Value × Value)) :=
  forLoop (map_iterate map)
    (fun iterator => do
      return (← map_keyIteratorValue map iterator, ← map_valueIteratorValue map iterator))
    (map.capacity + 1) .null

end WrenVM

end Wrenegade
