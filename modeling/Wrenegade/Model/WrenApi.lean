/-
The part of the C API of Wren that passes values through slots.

A slot holds a Wren value.  Of a value only what the API tells apart is kept:
lists with their elements, foreign objects with the data behind them, and one
constructor for everything the API does not give access to.  Every function
checks its slot, and a violated assertion is an error.  A list element is read
without a check of the index; a read outside the list, which C leaves undefined,
is an error too.
-/
import Wrenegade.Lib.Operation
import Wrenegade.Lib.Text

namespace Wrenegade

open Text Operation

/-! ### Values -/

/-- A value of the host language; `ν` are its numbers and `ω` its other objects. -/
inductive Dynamic (ν ω : Type)
  | null
  | bool (b : Bool)
  | num (x : ν)
  | string (text : Text)
  | array (elements : List (Dynamic ν ω))
  | object (o : ω)

/-- A Wren value, finitely nested; a foreign object points to a value of the host. -/
inductive WrenValue (ν ω : Type)
  | bool (b : Bool)
  | num (x : ν)
  | foreign (data : Dynamic ν ω)
  | list (elements : List (WrenValue ν ω))
  | null
  | string (text : Text)
  | unknown

/-- `WrenType`. -/
inductive WrenType
  | WREN_TYPE_BOOL
  | WREN_TYPE_NUM
  | WREN_TYPE_FOREIGN
  | WREN_TYPE_LIST
  | WREN_TYPE_NULL
  | WREN_TYPE_STRING
  | WREN_TYPE_UNKNOWN
deriving DecidableEq

/-- The number of an enumerator. -/
def WrenType.toInt : WrenType → Int
  | .WREN_TYPE_BOOL => 0
  | .WREN_TYPE_NUM => 1
  | .WREN_TYPE_FOREIGN => 2
  | .WREN_TYPE_LIST => 3
  | .WREN_TYPE_NULL => 4
  | .WREN_TYPE_STRING => 5
  | .WREN_TYPE_UNKNOWN => 6

/-- Why an operation on slots raises. -/
inductive SlotError
  /-- A violated assertion of the API. -/
  | assertion (message : Text)
  /-- A read outside a list. -/
  | outOfRange
  /-- Thrown by a helper. -/
  | thrown (message : Text)
  /-- The recursion went on past the fuel. -/
  | outOfFuel
deriving DecidableEq

/-- The slots of the API. -/
abbrev Slots (ν ω : Type) := List (WrenValue ν ω)

abbrev Api (ν ω α : Type) := Op SlotError (Slots ν ω) α

/-- The characters of a text in front of the terminator C sees. -/
def cString (text : Text) : Text := text.takeWhile (· ≠ '\x00')

/-! ### Reading -/

variable {ν ω : Type}

/-- `validateApiSlot`, and the content of the slot. -/
def apiStack (slot : Int) : Api ν ω (WrenValue ν ω) := do
  let slots ← get
  if slot < 0 then throw (.assertion "Slot cannot be negative.")
  else match slots[slot.toNat]? with
    | some v => pure v
    | none => throw (.assertion "Not that many slots.")

def wrenGetSlotType (slot : Int) : Api ν ω WrenType := do
  match ← apiStack slot with
  | .bool _ => pure .WREN_TYPE_BOOL
  | .num _ => pure .WREN_TYPE_NUM
  | .foreign _ => pure .WREN_TYPE_FOREIGN
  | .list _ => pure .WREN_TYPE_LIST
  | .null => pure .WREN_TYPE_NULL
  | .string _ => pure .WREN_TYPE_STRING
  | .unknown => pure .WREN_TYPE_UNKNOWN

def wrenGetSlotBool (slot : Int) : Api ν ω Bool := do
  match ← apiStack slot with
  | .bool b => pure b
  | _ => throw (.assertion "Slot must hold a bool.")

def wrenGetSlotDouble (slot : Int) : Api ν ω ν := do
  match ← apiStack slot with
  | .num x => pure x
  | _ => throw (.assertion "Slot must hold a number.")

/-- The value behind the pointer. -/
def wrenGetSlotForeign (slot : Int) : Api ν ω (Dynamic ν ω) := do
  match ← apiStack slot with
  | .foreign data => pure data
  | _ => throw (.assertion "Slot must hold a foreign instance.")

def wrenGetSlotString (slot : Int) : Api ν ω Text := do
  match ← apiStack slot with
  | .string text => pure (cString text)
  | _ => throw (.assertion "Slot must hold a string.")

def wrenGetListCount (slot : Int) : Api ν ω Nat := do
  match ← apiStack slot with
  | .list elements => pure elements.length
  | _ => throw (.assertion "Slot must hold a list.")

/-! ### Writing -/

def setSlot (slot : Int) (value : WrenValue ν ω) : Api ν ω Unit := do
  let _ ← apiStack slot
  modify fun slots => slots.set slot.toNat value

def wrenSetSlotBool (slot : Int) (value : Bool) : Api ν ω Unit := setSlot slot (.bool value)

def wrenSetSlotDouble (slot : Int) (value : ν) : Api ν ω Unit := setSlot slot (.num value)

def wrenSetSlotNull (slot : Int) : Api ν ω Unit := setSlot slot .null

/-- `none` is the `NULL` pointer. -/
def wrenSetSlotString (slot : Int) (text : Option Text) : Api ν ω Unit :=
  match text with
  | none => throw (.assertion "String cannot be NULL.")
  | some text => setSlot slot (.string (cString text))

def wrenGetListElement (listSlot : Int) (index : Nat) (elementSlot : Int) : Api ν ω Unit := do
  let value ← apiStack listSlot
  let _ ← apiStack elementSlot
  match value with
  | .list elements =>
      match elements[index]? with
      | some e => modify fun slots => slots.set elementSlot.toNat e
      | none => throw .outOfRange
  | _ => throw (.assertion "Slot must hold a list.")

/-- The class stands in its slot as a value without access; `data` is what the new object
points to. -/
def wrenSetSlotNewForeign (slot classSlot : Int) (data : Dynamic ν ω) : Api ν ω Unit := do
  let _ ← apiStack slot
  match ← apiStack classSlot with
  | .unknown => modify fun slots => slots.set slot.toNat (.foreign data)
  | _ => throw (.assertion "Slot must hold a class.")

end Wrenegade
