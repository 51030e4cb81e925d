/-
Local variables and the closures that share them.

The locals of a function live on the stack of its fiber.  A closure gets at a local through an
upvalue, which points into the stack while the local is there.  The fiber links these open
upvalues in a list, from the top of the stack down.  When the local goes, its upvalue is
closed: the value moves into it.  When the stack is moved, the pointers are moved with it.

Pointers into the stack are numbers, in units of a value.  A pointer to a closed upvalue is
never compared with one into the stack, which C would not define.  An upvalue is named by when
it was captured; the closures keep such names.
-/
import Wrenegade.Model.ObjList

namespace Wrenegade

namespace Lexical

open WrenVM (Value Result access wrenPowerOf2Ceil)

abbrev Address := Nat

/-- Where the value of an upvalue is. -/
inductive Pointer
  | stack (p : Nat)
  | closed
deriving DecidableEq

structure ObjUpvalue where
  value : Pointer
  closed : Value
  next : Option Address
deriving DecidableEq

def ObjUpvalue.pointer (upvalue : ObjUpvalue) : Option Nat :=
  match upvalue.value with
  | .stack p => some p
  | .closed => none

structure Fiber where
  stack : Nat
  /-- The block at `stack`. -/
  cells : Cells Value
  stackTop : Nat
  /-- Where the frames start, from the innermost one. -/
  frames : List Nat
  openUpvalues : Option Address
  /-- All upvalues, in the order of their creation. -/
  upvalues : List ObjUpvalue
  /-- What the closures captured, in this order. -/
  captured : List Address
deriving DecidableEq

namespace Fiber

/-! ### The stack -/

def read (fiber : Fiber) (p : Nat) : Result Value :=
  if fiber.stack ≤ p then access (fiber.cells.get (p - fiber.stack)) else throw .undefined

def write (fiber : Fiber) (p : Nat) (value : Value) : Result Fiber :=
  if fiber.stack ≤ p then do
    let cells ← access (fiber.cells.put (p - fiber.stack) value)
    pure { fiber with cells := cells }
  else throw .undefined

def push (fiber : Fiber) (value : Value) : Result Fiber := do
  let fiber ← fiber.write fiber.stackTop value
  pure { fiber with stackTop := fiber.stackTop + 1 }

def peek (fiber : Fiber) : Result Value := fiber.read (fiber.stackTop - 1)

def drop (fiber : Fiber) : Fiber := { fiber with stackTop := fiber.stackTop - 1 }

def stackStart (fiber : Fiber) : Result Nat := access fiber.frames.head?

/-! ### Upvalues -/

/-- Where an open upvalue points to. -/
def pointer (fiber : Fiber) (a : Address) : Option Nat :=
  fiber.upvalues[a]?.bind ObjUpvalue.pointer

/-- Towards the bottom of the stack, until an upvalue is found or passed: the one before it, and
the one that is there. -/
def walk (fiber : Fiber) (slot : Nat) :
    Nat → Option Address → Option Address → Result (Option Address × Option Address)
  | 0, _, _ => throw .undefined
  | _ + 1, prev, none => pure (prev, none)
  | fuel + 1, prev, some a => do
      let p ← access (fiber.pointer a)
      if slot < p then do
        let upvalue ← access fiber.upvalues[a]?
        fiber.walk slot fuel (some a) upvalue.next
      else pure (prev, some a)

/-- A new upvalue, linked in between two. -/
def insertUpvalue (fiber : Fiber) (slot : Nat) (prev next : Option Address) :
    Result (Address × Fiber) :=
  let created := fiber.upvalues.length
  let upvalues := fiber.upvalues ++ [⟨.stack slot, .null, next⟩]
  match prev with
  | none => pure (created, { fiber with upvalues := upvalues, openUpvalues := some created })
  | some a => do
      let upvalue ← access upvalues[a]?
      pure (created,
        { fiber with upvalues := upvalues.set a { upvalue with next := some created } })

/-- If the local is in an upvalue already, it is used.  An empty list has a case of its own in
the code, which does what this does. -/
def captureUpvalue (fiber : Fiber) (slot : Nat) : Result (Address × Fiber) := do
  let (prev, found) ← fiber.walk slot (fiber.upvalues.length + 1) none fiber.openUpvalues
  match found with
  | some a =>
      if fiber.pointer a = some slot then pure (a, fiber)
      else fiber.insertUpvalue slot prev found
  | none => fiber.insertUpvalue slot prev found

/-- Close the open upvalues for the slots at `last` and above. -/
def closeUpvalues (last : Nat) : Nat → Fiber → Result Fiber
  | 0, _ => throw .undefined
  | fuel + 1, fiber =>
      match fiber.openUpvalues with
      | none => pure fiber
      | some a => do
          let p ← access (fiber.pointer a)
          if last ≤ p then do
            let value ← fiber.read p
            let upvalue ← access fiber.upvalues[a]?
            closeUpvalues last fuel { fiber with
              upvalues := fiber.upvalues.set a { upvalue with value := .closed, closed := value }
              openUpvalues := upvalue.next }
          else pure fiber

/-- `*upvalues[i]->value`. -/
def readUpvalue (fiber : Fiber) (k : Nat) : Result Value := do
  let a ← access fiber.captured[k]?
  let upvalue ← access fiber.upvalues[a]?
  match upvalue.value with
  | .stack p => fiber.read p
  | .closed => pure upvalue.closed

def writeUpvalue (fiber : Fiber) (k : Nat) (value : Value) : Result Fiber := do
  let a ← access fiber.captured[k]?
  let upvalue ← access fiber.upvalues[a]?
  match upvalue.value with
  | .stack p => fiber.write p value
  | .closed =>
      pure { fiber with upvalues := fiber.upvalues.set a { upvalue with closed := value } }

/-! ### Growing the stack -/

def moveUpvalues (old new : Nat) : Nat → Fiber → Option Address → Result Fiber
  | 0, _, _ => throw .undefined
  | _ + 1, fiber, none => pure fiber
  | fuel + 1, fiber, some a => do
      let p ← access (fiber.pointer a)
      let upvalue ← access fiber.upvalues[a]?
      moveUpvalues old new fuel
        { fiber with
          upvalues := fiber.upvalues.set a { upvalue with value := .stack (new + (p - old)) } }
        upvalue.next

/-- `block` is where the reallocated stack is. -/
def wrenEnsureStack (fiber : Fiber) (needed block : Nat) : Result Fiber :=
  if needed ≤ fiber.cells.length then pure fiber
  else
    let capacity := (wrenPowerOf2Ceil (BitVec.ofNat 32 needed)).toNat
    let old := fiber.stack
    let fiber := { fiber with stack := block, cells := fiber.cells.resize capacity }
    if block = old then pure fiber
    else do
      let fiber ← moveUpvalues old block (fiber.upvalues.length + 1)
        { fiber with frames := fiber.frames.map fun start => block + (start - old) }
        fiber.openUpvalues
      pure { fiber with stackTop := block + (fiber.stackTop - old) }

def wrenCallFunction (fiber : Fiber) (numArgs maxSlots block : Nat) : Result Fiber := do
  let stackSize := fiber.stackTop - fiber.stack
  let fiber ← fiber.wrenEnsureStack (stackSize + maxSlots) block
  pure { fiber with frames := (fiber.stackTop - numArgs) :: fiber.frames }

end Fiber

/-! ### Instructions -/

/-- What an instruction does with the stack.  A call says how many slots its function needs and
where a stack that has to be moved goes. -/
inductive Instruction
  | push (value : Value)
  | pop
  | loadLocal (i : Nat)
  | storeLocal (i : Nat)
  | loadUpvalue (k : Nat)
  | storeUpvalue (k : Nat)
  | capture (i : Nat)
  | closeUpvalue
  | call (numArgs maxSlots block : Nat)
  | return_
deriving DecidableEq

namespace Fiber

/-- `CODE_RETURN` to a frame of the same fiber. -/
def execReturn (fiber : Fiber) : Result Fiber := do
  let start ← fiber.stackStart
  let result ← fiber.peek
  let fiber ← closeUpvalues start (fiber.upvalues.length + 1) fiber.drop
  let fiber ← fiber.write start result
  pure { fiber with frames := fiber.frames.tail, stackTop := start + 1 }

def exec (fiber : Fiber) : Instruction → Result Fiber
  | .push value => fiber.push value
  | .pop => pure fiber.drop
  | .loadLocal i => do
      let start ← fiber.stackStart
      let value ← fiber.read (start + i)
      fiber.push value
  | .storeLocal i => do
      let start ← fiber.stackStart
      let value ← fiber.peek
      fiber.write (start + i) value
  | .loadUpvalue k => do
      let value ← fiber.readUpvalue k
      fiber.push value
  | .storeUpvalue k => do
      let value ← fiber.peek
      fiber.writeUpvalue k value
  | .capture i => do
      let start ← fiber.stackStart
      let (a, fiber) ← fiber.captureUpvalue (start + i)
      pure { fiber with captured := fiber.captured ++ [a] }
  | .closeUpvalue => do
      let fiber ← closeUpvalues (fiber.stackTop - 1) (fiber.upvalues.length + 1) fiber
      pure fiber.drop
  | .call numArgs maxSlots block => fiber.wrenCallFunction numArgs maxSlots block
  | .return_ => fiber.execReturn

def run (fiber : Fiber) (instructions : List Instruction) : Result Fiber :=
  instructions.foldlM exec fiber

/-- A fiber with an empty stack. -/
def start (block capacity : Nat) : Fiber where
  stack := block
  cells := List.replicate capacity none
  stackTop := block
  frames := [block]
  openUpvalues := none
  upvalues := []
  captured := []

end Fiber

/-! ### What variables mean

Every value that is pushed makes a new variable, and closures hold variables. -/

structure Frame where
  start : Nat
  /-- The function uses no slot from here on. -/
  limit : Nat
deriving DecidableEq

structure Scopes where
  store : Nat → Value
  /-- How many variables there have been. -/
  count : Nat
  /-- The variables on the stack, from the bottom. -/
  stack : List Nat
  frames : List Frame
  captured : List Nat

namespace Scopes

def push (s : Scopes) (value : Value) : Scopes :=
  { s with
    store := Function.update s.store s.count value
    count := s.count + 1
    stack := s.stack ++ [s.count] }

/-- There is room for one more value in the frame. -/
def HasRoom (s : Scopes) (frame : Frame) : Prop := s.stack.length < frame.limit

instance (s : Scopes) (frame : Frame) : Decidable (s.HasRoom frame) :=
  inferInstanceAs (Decidable (_ < _))

def local_ (s : Scopes) (frame : Frame) (i : Nat) : Option Nat := s.stack[frame.start + i]?

/-- The variable on the top, if it is one of the frame. -/
def top (s : Scopes) (frame : Frame) : Option Nat :=
  if frame.start < s.stack.length then s.stack.getLast? else none

/-- What compiled code does: it stays within its frame, and does not pop a variable that was
captured as if it was not. -/
def execIn (s : Scopes) (frame : Frame) : Instruction → Option Scopes
  | .push value => if s.HasRoom frame then some (s.push value) else none
  | .pop => do
      let x ← s.top frame
      if x ∈ s.captured then none else some { s with stack := s.stack.dropLast }
  | .loadLocal i => do
      let x ← s.local_ frame i
      if s.HasRoom frame then some (s.push (s.store x)) else none
  | .storeLocal i => do
      let x ← s.local_ frame i
      let y ← s.top frame
      some { s with store := Function.update s.store x (s.store y) }
  | .loadUpvalue k => do
      let x ← s.captured[k]?
      if s.HasRoom frame then some (s.push (s.store x)) else none
  | .storeUpvalue k => do
      let x ← s.captured[k]?
      let y ← s.top frame
      some { s with store := Function.update s.store x (s.store y) }
  | .capture i => do
      let x ← s.local_ frame i
      some { s with captured := s.captured ++ [x] }
  | .closeUpvalue => do
      let _ ← s.top frame
      some { s with stack := s.stack.dropLast }
  | .call numArgs maxSlots _ =>
      -- the size of the stack is an `int`
      if frame.start + numArgs ≤ s.stack.length ∧ s.stack.length + maxSlots ≤ 2 ^ 30 then
        let start := s.stack.length - numArgs
        some { s with frames := ⟨start, start + maxSlots⟩ :: s.frames }
      else none
  | .return_ => do
      let x ← s.top frame
      let returned := { s with stack := s.stack.take frame.start, frames := s.frames.tail }
      some (returned.push (s.store x))

def exec (s : Scopes) (instruction : Instruction) : Option Scopes := do
  let frame ← s.frames.head?
  s.execIn frame instruction

def run (s : Scopes) (instructions : List Instruction) : Option Scopes := instructions.foldlM exec s

def start (capacity : Nat) : Scopes where
  store := fun _ => .null
  count := 0
  stack := []
  frames := [⟨0, capacity⟩]
  captured := []

end Scopes

end Lexical

end Wrenegade
