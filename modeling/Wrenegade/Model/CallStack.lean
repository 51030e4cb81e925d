/-
A call from the host, with the stack it is made on.

The host calls from outside of every foreign method.  The slots of the API are then the
used part of the stack of a fiber.  The memory above is not cleared: growing the slots
uncovers what earlier calls left there, or, on a new fiber, what its memory held before.
A call handle is a stub that takes its arguments from the first slots, as many as its
signature has parameters, however many the host has filled.

What the interpreter does is not modelled.  A call carries the methods the objects of the
VM have by then and what comes of the one it runs.  Every method the interpreter is
started on is recorded, and so are the errors the host traces.
-/
import Wrenegade.Model.HostVM

namespace Wrenegade

open Text Operation

variable {ν ω α : Type}

/-! ### State -/

/-- The memory of a stack, and how much of it is used. -/
structure Fiber (ν ω : Type) where
  stack : Nat → WrenValue ν ω
  stackTop : Nat

/-- A function made for a call handle: it calls the method `symbol` with `numParams`
arguments. -/
structure ObjFn where
  symbol : Text
  numParams : Nat
  maxSlots : Nat
  arity : Nat
deriving DecidableEq

/-- What a handle keeps. -/
inductive WrenHandle (ν ω : Type)
  | value (v : WrenValue ν ω)
  | closure (fn : ObjFn)

/-- A method the interpreter was started on, and the call handle it was started through. -/
structure Invocation (ν ω : Type) where
  handle : Nat
  symbol : Text
  receiver : WrenValue ν ω
  args : List (WrenValue ν ω)

/-- The handles of a VM, and the values that hold them. -/
structure CallHandles (ν ω : Type) where
  handles : List (Nat × WrenHandle ν ω)
  /-- The address of the next handle. -/
  next : Nat
  values : List HostValue

/-- `fiber` is the fiber of the VM while the API has its stack; it is none while
`vm->apiStack` is `NULL`. -/
structure CallState (ν ω : Type) extends CallHandles ν ω where
  fiber : Option (Fiber ν ω)
  invoked : List (Invocation ν ω)
  traced : List Text

abbrev Calls (ν ω α : Type) := Op SlotError (CallState ν ω) α

/-- After a script was interpreted, before the host asks for anything. -/
def CallState.start (ν ω : Type) : CallState ν ω where
  handles := []
  next := 0
  values := []
  fiber := none
  invoked := []
  traced := []

def Fiber.slots (f : Fiber ν ω) : Slots ν ω := (List.range f.stackTop).map f.stack

/-- The stack with these slots in its used part. -/
def Fiber.store (f : Fiber ν ω) (slots : Slots ν ω) : Fiber ν ω :=
  { f with stack := fun i => slots[i]?.getD (f.stack i) }

/-- The instruction of a stub: the receiver and the arguments are the last slots. -/
def ObjFn.invocation (fn : ObjFn) (handle : Nat) (fiber : Fiber ν ω) : Invocation ν ω :=
  { handle, symbol := fn.symbol
    receiver := fiber.stack (fiber.stackTop - (fn.numParams + 1))
    args := (List.range' (fiber.stackTop - fn.numParams) fn.numParams).map fiber.stack }

namespace CallVM

/-- An operation on the slots; without a stack there are none. -/
def onSlots (x : Api ν ω α) : Calls ν ω α := ExceptT.mk fun s =>
  let (r, slots) := x.apply (s.fiber.elim [] Fiber.slots)
  (r, { s with fiber := s.fiber.map fun f => f.store slots })

/-! ### The C API -/

/-- The memory of a new stack holds something already. -/
def wrenNewFiber (memory : Nat → WrenValue ν ω) : Fiber ν ω := { stack := memory, stackTop := 0 }

/-- `memory` is what a new stack would hold. -/
def wrenEnsureSlots (memory : Nat → WrenValue ν ω) (numSlots : Nat) : Calls ν ω Unit :=
  modify fun s =>
    let fiber := s.fiber.getD (wrenNewFiber memory)
    let grown := if numSlots ≤ fiber.stackTop then fiber else { fiber with stackTop := numSlots }
    { s with fiber := some grown }

def wrenMakeHandle (handle : WrenHandle ν ω) : Calls ν ω Nat := do
  let s ← get
  set { s with handles := (s.next, handle) :: s.handles, next := s.next + 1 }
  pure s.next

def wrenGetSlotHandle (slot : Int) : Calls ν ω Nat := do
  let value ← onSlots (apiStack slot)
  wrenMakeHandle (.value value)

def wrenSetSlotHandle (slot : Int) (handle : Nat) : Calls ν ω Unit := do
  let s ← get
  match s.handles.lookup handle with
  | some (.value value) => onSlots (setSlot slot value)
  | some (.closure _) => onSlots (setSlot slot .unknown)
  | none => throw (.assertion "Handle cannot be NULL.")

/-- The parameters a signature is counted to have: underscores from the end back to a
parenthesis, and from the start up to a closing bracket. -/
def countParams (signature : Text) : Nat :=
  (if signature.getLast? = some ')' then
    (signature.tail.reverse.takeWhile (· ≠ '(')).count '_' else 0) +
  (if signature.head? = some '[' then (signature.takeWhile (· ≠ ']')).count '_' else 0)

/-- Only the compiler of a function sets its arity. -/
def wrenNewFunction (symbol : Text) (numParams maxSlots : Nat) : ObjFn :=
  { symbol, numParams, maxSlots, arity := 0 }

def wrenMakeCallHandle (signature : Text) : Calls ν ω Nat :=
  if cString signature = [] then throw (.assertion "Signature cannot be empty.")
  else
    let numParams := countParams (cString signature)
    wrenMakeHandle (.closure (wrenNewFunction (cString signature) numParams (numParams + 1)))

/-- What comes of a method that is run: it returns, leaving a fiber to the API unless it was
suspended, or it ends in a runtime error. -/
inductive CallOutcome (ν ω : Type)
  | returned (fiber : Option (Fiber ν ω))
  | aborted

/-- `runInterpreter` on a stub; a runtime error leaves neither a fiber nor an API stack. -/
def runInterpreter (responds : WrenValue ν ω → Text → Bool) (fn : ObjFn) (handle : Nat)
    (fiber : Fiber ν ω) (outcome : CallOutcome ν ω) : Calls ν ω WrenInterpretResult := do
  let s ← get
  let invocation := fn.invocation handle fiber
  if responds invocation.receiver invocation.symbol then
    match outcome with
    | .returned after => do
        set { s with fiber := after, invoked := s.invoked ++ [invocation] }
        pure .WREN_RESULT_SUCCESS
    | .aborted => do
        set { s with fiber := none, invoked := s.invoked ++ [invocation] }
        pure .WREN_RESULT_RUNTIME_ERROR
  else do
    set { s with fiber := none }
    pure .WREN_RESULT_RUNTIME_ERROR

def wrenCall (responds : WrenValue ν ω → Text → Bool) (method : Nat)
    (outcome : CallOutcome ν ω) : Calls ν ω WrenInterpretResult := do
  let s ← get
  match s.handles.lookup method with
  | none => throw (.assertion "Method cannot be NULL.")
  | some (.value _) => throw (.assertion "Method must be a method handle.")
  | some (.closure fn) =>
      match s.fiber with
      | none => throw (.assertion "Must set up arguments for call first.")
      | some fiber =>
          if fiber.stackTop < fn.arity then
            throw (.assertion "Stack must have enough arguments for method.")
          -- extra temporary slots are discarded
          else runInterpreter responds fn method { fiber with stackTop := fn.maxSlots } outcome

def wrenGetVariable (main : MainModule ν ω) (name : Text) (slot : Int) : Calls ν ω Unit :=
  match main with
  | none => throw (.assertion "Could not find module.")
  | some lookup =>
      match lookup name with
      | none => throw (.assertion "Could not find variable.")
      | some value => onSlots (setSlot slot value)

/-! ### `wren.Value` -/

namespace Value

def new (value : Nat) : Calls ν ω Unit :=
  modify fun s => { s with values := s.values ++ [{ value, methods := ∅ }] }

/-- `methods.set`. -/
def setMethod (v : Nat) (signature : Text) (handle : Nat) : Calls ν ω Unit :=
  modify fun s => { s with
    values := s.values.modify v fun o =>
      { o with methods := o.methods.insert signature handle } }

/-- The call handle of a signature, made at its first use. -/
def method (v : Nat) (this : HostValue) (signature : Text) : Calls ν ω Nat :=
  match this.methods.lookup signature with
  | some f => pure f
  | none => do
      let f ← wrenMakeCallHandle signature
      setMethod v signature f
      pure f

def trace (err : Text) : Calls ν ω Unit :=
  modify fun s => { s with traced := s.traced ++ [err] }

section Call

variable (hx : Conversions ν ω) (typeof : Dynamic ν ω → ValueType) (fuel : Nat)

/-- The parameters, each saved behind the receiver. -/
def saveParams (params : List (Dynamic ν ω)) : Calls ν ω Unit :=
  params.zipIdx.forM fun p => onSlots (Helper.saveToSlot hx (p.2 + 1) p.1 (typeof p.1))

def call (v : Nat) (signature : Text) (params : List (Dynamic ν ω))
    (memory : Nat → WrenValue ν ω) (responds : WrenValue ν ω → Text → Bool)
    (outcome : CallOutcome ν ω) : Calls ν ω (Dynamic ν ω) := do
  let s ← get
  match s.values[v]? with
  | none => throw (.thrown "Null Object Reference")
  | some this =>
      let f ← method v this signature
      wrenEnsureSlots memory (params.length + 1)
      wrenSetSlotHandle 0 this.value
      saveParams hx typeof params
      let result ← wrenCall responds f outcome
      match Helper.interpretResultToErr result with
      | some err => do
          trace err
          pure .null
      | none => onSlots (Helper.getFromSlot fuel 0)

end Call

end Value

/-- `VM.variable`. -/
def variable_ (main : MainModule ν ω) (name : Text) (memory : Nat → WrenValue ν ω) :
    Calls ν ω Unit := do
  wrenEnsureSlots memory 1
  wrenGetVariable main name 0
  let handle ← wrenGetSlotHandle 0
  Value.new handle

/-! ### Runs -/

/-- What a host does with the objects of a VM: it looks them up and calls them. -/
inductive CallOp (ν ω : Type)
  | variable_ (main : MainModule ν ω) (name : Text) (memory : Nat → WrenValue ν ω)
  | call (v : Nat) (signature : Text) (params : List (Dynamic ν ω))
      (memory : Nat → WrenValue ν ω) (responds : WrenValue ν ω → Text → Bool)
      (outcome : CallOutcome ν ω)

section Run

variable (hx : Conversions ν ω) (typeof : Dynamic ν ω → ValueType) (fuel : Nat)

def CallOp.perform : CallOp ν ω → Calls ν ω Unit
  | .variable_ main name memory => CallVM.variable_ main name memory
  | .call v signature params memory responds outcome =>
      discard (Value.call hx typeof fuel v signature params memory responds outcome)

/-- The state an operation leaves, returned or not. -/
def callStep (s : CallState ν ω) (op : CallOp ν ω) : CallState ν ω :=
  ((op.perform hx typeof fuel).apply s).2

def callRun (ops : List (CallOp ν ω)) : CallState ν ω :=
  ops.foldl (callStep hx typeof fuel) (CallState.start ν ω)

end Run

/-! ### Signatures -/

/-- `SignatureType`. -/
inductive SignatureType
  | SIG_METHOD
  | SIG_GETTER
  | SIG_SETTER
  | SIG_SUBSCRIPT
  | SIG_SUBSCRIPT_SETTER
  | SIG_INITIALIZER
deriving DecidableEq

def MAX_PARAMETERS : Nat := 16

/-- What the lexer takes for the name of a method: an identifier or an operator. -/
structure IsMethodName (name : Text) : Prop where
  ne_nil : name ≠ []
  plain : ∀ c ∈ name, c ∉ ("()[]\x00" : Text)

/-- What the name and the arity of a signature have to be. -/
def SignatureType.Fits (name : Text) (arity : Nat) : SignatureType → Prop
  | .SIG_METHOD | .SIG_INITIALIZER => IsMethodName name
  | .SIG_GETTER => IsMethodName name ∧ arity = 0
  | .SIG_SETTER => IsMethodName name ∧ arity = 1
  | .SIG_SUBSCRIPT => name = [] ∧ 1 ≤ arity
  | .SIG_SUBSCRIPT_SETTER => name = [] ∧ 2 ≤ arity

/-- The signature of a Wren method. -/
structure Signature where
  name : Text
  type : SignatureType
  arity : Nat
  fits : type.Fits name arity
  max : arity ≤ MAX_PARAMETERS

def signatureParameterList (numParams : Nat) (leftBracket rightBracket : Char) : Text :=
  [leftBracket] ++ join (List.replicate numParams ("_" : Text)) "," ++ [rightBracket]

def Signature.toText (s : Signature) : Text :=
  match s.type with
  | .SIG_METHOD => s.name ++ signatureParameterList s.arity '(' ')'
  | .SIG_GETTER => s.name
  | .SIG_SETTER => s.name ++ "=" ++ signatureParameterList 1 '(' ')'
  | .SIG_SUBSCRIPT => s.name ++ signatureParameterList s.arity '[' ']'
  | .SIG_SUBSCRIPT_SETTER =>
      s.name ++ signatureParameterList (s.arity - 1) '[' ']' ++ "=" ++
        signatureParameterList 1 '(' ')'
  | .SIG_INITIALIZER => "init " ++ s.name ++ signatureParameterList s.arity '(' ')'

end CallVM

end Wrenegade
