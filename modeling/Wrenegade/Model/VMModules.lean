/-
The modules of a VM, and where the host looks for their variables.

A VM keeps its modules by name, the core module under no name.  A source is compiled in
a module, which is made for it if there is none yet and stays when the source turns out
not to compile.  The compiler enters the variables of the module as it comes to them, those
it only sees used among them: these hold the number of a line until a definition comes.

The host interprets sources, looks up variables of the module `main` and calls them.  Between
two operations the API may still have a stack: the pointer to it is cleared by errors and by
foreign methods, but not when a source has been interpreted.  The fiber of the VM is another
one then, and the number of slots, which is a difference of two pointers, is not defined.

What the interpreter does is not modelled.  A source comes with the names the compiler sees
in it, a run with what it does to the modules and how it ends.
-/
import Wrenegade.Model.CallStack
import Wrenegade.Model.LoadModule

namespace Wrenegade

open Text Operation

namespace ModuleVM

variable {ν ω α : Type}

/-! ### Modules -/

/-- A variable of a module, and whether a definition of it was compiled. -/
structure Variable (ν ω : Type) where
  name : CString
  value : WrenValue ν ω
  defined : Bool

structure ObjModule (ν ω : Type) where
  vars : List (Variable ν ω)
  nodup : (vars.map Variable.name).Nodup

/-- `vm->modules`; no name is that of the core module. -/
abbrev Modules (ν ω : Type) := AList fun _ : Option CString => ObjModule ν ω

def MAX_MODULE_VARS : Nat := 65536

def wrenNewModule : ObjModule ν ω := ⟨[], List.nodup_nil⟩

def getModule (modules : Modules ν ω) (name : Option CString) : Option (ObjModule ν ω) :=
  modules.lookup name

/-- `none` is the symbol -1. -/
def wrenSymbolTableFind (m : ObjModule ν ω) (name : CString) : Option Nat :=
  m.vars.findIdx? fun v => v.name = name

theorem wrenSymbolTableFind_eq_none_iff {m : ObjModule ν ω} {name : CString} :
    wrenSymbolTableFind m name = none ↔ name ∉ m.vars.map Variable.name := by
  simp [wrenSymbolTableFind, List.findIdx?_eq_none_iff]

namespace ObjModule

/-- The module with a new variable. -/
def add (m : ObjModule ν ω) (v : Variable ν ω) (h : wrenSymbolTableFind m v.name = none) :
    ObjModule ν ω where
  vars := m.vars ++ [v]
  nodup := by
    rw [List.map_append, List.map_singleton, List.nodup_append_comm, List.singleton_append,
      List.nodup_cons]
    exact ⟨wrenSymbolTableFind_eq_none_iff.mp h, m.nodup⟩

/-- The module with another variable of the same name in some place. -/
def modify (m : ObjModule ν ω) (symbol : Nat) (f : Variable ν ω → Variable ν ω)
    (hf : ∀ v, (f v).name = v.name) : ObjModule ν ω where
  vars := m.vars.modify symbol f
  nodup := by
    have hnames : (m.vars.modify symbol f).map Variable.name
        = m.vars.map Variable.name := by
      refine List.ext_getElem? fun i => ?_
      rw [List.getElem?_map, List.getElem?_map, List.getElem?_modify]
      cases m.vars[i]? with
      | none => rfl
      | some v =>
          by_cases hi : symbol = i
          · simp [hi, hf]
          · simp [hi]
    rw [hnames]
    exact m.nodup

end ObjModule

/-! ### The compiler -/

/-- A variable that is used and not there yet; it holds the number of the line. -/
def wrenDeclareVariable (m : ObjModule ν ω) (name : CString) (line : ν)
    (h : wrenSymbolTableFind m name = none) : ObjModule ν ω × Int :=
  if m.vars.length = MAX_MODULE_VARS then (m, -2)
  else (m.add { name, value := .num line, defined := false } h, m.vars.length)

def wrenDefineVariable (m : ObjModule ν ω) (name : CString) (value : WrenValue ν ω) :
    ObjModule ν ω × Int :=
  if m.vars.length = MAX_MODULE_VARS then (m, -2)
  else
    match h : wrenSymbolTableFind m name with
    | none => (m.add { name, value, defined := true } h, m.vars.length)
    | some symbol =>
        match (m.vars[symbol]?).map Variable.value with
        -- an implicitly declared variable is always a number
        | some (.num _) =>
            (m.modify symbol (fun v => { v with value, defined := true }) fun _ => rfl, symbol)
        | _ => (m, -1)

/-- A name the compiler comes to at the top level of a module. -/
inductive Mention (ν : Type)
  | use (name : CString) (line : ν)
  | definition (name : CString)

def Mention.compile (m : ObjModule ν ω) : Mention ν → ObjModule ν ω
  | .use name line =>
      if h : wrenSymbolTableFind m name = none then (wrenDeclareVariable m name line h).1 else m
  | .definition name => (wrenDefineVariable m name .null).1

/-- What the compiler sees of a source, and whether it compiles. -/
structure Source (ν : Type) where
  mentions : List (Mention ν)
  compiles : Bool

def wrenCompile (m : ObjModule ν ω) (source : Source ν) : ObjModule ν ω :=
  source.mentions.foldl Mention.compile m

/-- The variables of the core module, in a new one. -/
def importCore (modules : Modules ν ω) : ObjModule ν ω :=
  ((getModule modules none).elim [] ObjModule.vars).foldl
    (fun m v => (wrenDefineVariable m v.name v.value).1) wrenNewModule

/-- The module stays, whether the source compiles or not. -/
def compileInModule (modules : Modules ν ω) (name : Option CString) (source : Source ν) :
    Modules ν ω :=
  modules.insert name (wrenCompile ((getModule modules name).getD (importCore modules)) source)

/-! ### The interpreter -/

/-- What a run does to the modules: it stores variables, and compiles what it imports. -/
inductive Effect (ν ω : Type)
  | store (module : Option CString) (symbol : Nat) (value : WrenValue ν ω)
  | compile (module : Option CString) (source : Source ν)

def Effect.perform (modules : Modules ν ω) : Effect ν ω → Modules ν ω
  | .store module symbol value =>
      match getModule modules module with
      | none => modules
      | some m =>
          modules.insert module (m.modify symbol (fun v => { v with value }) fun _ => rfl)
  | .compile module source => compileInModule modules module source

inductive Ending
  | finished
  | aborted
  | suspended
deriving DecidableEq

/-- A run of the interpreter. -/
structure Execution (ν ω : Type) where
  effects : List (Effect ν ω)
  callsForeign : Bool
  ending : Ending

/-- `detached` says that the fiber of the VM is not the one the API has the stack of. -/
structure VMState (ν ω : Type) extends CallState ν ω where
  modules : Modules ν ω
  detached : Bool

inductive VMError
  | raised (e : SlotError)
  /-- C does not define what happens. -/
  | undefined
deriving DecidableEq

abbrev VMOp (ν ω α : Type) := Op VMError (VMState ν ω) α

/-- After `wrenNewVM`. -/
def VMState.start (core : ObjModule ν ω) : VMState ν ω :=
  { CallState.start ν ω with modules := AList.singleton none core, detached := false }

/-- An operation that does not look at the number of slots. -/
def calls (x : Calls ν ω α) : VMOp ν ω α := ExceptT.mk fun s =>
  let (r, t) := x.apply s.toCallState
  (r.mapError .raised, { s with toCallState := t })

/-- An operation that does. -/
def attached (x : Calls ν ω α) : VMOp ν ω α := do
  let s ← get
  if s.detached then throw .undefined else calls x

/-- A foreign method clears the pointer to the API stack, and so does an error.  When the outermost
fiber yields, the pointer stays, although there is no fiber then. -/
def runInterpreter (execution : Execution ν ω) : VMOp ν ω WrenInterpretResult := do
  let s ← get
  let keeps := execution.ending ≠ .aborted ∧ execution.callsForeign = false
  set { s with
    modules := execution.effects.foldl Effect.perform s.modules
    fiber := if keeps then s.fiber else none
    detached := keeps ∧ s.fiber.isSome }
  if execution.callsForeign ∧ s.fiber.isSome then
    throw (.raised (.assertion "Cannot already be in foreign call."))
  else if execution.ending = .aborted then pure .WREN_RESULT_RUNTIME_ERROR
  else pure .WREN_RESULT_SUCCESS

def wrenInterpret (module : Option CString) (source : Source ν) (execution : Execution ν ω) :
    VMOp ν ω WrenInterpretResult := do
  modify fun s => { s with modules := compileInModule s.modules module source }
  if source.compiles then runInterpreter execution else pure .WREN_RESULT_COMPILE_ERROR

/-! ### The host -/

def wrenGetVariable (module name : Text) (slot : Int) : VMOp ν ω Unit := do
  let s ← get
  match getModule s.modules (some (c_str module)) with
  | none => throw (.raised (.assertion "Could not find module."))
  | some m =>
      match (wrenSymbolTableFind m (c_str name)).bind fun symbol => m.vars[symbol]? with
      | none => throw (.raised (.assertion "Could not find variable."))
      | some v => calls (CallVM.onSlots (setSlot slot v.value))

/-- `VM.interpret`; `none` is the name `null`. -/
def interpret (module : Option Text) (source : Source ν) (execution : Execution ν ω) :
    VMOp ν ω (Option Text) := do
  let result ← wrenInterpret (module.map c_str) source execution
  pure (Helper.interpretResultToErr result)

/-- `VM.variable`.  The value is told by its place among the values made so far; the handle is
never null, so the test that follows in the source never holds. -/
def variable_ (name : Text) (memory : Nat → WrenValue ν ω) : VMOp ν ω (Option Nat) := do
  attached (CallVM.wrenEnsureSlots memory 1)
  wrenGetVariable "main" name 0
  let s ← get
  let handle ← calls (CallVM.wrenGetSlotHandle 0)
  calls (CallVM.Value.new handle)
  pure (some s.values.length)

section Run

variable (hx : Conversions ν ω) (typeof : Dynamic ν ω → ValueType) (fuel : Nat)

/-- `Value.call`.  If the method is invoked, it does something to the modules. -/
def call (v : Nat) (signature : Text) (params : List (Dynamic ν ω))
    (memory : Nat → WrenValue ν ω) (responds : WrenValue ν ω → Text → Bool)
    (outcome : CallVM.CallOutcome ν ω) (effects : List (Effect ν ω)) :
    VMOp ν ω (Dynamic ν ω) := ExceptT.mk fun s =>
  let (r, t) := (attached (CallVM.Value.call hx typeof fuel v signature params memory responds
    outcome)).apply s
  if t.invoked.length = s.invoked.length then (r, t)
  else (r, { t with modules := effects.foldl Effect.perform t.modules })

/-- What a host does with a VM. -/
inductive Action (ν ω : Type)
  | interpret (module : Option Text) (source : Source ν) (execution : Execution ν ω)
  | variable_ (name : Text) (memory : Nat → WrenValue ν ω)
  | call (v : Nat) (signature : Text) (params : List (Dynamic ν ω))
      (memory : Nat → WrenValue ν ω) (responds : WrenValue ν ω → Text → Bool)
      (outcome : CallVM.CallOutcome ν ω) (effects : List (Effect ν ω))

def Action.perform : Action ν ω → VMOp ν ω Unit
  | .interpret module source execution => discard (ModuleVM.interpret module source execution)
  | .variable_ name memory => discard (ModuleVM.variable_ name memory)
  | .call v signature params memory responds outcome effects =>
      discard (ModuleVM.call hx typeof fuel v signature params memory responds outcome effects)

/-- The state an action leaves, returned or not. -/
def vmStep (s : VMState ν ω) (a : Action ν ω) : VMState ν ω := ((a.perform hx typeof fuel).apply s).2

def vmRun (core : ObjModule ν ω) (actions : List (Action ν ω)) : VMState ν ω :=
  actions.foldl (vmStep hx typeof fuel) (VMState.start core)

end Run

end ModuleVM

end Wrenegade
