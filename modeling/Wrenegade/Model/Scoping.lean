/-
How the compiler resolves names.

There is a compiler for each function that is being compiled, and its parent compiles the
function around it.  A name is a local of the function, or else an upvalue: a local of the
function around, or an upvalue of that one, or else a variable of the module.  The compiler lists
the upvalues of a function, each once, and marks the locals that are captured, so that they are
closed when their scope ends.

An error is only reported.  The compiler goes on with whatever it has, to find more of them, but
finishes no function any more.

Below the code there is what it is meant to do, on variables that are told apart by numbers.
-/
import Mathlib.Data.List.DropRight
import Wrenegade.Model.Primitive
import Wrenegade.Model.VMModules
import Wrenegade.Model.WrenModule

namespace Wrenegade

namespace Scoping

open ModuleVM (ObjModule wrenSymbolTableFind wrenDeclareVariable wrenDefineVariable)
open WrenVM (Result)

variable {ν ω : Type}

def MAX_LOCALS : Nat := 256

def MAX_UPVALUES : Nat := 256

structure Local where
  name : Text
  depth : Int
  isUpvalue : Bool
deriving DecidableEq

structure CompilerUpvalue where
  isLocal : Bool
  index : Nat
deriving DecidableEq

structure Compiler where
  locals : List Local
  upvalues : List CompilerUpvalue
  scopeDepth : Int
  /-- It is in a class body. -/
  enclosingClass : Bool
deriving DecidableEq

/-- The parser, which all compilers share. -/
structure Parser (ν ω : Type) where
  module : ObjModule ν ω
  /-- The last token is one the lexer could not read, and has reported. -/
  errorToken : Bool
  errors : List Text

/-- The compilers, from the innermost one. -/
structure Compilation (ν ω : Type) where
  compilers : List Compiler
  parser : Parser ν ω

/-- What a name refers to. -/
inductive Variable
  | local_ (index : Nat)
  | upvalue (index : Nat)
  | module_ (index : Nat)
deriving DecidableEq

inductive Code
  | pop
  | closeUpvalue
deriving DecidableEq

/-- What else is done to the parser. -/
inductive Parsing
  | nextToken (isError : Bool)
  | lexError (message : Text)
  | error (message : Text)
deriving DecidableEq

/-- What is done with scopes and names; a name is used in some line. -/
inductive Op (ν : Type)
  | parse (op : Parsing)
  | declareVariable (name : Text)
  | addLocal (name : Text)
  | pushScope
  | popScope
  | discardLocals (depth : Int)
  | resolve (name : Text)
  | name (name : Text) (line : ν)
  | staticField (name : Text)
  | initCompiler (isMethod : Bool)
  | endCompiler
  | setClass (inClass : Bool)
deriving DecidableEq

/-- What is made of it: the symbol of a variable, where a name is or the receiver that it is called
on, the code that discards locals, or the upvalues that a closure captures. -/
inductive Answer
  | done
  | symbol (symbol : Int)
  | variable (v : Option Variable)
  | selfSend (this : Option Variable)
  | discarded (code : List Code)
  | closure (upvalues : Option (List CompilerUpvalue))
deriving DecidableEq

/-! ### The parser -/

namespace Parser

def report (p : Parser ν ω) (message : Text) : Parser ν ω :=
  { p with errors := p.errors ++ [message] }

def hasError (p : Parser ν ω) : Bool := !p.errors.isEmpty

def error (p : Parser ν ω) (message : Text) : Parser ν ω :=
  if p.errorToken then p else p.report message

def perform (p : Parser ν ω) : Parsing → Parser ν ω
  | .nextToken isError => { p with errorToken := isError }
  | .lexError message => p.report message
  | .error message => p.error message

/-- A variable of the module, in a declaration at its top level. -/
def defineVariable (p : Parser ν ω) (name : Text) : Int × Parser ν ω :=
  let (module, symbol) := wrenDefineVariable p.module (c_str name) .null
  let p := { p with module }
  if symbol = -1 then (symbol, p.error "Module variable is already defined.")
  else if symbol = -2 then (symbol, p.error "Too many module variables defined.")
  else (symbol, p)

def find (p : Parser ν ω) (name : Text) : Option Variable :=
  (wrenSymbolTableFind p.module (c_str name)).map Variable.module_

end Parser

def isLocalName (name : Text) : Bool := name.head?.any fun c => 'a' ≤ c && c ≤ 'z'

/-- A variable of the module that is used.  In the hope that its definition is still to come, it is
declared. -/
def Parser.useVariable (p : Parser ν ω) (name : Text) (line : ν) : Option Variable × Parser ν ω :=
  match h : wrenSymbolTableFind p.module (c_str name) with
  | some symbol => (some (.module_ symbol), p)
  | none =>
      if isLocalName name then (none, p.error "Undefined variable.")
      else
        let (module, symbol) := wrenDeclareVariable p.module (c_str name) line h
        let p := { p with module }
        if symbol = -2 then (none, p.error "Too many module variables defined.")
        else (some (.module_ symbol.toNat), p)

/-! ### The compilers -/

namespace Compiler

/-- The first local is the closure or the receiver. -/
def init (topLevel isMethod : Bool) : Compiler where
  locals := [⟨if isMethod then "this" else [], -1, false⟩]
  upvalues := []
  scopeDepth := if topLevel then -1 else 0
  enclosingClass := false

def addLocal (c : Compiler) (name : Text) : Result Compiler :=
  if c.locals.length < MAX_LOCALS then
    pure { c with locals := c.locals ++ [⟨name, c.scopeDepth, false⟩] }
  -- a write behind the array
  else throw .undefined

/-- In reverse order, so that the most nested variable is found first. -/
def resolveLocal (c : Compiler) (name : Text) : Option Nat :=
  (c.locals.reverse.findIdx? fun l => l.name = name).map fun i => c.locals.length - 1 - i

/-- The search for a variable of this scope, which stops at the first local of an outer one. -/
def findDeclared (c : Compiler) (name : Text) : Option Nat :=
  ((c.locals.rtakeWhile fun l => c.scopeDepth ≤ l.depth).reverse.findIdx? fun l =>
    l.name = name).map fun i => c.locals.length - 1 - i

def declareLocal (c : Compiler) (p : Parser ν ω) (name : Text) :
    Result (Int × Parser ν ω × Compiler) :=
  match c.findDeclared name with
  | some i => pure (i, p.error "Variable is already declared in this scope.", c)
  | none =>
      if c.locals.length = MAX_LOCALS then
        pure (-1, p.error "Cannot declare more than 256 variables in one scope.", c)
      else do
        let symbol := c.locals.length
        let c ← c.addLocal name
        pure (symbol, p, c)

def declareVariable (c : Compiler) (p : Parser ν ω) (name : Text) :
    Result (Int × Parser ν ω × Compiler) :=
  -- a name that is too long is declared all the same
  let p := if MAX_VARIABLE_NAME < name.length then
    p.error "Variable name cannot be longer than 64 characters." else p
  if c.scopeDepth = -1 then
    let (symbol, p) := p.defineVariable name
    pure (symbol, p, c)
  else c.declareLocal p name

def discardCode (l : Local) : Code := if l.isUpvalue then .closeUpvalue else .pop

/-- The code for the locals at `depth` or greater, from the last one. -/
def discardLocals (c : Compiler) (depth : Int) : Result (List Code) :=
  if -1 < c.scopeDepth then
    pure ((c.locals.rtakeWhile fun l => depth ≤ l.depth).reverse.map discardCode)
  else throw (.assertion "Cannot exit top-level scope.")

def popScope (c : Compiler) : Result (List Code × Compiler) := do
  let code ← c.discardLocals c.scopeDepth
  pure (code, { c with
    locals := c.locals.rdropWhile fun l => c.scopeDepth ≤ l.depth
    scopeDepth := c.scopeDepth - 1 })

/-- There is no check of the number of upvalues. -/
def addUpvalue (c : Compiler) (upvalue : CompilerUpvalue) : Result (Nat × Compiler) :=
  match c.upvalues.idxOf? upvalue with
  | some i => pure (i, c)
  | none =>
      if c.upvalues.length < MAX_UPVALUES then
        pure (c.upvalues.length, { c with upvalues := c.upvalues ++ [upvalue] })
      else throw .undefined

def markUpvalue (c : Compiler) (index : Nat) : Compiler :=
  { c with locals := c.locals.modify index fun l => { l with isUpvalue := true } }

end Compiler

/-- Methods do not close over local variables, but static fields are found. -/
def isBoundary (name : Text) (parentInClass : Bool) : Bool :=
  name.head? ≠ some '_' && parentInClass

/-- A local of the parent is marked, to be closed when it goes out of scope. -/
def addLocalUpvalue (c parent : Compiler) (rest : List Compiler) (index : Nat) :
    Result (Option Nat × List Compiler) := do
  let (i, c) ← c.addUpvalue ⟨true, index⟩
  pure (some i, c :: parent.markUpvalue index :: rest)

/-- What was found further out has become an upvalue of the parent. -/
def addOuterUpvalue (c : Compiler) (found : Option Nat) (rest : List Compiler) :
    Result (Option Nat × List Compiler) :=
  match found with
  | some index => do
      let (i, c) ← c.addUpvalue ⟨false, index⟩
      pure (some i, c :: rest)
  | none => pure (none, c :: rest)

def findUpvalue (name : Text) : List Compiler → Result (Option Nat × List Compiler)
  | [] => pure (none, [])
  | [c] => pure (none, [c])
  | c :: parent :: rest =>
      if isBoundary name parent.enclosingClass then pure (none, c :: parent :: rest)
      else
        match parent.resolveLocal name with
        | some index => addLocalUpvalue c parent rest index
        | none => do
            let (found, rest) ← findUpvalue name (parent :: rest)
            addOuterUpvalue c found rest

def resolveNonmodule (name : Text) (compilers : List Compiler) :
    Result (Option Variable × List Compiler) :=
  match compilers.head?.bind fun c => c.resolveLocal name with
  | some index => pure (some (.local_ index), compilers)
  | none => do
      let (found, compilers) ← findUpvalue name compilers
      pure (found.map Variable.upvalue, compilers)

/-- The first time a static field is seen, it is declared in the scope around the class. -/
def declareStatic (p : Parser ν ω) (name : Text) :
    List Compiler → Result (Option (Parser ν ω × List Compiler))
  | [] => pure none
  | c :: rest =>
      if c.enclosingClass then
        match c.resolveLocal name with
        | some _ => pure (some (p, c :: rest))
        | none => do
            let (_, p, c) ← c.declareVariable p name
            pure (some (p, c :: rest))
      else do
        let found ← declareStatic p name rest
        pure (found.map fun (p, rest) => (p, c :: rest))

namespace Compilation

def resolve (s : Compilation ν ω) (name : Text) : Result (Option Variable × Compilation ν ω) := do
  let (v, compilers) ← resolveNonmodule name s.compilers
  pure (v, { s with compilers })

def resolveName (s : Compilation ν ω) (name : Text) :
    Result (Option Variable × Compilation ν ω) := do
  let (v, s) ← s.resolve name
  pure (v.or (s.parser.find name), s)

def staticField (s : Compilation ν ω) (name : Text) : Result (Answer × Compilation ν ω) := do
  match ← declareStatic s.parser name s.compilers with
  | none =>
      pure (.variable none, { s with
        parser := s.parser.error "Cannot use a static field outside of a class definition." })
  | some (parser, compilers) => do
      let (v, s) ← (Compilation.mk compilers parser).resolveName name
      pure (.variable v, s)

def inClass (s : Compilation ν ω) : Bool := s.compilers.any Compiler.enclosingClass

/-- A name that is no variable of a function is a method of the receiver, or one of the module. -/
def name (s : Compilation ν ω) (name : Text) (line : ν) : Result (Answer × Compilation ν ω) := do
  let (v, s) ← s.resolve name
  if v.isSome then pure (.variable v, s)
  else if isLocalName name && s.inClass then do
    let (this, s) ← s.resolve "this"
    pure (.selfSend this, s)
  else
    let (v, parser) := s.parser.useVariable name line
    pure (.variable v, { s with parser })

/-- An operation on the innermost compiler. -/
def onCompiler (s : Compilation ν ω) (f : Compiler → Result (Answer × Parser ν ω × Compiler)) :
    Result (Answer × Compilation ν ω) :=
  match s.compilers with
  | [] => throw .undefined
  | c :: rest => do
      let (answer, parser, c) ← f c
      pure (answer, ⟨c :: rest, parser⟩)

def exec (s : Compilation ν ω) : Op ν → Result (Answer × Compilation ν ω)
  | .parse op => pure (.done, { s with parser := s.parser.perform op })
  | .declareVariable name => s.onCompiler fun c => do
      let (symbol, parser, c) ← c.declareVariable s.parser name
      pure (.symbol symbol, parser, c)
  | .addLocal name => s.onCompiler fun c => do
      pure (.symbol c.locals.length, s.parser, ← c.addLocal name)
  | .pushScope => s.onCompiler fun c =>
      pure (.done, s.parser, { c with scopeDepth := c.scopeDepth + 1 })
  | .popScope => s.onCompiler fun c => do
      let (code, c) ← c.popScope
      pure (.discarded code, s.parser, c)
  | .discardLocals depth => s.onCompiler fun c => do
      pure (.discarded (← c.discardLocals depth), s.parser, c)
  | .resolve name => do
      let (v, s) ← s.resolve name
      pure (.variable v, s)
  | .name name line => s.name name line
  | .staticField name => s.staticField name
  | .initCompiler isMethod =>
      pure (.done, { s with
        compilers := Compiler.init s.compilers.isEmpty isMethod :: s.compilers })
  -- after an error, the closure is not emitted
  | .endCompiler =>
      match s.compilers with
      | [] => throw .undefined
      | c :: rest =>
          pure (.closure (if s.parser.hasError then none else some c.upvalues),
            { s with compilers := rest })
  | .setClass inClass => s.onCompiler fun c =>
      pure (.done, s.parser, { c with enclosingClass := inClass })

/-- Only what is undefined in C, or a failed assertion, ends a run. -/
def run (s : Compilation ν ω) : List (Op ν) → Result (List Answer × Compilation ν ω)
  | [] => pure ([], s)
  | op :: ops => do
      let (answer, s) ← s.exec op
      let (answers, s) ← s.run ops
      pure (answer :: answers, s)

/-- A module, old or new, is about to be compiled in. -/
def start (module : ObjModule ν ω) : Compilation ν ω := ⟨[], ⟨module, false, []⟩⟩

end Compilation

/-! ### Lexical scoping -/

structure Declared where
  id : Nat
  name : Text
  depth : Int
deriving DecidableEq

/-- A function with the variables that are in scope and those that it captures. -/
structure Function where
  declared : List Declared
  captured : List Nat
  scopeDepth : Int
  enclosingClass : Bool
deriving DecidableEq

structure Scopes (ν ω : Type) where
  functions : List Function
  /-- The variables that were ever captured. -/
  escaped : List Nat
  count : Nat
  parser : Parser ν ω

namespace Function

def ids (f : Function) : List Nat := f.declared.map Declared.id

/-- The last one that was declared under the name. -/
def find (f : Function) (name : Text) : Option Nat :=
  (f.declared.reverse.find? fun d => d.name = name).map Declared.id

def declare (f : Function) (id : Nat) (name : Text) : Function :=
  { f with declared := f.declared ++ [⟨id, name, f.scopeDepth⟩] }

def addLocal (f : Function) (id : Nat) (name : Text) : Result Function :=
  if f.declared.length < MAX_LOCALS then pure (f.declare id name) else throw .undefined

def init (id : Nat) (topLevel isMethod : Bool) : Function where
  declared := [⟨id, if isMethod then "this" else [], -1⟩]
  captured := []
  scopeDepth := if topLevel then -1 else 0
  enclosingClass := false

/-- The variables of the scopes from a depth on. -/
def above (f : Function) (depth : Int) : List Declared := f.declared.filter fun d => depth ≤ d.depth

/-- The variable of this scope that has the name. -/
def findDeclared (f : Function) (name : Text) : Option Nat :=
  ((f.above f.scopeDepth).reverse.find? fun d => d.name = name).map Declared.id

def declareLocal (f : Function) (id : Nat) (p : Parser ν ω) (name : Text) :
    Result (Int × Parser ν ω × Function) :=
  match f.findDeclared name with
  | some x => pure (f.ids.idxOf x, p.error "Variable is already declared in this scope.", f)
  | none =>
      if f.declared.length = MAX_LOCALS then
        pure (-1, p.error "Cannot declare more than 256 variables in one scope.", f)
      else do
        let g ← f.addLocal id name
        pure (f.declared.length, p, g)

def declareVariable (f : Function) (id : Nat) (p : Parser ν ω) (name : Text) :
    Result (Int × Parser ν ω × Function) :=
  let p := if MAX_VARIABLE_NAME < name.length then
    p.error "Variable name cannot be longer than 64 characters." else p
  if f.scopeDepth = -1 then
    let (symbol, p) := p.defineVariable name
    pure (symbol, p, f)
  else f.declareLocal id p name

def leave (f : Function) : Function :=
  { f with
    declared := f.declared.filter fun d => ¬ f.scopeDepth ≤ d.depth
    scopeDepth := f.scopeDepth - 1 }

end Function

/-- The variable that a name means: that of the innermost function that has one. -/
def lookup (name : Text) : List Function → Option Nat
  | [] => none
  | [f] => f.find name
  | f :: parent :: rest =>
      (f.find name).or
        (if isBoundary name parent.enclosingClass then none else lookup name (parent :: rest))

/-- A function captures a variable, as do the functions between it and the variable. -/
def capture (id : Nat) : List Function → Result (List Function)
  | [] => pure []
  | f :: rest =>
      if id ∈ f.ids then pure (f :: rest)
      else do
        let rest ← capture id rest
        if id ∈ f.captured then pure (f :: rest)
        else if f.captured.length < MAX_UPVALUES then
          pure ({ f with captured := f.captured ++ [id] } :: rest)
        else throw .undefined

/-- Where the innermost function finds a variable. -/
def position (f : Function) (id : Nat) : Variable :=
  if id ∈ f.ids then .local_ (f.ids.idxOf id) else .upvalue (f.captured.idxOf id)

/-- How a closure captures a variable, out of the function around it. -/
def describe (parents : List Function) (id : Nat) : CompilerUpvalue :=
  match parents with
  | [] => ⟨false, 0⟩
  | p :: _ => if id ∈ p.ids then ⟨true, p.ids.idxOf id⟩ else ⟨false, p.captured.idxOf id⟩

/-- The innermost function that is in a class body declares a static field that it does not
have. -/
def declareField (id : Nat) (p : Parser ν ω) (name : Text) :
    List Function → Result (Option (Parser ν ω × List Function))
  | [] => pure none
  | f :: rest =>
      if f.enclosingClass then
        match f.find name with
        | some _ => pure (some (p, f :: rest))
        | none => do
            let (_, p, f) ← f.declareVariable id p name
            pure (some (p, f :: rest))
      else do
        let found ← declareField id p name rest
        pure (found.map fun (p, rest) => (p, f :: rest))

def discardCode (escaped : List Nat) (d : Declared) : Code :=
  if d.id ∈ escaped then .closeUpvalue else .pop

namespace Scopes

def discarded (s : Scopes ν ω) (f : Function) (depth : Int) : Answer :=
  .discarded ((f.above depth).reverse.map (discardCode s.escaped))

/-- A variable that another function has is captured. -/
def resolve (s : Scopes ν ω) (name : Text) : Result (Option Variable × Scopes ν ω) :=
  match lookup name s.functions with
  | none => pure (none, s)
  | some id =>
      if s.functions.head?.any fun f => id ∈ f.ids then
        pure (s.functions.head?.map fun f => position f id, s)
      else do
        let functions ← capture id s.functions
        pure (functions.head?.map fun f => position f id,
          { s with functions := functions, escaped := id :: s.escaped })

def staticField (s : Scopes ν ω) (name : Text) : Result (Answer × Scopes ν ω) := do
  match ← declareField s.count s.parser name s.functions with
  | none =>
      pure (.variable none, { s with
        parser := s.parser.error "Cannot use a static field outside of a class definition." })
  | some (parser, functions) => do
      let (v, s) ← Scopes.resolve { s with functions, parser, count := s.count + 1 } name
      pure (.variable (v.or (s.parser.find name)), s)

def inClass (s : Scopes ν ω) : Bool := s.functions.any Function.enclosingClass

def name (s : Scopes ν ω) (name : Text) (line : ν) : Result (Answer × Scopes ν ω) := do
  let (v, s) ← s.resolve name
  if v.isSome then pure (.variable v, s)
  else if isLocalName name && s.inClass then do
    let (this, s) ← s.resolve "this"
    pure (.selfSend this, s)
  else
    let (v, parser) := s.parser.useVariable name line
    pure (.variable v, { s with parser })

/-- What is done in the innermost function. -/
def execIn (s : Scopes ν ω) (f : Function) (rest : List Function) :
    Op ν → Result (Answer × Scopes ν ω)
  | .parse op => pure (.done, { s with parser := s.parser.perform op })
  | .declareVariable name => do
      let (symbol, parser, f) ← f.declareVariable s.count s.parser name
      pure (.symbol symbol, { s with functions := f :: rest, count := s.count + 1, parser })
  | .addLocal name => do
      let g ← f.addLocal s.count name
      pure (.symbol f.declared.length, { s with functions := g :: rest, count := s.count + 1 })
  | .pushScope =>
      pure (.done, { s with functions := { f with scopeDepth := f.scopeDepth + 1 } :: rest })
  | .popScope =>
      if -1 < f.scopeDepth then
        pure (s.discarded f f.scopeDepth, { s with functions := f.leave :: rest })
      else throw (.assertion "Cannot exit top-level scope.")
  | .discardLocals depth =>
      if -1 < f.scopeDepth then pure (s.discarded f depth, s)
      else throw (.assertion "Cannot exit top-level scope.")
  | .resolve name => do
      let (v, s) ← s.resolve name
      pure (.variable v, s)
  | .name name line => s.name name line
  | .staticField name => s.staticField name
  | .initCompiler isMethod =>
      pure (.done, { s with
        functions := Function.init s.count false isMethod :: f :: rest
        count := s.count + 1 })
  | .endCompiler =>
      pure (.closure (if s.parser.hasError then none else some (f.captured.map (describe rest))),
        { s with functions := rest })
  | .setClass inClass =>
      pure (.done, { s with functions := { f with enclosingClass := inClass } :: rest })

/-- Outside of all functions, there are only the variables of the module. -/
def execOutside (s : Scopes ν ω) : Op ν → Result (Answer × Scopes ν ω)
  | .parse op => pure (.done, { s with parser := s.parser.perform op })
  | .resolve _ => pure (.variable none, s)
  | .name name line => s.name name line
  | .staticField name => s.staticField name
  | .initCompiler isMethod =>
      pure (.done, { s with
        functions := [Function.init s.count true isMethod]
        count := s.count + 1 })
  | _ => throw .undefined

def exec (s : Scopes ν ω) (op : Op ν) : Result (Answer × Scopes ν ω) :=
  match s.functions with
  | [] => s.execOutside op
  | f :: rest => s.execIn f rest op

def run (s : Scopes ν ω) : List (Op ν) → Result (List Answer × Scopes ν ω)
  | [] => pure ([], s)
  | op :: ops => do
      let (answer, s) ← s.exec op
      let (answers, s) ← s.run ops
      pure (answer :: answers, s)

def start (module : ObjModule ν ω) : Scopes ν ω := ⟨[], [], 0, ⟨module, false, []⟩⟩

end Scopes

end Scoping

end Wrenegade
