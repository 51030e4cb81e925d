/-
The Wren module text as Wren reads it.

`nextToken` cuts the text into tokens, `classDefinition` reads the name of a foreign class,
and `method` one definition of its body: `foreign`, perhaps `static`, and a name with its
signature.  Of the lexer only what a foreign declaration can hold is told apart; anything
else is a token nothing matches.  The compiler limits the lengths of names and the number
of parameters.  `bindForeignMethod` then makes the key the generated dispatcher compares.

Of a whole module only the classes it declares are read, line by line.
-/
import Wrenegade.Model.Externs

namespace Wrenegade

open Text

/-! ### Tokens -/

inductive Token
  | name (text : Text)
  | keyword (text : Text)
  /-- A name that starts with an underscore. -/
  | field (text : Text)
  | leftParen
  | rightParen
  | comma
  | eq
  | line
  | other (c : Char)
deriving DecidableEq

/-- `keywords`. -/
def keywords : List Text :=
  ["break", "class", "construct", "else", "false", "for", "foreign", "if", "import", "in", "is",
    "null", "return", "static", "super", "this", "true", "var", "while"]

/-- `readName`: the token of a name, once all its characters are there. -/
def readName (text : Text) : Token :=
  if text ∈ keywords then .keyword text
  else if text.head? = some '_' then .field text
  else .name text

def isDigit (c : Char) : Bool := c.isDigit

/-- The token of a character that is not part of a name; white space makes none. -/
def charToken : Char → List Token
  | '(' => [.leftParen]
  | ')' => [.rightParen]
  | ',' => [.comma]
  | '=' => [.eq]
  | '\n' => [.line]
  | ' ' | '\r' | '\t' => []
  | c => [.other c]

/-- The tokens of a text, `pending` being the name read so far. -/
def tokens : Text → Text → List Token
  | [], [] => []
  | pending, [] => [readName pending]
  | [], c :: cs =>
      if isIdentChar c && !isDigit c then tokens [c] cs else charToken c ++ tokens [] cs
  | pending, c :: cs =>
      if isIdentChar c then tokens (pending ++ [c]) cs
      else readName pending :: (charToken c ++ tokens [] cs)

/-! ### Declarations -/

/-- The most parameters a method can have. -/
def MAX_PARAMETERS : Nat := 16

def MAX_METHOD_NAME : Nat := 64

def MAX_VARIABLE_NAME : Nat := 64

/-- The variables of the core module, which every module has. -/
def coreVariables : List Text :=
  ["Object", "Class", "Object metaclass", "Bool", "Fiber", "Fn", "Null", "Num", "Sequence",
    "MapSequence", "SkipSequence", "TakeSequence", "WhereSequence", "String",
    "StringByteSequence", "StringCodePointSequence", "List", "Map", "MapEntry",
    "MapKeySequence", "MapValueSequence", "Range", "System"]

inductive SignatureType
  | method | getter | setter
deriving DecidableEq

structure Signature where
  name : Text
  type : SignatureType
  arity : Nat
deriving DecidableEq

/-- `declareVariable`: the variables of the scope with the new one.  A compile error is `none`,
here as everywhere below. -/
def declareVariable (scope : List Text) (name : Text) : Option (List Text) :=
  if MAX_VARIABLE_NAME < name.length then none
  else if name ∈ scope then none
  else some (name :: scope)

/-- `finishParameterList` with the closing parenthesis after it, from the number of
parameters read so far, which are the variables of the scope. -/
def finishParameterList (arity : Nat) (scope : List Text) : List Token → Option (Nat × List Token)
  | .line :: rest => finishParameterList arity scope rest
  | .name name :: .comma :: rest =>
      -- `validateNumParameters`
      if arity + 1 = MAX_PARAMETERS + 1 then none
      else (declareVariable scope name).bind fun scope => finishParameterList (arity + 1) scope rest
  | .name name :: .rightParen :: rest =>
      if arity + 1 = MAX_PARAMETERS + 1 then none
      else (declareVariable scope name).map fun _ => (arity + 1, rest)
  | _ => none

/-- `namedSignature`: `maybeSetter`, and `parameterList` if it is none. -/
def namedSignature (name : Text) : List Token → Option (Signature × List Token)
  | .eq :: .leftParen :: .name param :: .rightParen :: rest =>
      (declareVariable [] param).map fun _ => ({ name, type := .setter, arity := 1 }, rest)
  | .eq :: _ => none
  | .leftParen :: .rightParen :: rest => some ({ name, type := .method, arity := 0 }, rest)
  | .leftParen :: rest =>
      (finishParameterList 0 [] rest).map fun p => ({ name, type := .method, arity := p.1 }, p.2)
  | rest => some ({ name, type := .getter, arity := 0 }, rest)

/-- `infixSignature`. -/
def infixSignature (name : Text) : List Token → Option (Signature × List Token)
  | .leftParen :: .name param :: .rightParen :: rest =>
      (declareVariable [] param).map fun _ => ({ name, type := .method, arity := 1 }, rest)
  | _ => none

/-- `signatureFromToken`, and the signature by the rule of the token: the operator `is` has that
of an operator, and `construct` has one for constructors, which is not read here since it needs
a name behind the keyword. -/
def readSignature : List Token → Option (Signature × List Token)
  | .name name :: rest => if MAX_METHOD_NAME < name.length then none else namedSignature name rest
  | .keyword k :: rest => if k = "is" then infixSignature k rest else none
  | _ => none

/-- `method`, for a foreign definition, and the new line that has to follow: whether it is
static, and its signature. -/
def foreignMethod : List Token → Option (Bool × Signature)
  | .keyword k :: rest =>
      if k = "foreign" then
        if rest.head? = some (.keyword "static") then finish true rest.tail else finish false rest
      else none
  | _ => none
where
  finish (isStatic : Bool) (rest : List Token) : Option (Bool × Signature) :=
    match readSignature rest with
    | some (signature, [.line]) => some (isStatic, signature)
    | _ => none

/-- `classDefinition` up to the body, for a foreign class in a module that has the variables of
the core module alone: the name of the class. -/
def foreignClass : List Token → Option Text
  | [.keyword f, .keyword k, .name name, .other '\x7b', .line] =>
      if f = "foreign" ∧ k = "class" then (declareVariable coreVariables name).map fun _ => name
      else none
  | _ => none

/-- `signatureParameterList` with parentheses. -/
def signatureParameterList (numParams : Nat) : Text :=
  "(" ++ argLoop (fun _ => "_") "," (min numParams MAX_PARAMETERS) ++ ")"

def signatureToString (signature : Signature) : Text :=
  signature.name ++
    match signature.type with
    | .method => signatureParameterList signature.arity
    | .getter => []
    | .setter => "=" ++ signatureParameterList 1

/-- The key `bindForeignMethod` looks up. -/
def bindForeignMethod (className : Text) (isStatic : Bool) (signature : Signature) : Text :=
  (if isStatic then ("static " : Text) else []) ++ className ++ "." ++ signatureToString signature

/-- The first line of an extern block. -/
def classLine (className : Text) : Text := "foreign class " ++ className ++ " \x7b\n"

/-- What the VM looks up for a line of the extern block of a class. -/
def foreignKey (className line : Text) : Option Text := do
  let className ← foreignClass (tokens [] (classLine className))
  let (isStatic, signature) ← foreignMethod (tokens [] line)
  some (bindForeignMethod className isStatic signature)

/-! ### Classes -/

/-- The class a line declares. -/
def declaredClass (line : Text) : Option Text :=
  if ("foreign class " : Text) <+: line ∧ (" \x7b" : Text) <:+ line then
    some ((line.drop 14).dropLast.dropLast)
  else none

/-- The classes a module declares. -/
def declaredClasses (module_ : Text) : List Text := (split module_ "\n").filterMap declaredClass

end Wrenegade
