/-
What the C++ compiler sees of the names in a body.

A statement declares locals and uses others.  The declared names stand in the
statement as the generator wrote them; the used ones include those inside a piece of
code that was looked up in a table: the arguments between the parentheses of a call,
and `inst` in front of an arrow.  Anything without an arrow or a `::` is taken to be
a local as well, such as the `null` printed for a missing entry.
-/
import Wrenegade.Model.GenContent

namespace Wrenegade

open Text

/-- The arguments of a call, between its parentheses. -/
def callArguments (code : Text) : List Text :=
  ((split (((code.dropWhile (· ≠ '(')).drop 1).dropLast) ",").map trim).filter (· ≠ [])

/-- The local a piece of code starts with, if it starts with one. -/
def receiverName (code : Text) : List Text :=
  if ("inst->" : Text) <+: code then ["inst"]
  else if ("::" : Text) <+: code then []
  else if code = [] then []
  else [code]

namespace Stmt

/-- The locals a statement declares. -/
def declares : Stmt → List Text
  | .argument name _ => [name]
  | .instance_ _ => ["inst"]
  | .call _ => []
  | .readMember _ => ["val"]
  | .typeofVal => ["type"]
  | .saveVal => []
  | .valuePointer => ["value"]
  | .loadValue => []
  | .assignValue _ => []
  | .newForeign _ => ["constructor"]
  | .dynamicArgument name => [name]
  | .object _ => ["obj"]
  | .newData _ => ["data"]
  | .copyData _ => []

/-- The locals a statement uses. -/
def uses : Stmt → List Text
  | .argument _ _ => []
  | .instance_ _ => []
  | .call code => receiverName code ++ callArguments code
  | .readMember _ => ["inst"]
  | .typeofVal => ["val"]
  | .saveVal => ["val", "type"]
  | .valuePointer => []
  | .loadValue => ["value"]
  | .assignValue target => "value" :: receiverName target
  | .newForeign _ => []
  | .dynamicArgument _ => ["value"]
  | .object _ => []
  | .newData params => "obj" :: params
  | .copyData _ => ["constructor", "data"]

end Stmt

/-- Every local is declared before it is used, and declared once; `declared` are the ones
in front of the statements. -/
def WellScoped : List Text → List Stmt → Prop
  | _, [] => True
  | declared, s :: rest =>
      (∀ x ∈ s.uses, x ∈ declared) ∧ (∀ x ∈ s.declares, x ∉ declared) ∧
        WellScoped (declared ++ s.declares) rest

instance WellScoped.decidable : ∀ declared body, Decidable (WellScoped declared body)
  | _, [] => isTrue trivial
  | declared, s :: rest =>
      have := WellScoped.decidable (declared ++ s.declares) rest
      inferInstanceAs (Decidable ((∀ x ∈ s.uses, x ∈ declared) ∧
        (∀ x ∈ s.declares, x ∉ declared) ∧ WellScoped (declared ++ s.declares) rest))

end Wrenegade
