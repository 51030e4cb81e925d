/-
What the binding macro sees of a Haxe class.

A class comes to the macro in two views.  `Context.getBuildFields` hands over its
own fields as the parser left them: a name, the access modifiers in the order they
were written, and the kind with its arguments.  A superclass is seen through
`haxe.macro.Type` instead: its instance fields after typing, with `isPublic`
worked out, properties turned into variables, and the constructor kept apart.
`ClassDecl.typedFields` is that second view, computed from the first.

Names carry their own well-formedness.  The compiler accepts a package only when
its segments start with a lower-case letter and a type only when it does not, and
several of the text manipulations of the generator stand or fall with that.
-/
import Wrenegade.Lib.HashMap
import Wrenegade.Lib.Path

namespace Wrenegade

open Text

/-! ### Names -/

/-- The characters of a Haxe identifier. -/
def isIdentChar (c : Char) : Bool := c.isAlphanum || c == '_'

def isIdent : Text → Bool
  | [] => false
  | c :: cs => (c.isAlpha || c == '_') && cs.all isIdentChar

/-- The compiler's test for a lower-case name: the first character that is not an
underscore decides. -/
def isLowerIdent : Text → Bool
  | [] => false
  | c :: cs => if c = '_' then cs.isEmpty || isLowerIdent cs else c.isLower

structure Ident where
  text : Text
  wf : isIdent text = true
deriving DecidableEq

/-- A segment of a package path. -/
structure PackIdent extends Ident where
  lower : isLowerIdent text = true
deriving DecidableEq

/-- The name of a type or of a module. -/
structure TypeIdent extends Ident where
  upper : isLowerIdent text = false
deriving DecidableEq

theorem Ident.isIdentChar_of_mem (x : Ident) {c : Char} (hc : c ∈ x.text) :
    isIdentChar c = true := by
  obtain ⟨t, ht⟩ := x
  cases t with
  | nil => simp at hc
  | cons d ds =>
      simp only [isIdent, Bool.and_eq_true, Bool.or_eq_true, List.all_eq_true] at ht
      rcases List.mem_cons.mp hc with rfl | h
      · rcases ht.1 with h | h <;> simp [isIdentChar, Char.isAlphanum, h]
      · exact ht.2 c h

/-- No separator stands in a name. -/
theorem Ident.not_mem (x : Ident) {c : Char} (hc : isIdentChar c = false) : c ∉ x.text := by
  intro h
  rw [x.isIdentChar_of_mem h] at hc
  exact Bool.noConfusion hc

theorem Ident.ne_nil (x : Ident) : x.text ≠ [] := by
  intro h
  have hwf := x.wf
  rw [h] at hwf
  exact Bool.noConfusion hwf

theorem Ident.plainName (x : Ident) : HaxePath.PlainName x.text where
  ne_nil := x.ne_nil
  ne_dot := fun h => x.not_mem (c := '.') (by decide) (by rw [h]; decide)
  ne_dotdot := fun h => x.not_mem (c := '.') (by decide) (by rw [h]; decide)
  noSlash := x.not_mem (by decide)
  noBackslash := x.not_mem (by decide)
  noColon := x.not_mem (by decide)

/-- Names have no white space to trim. -/
theorem Ident.trim_text (x : Ident) : trim x.text = x.text := by
  have hspace : ∀ c, isIdentChar c = true → isSpace c = false := by
    intro c hc
    have hlt : 14 ≤ c.toNat ∧ c ≠ ' ' := by
      simp only [isIdentChar, Char.isAlphanum, Char.isAlpha, Char.isUpper, Char.isLower,
        Char.isDigit, Bool.or_eq_true, Bool.and_eq_true, decide_eq_true_eq, beq_iff_eq,
        ge_iff_le, UInt32.le_iff_toNat_le, Char.toNat] at hc ⊢
      constructor
      · rcases hc with ((⟨h, -⟩ | ⟨h, -⟩) | ⟨h, -⟩) | rfl
        · exact Nat.le_trans (by decide) h
        · exact Nat.le_trans (by decide) h
        · exact Nat.le_trans (by decide) h
        · decide
      · rintro rfl
        revert hc
        decide
    simp [isSpace, hlt.2]
    omega
  have hdrop : ∀ s : Text, (∀ c ∈ s, isSpace c = false) → s.dropWhile isSpace = s := by
    intro s hs
    cases s with
    | nil => rfl
    | cons c cs => rw [List.dropWhile_cons_of_neg (by simp [hs c (by simp)])]
  have hx : ∀ c ∈ x.text, isSpace c = false := fun c hc =>
    hspace c (x.isIdentChar_of_mem hc)
  rw [trim, hdrop _ hx, hdrop _ (by simpa using hx), List.reverse_reverse]

/-! ### Fields -/

/-- `haxe.macro.Expr.Access`. -/
inductive Access
  | aPublic | aPrivate | aStatic | aOverride | aDynamic | aInline | aMacro | aFinal | aExtern
deriving DecidableEq

/-- `haxe.macro.Expr.FieldType`; of a function only the number of its arguments is read. -/
inductive FieldType
  | fFun (args : Nat)
  | fVar
  | fProp
deriving DecidableEq

/-- A build field. -/
structure Field where
  name : Ident
  access : List Access
  kind : FieldType
deriving DecidableEq

/-- `haxe.macro.Type.FieldKind`, a method with the number of its arguments. -/
inductive FieldKind
  | fMethod (args : Nat)
  | fVar
deriving DecidableEq

/-- A field of a typed class. -/
structure ClassField where
  name : Ident
  isPublic : Bool
  kind : FieldKind
deriving DecidableEq

/-! ### Classes -/

/-- A class as declared: its package, the module file it stands in, its name and its
fields, of which no two share a name. -/
structure ClassDecl where
  pack : List PackIdent
  moduleFile : TypeIdent
  name : TypeIdent
  fields : List Field
  nodup : (fields.map fun f => f.name.text).Nodup
deriving DecidableEq

namespace ClassDecl

def packTexts (C : ClassDecl) : List Text := C.pack.map fun p => p.text

/-- `Context.getLocalClass().toString()`. -/
def moduleName (C : ClassDecl) : Text := join (C.packTexts ++ [C.name.text]) "."

/-- `Context.getLocalModule()`. -/
def localModule (C : ClassDecl) : Text := join (C.packTexts ++ [C.moduleFile.text]) "."

/-- A class is the main type of its module when it is named like the file. -/
def IsMain (C : ClassDecl) : Prop := C.moduleFile = C.name

/-- Public after typing: declared so, or an override of a field declared so above. -/
def isPublicField (supers : List ClassDecl) (f : Field) : Bool :=
  !f.access.contains .aPrivate &&
    (f.access.contains .aPublic ||
      supers.any fun S => S.fields.any fun g =>
        g.name.text = f.name.text && g.access.contains .aPublic)

/-- The instance fields as `superClass.t.get().fields.get()` lists them. -/
def typedFields (C : ClassDecl) (supers : List ClassDecl) : List ClassField :=
  (C.fields.filter fun f => !f.access.contains .aStatic && f.name.text ≠ ("new" : Text)).map fun f =>
    { name := f.name
      isPublic := isPublicField supers f
      kind := match f.kind with
        | .fFun n => .fMethod n
        | .fVar => .fVar
        | .fProp => .fVar }

theorem packTexts_ne_nil_iff (C : ClassDecl) : C.packTexts ≠ [] ↔ C.pack ≠ [] := by
  simp [packTexts]

end ClassDecl

/-- A class handed to the macro, with the bound classes it extends, nearest first.
The last of them, or the class itself when there is none, extends `wren.WrenClass`.
No class extends itself. -/
structure LocalClass extends ClassDecl where
  supers : List ClassDecl
  distinct : ((toClassDecl :: supers).map ClassDecl.moduleName).Nodup
deriving DecidableEq

end Wrenegade
