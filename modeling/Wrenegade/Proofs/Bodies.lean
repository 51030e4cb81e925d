/-
The bodies of the foreign functions.

What a body should be is said first, for each kind of member: a method reads its
arguments and makes the call, a setter assigns, a getter reads and saves.  These
bodies are well-scoped whatever the member is called.

Then what the generator makes of a member is computed from the tables.  It finds the
arguments under the C function, but a function without any is told a getter, a setter
or a method by the last piece of its name, and the key of an accessor is what is left
when every `_get` or `_set` is taken out of the C function, its package included.

The code names packages, types and members as Haxe does.  In the C++ that the Haxe
compiler makes, they have these names unless they are reserved words there.
-/
import Wrenegade.Model.Scope
import Wrenegade.Proofs.Completion

namespace Wrenegade

open Text Registry Run

/-! ### What is asked for -/

theorem isIdent_marked (x : Ident) : isIdent ("_hx_" ++ x.text) = true := by
  have hmark : ("hx_" : Text).all isIdentChar = true := by decide
  show ((('_' : Char).isAlpha || '_' == '_') && ("hx_" ++ x.text : Text).all isIdentChar) = true
  rw [List.all_append, hmark]
  simpa using fun c hc => x.isIdentChar_of_mem hc

/-- What a name is the name of. -/
inductive NameKind
  | package
  | type
  | member
deriving DecidableEq

/-- The names that the Haxe compiler does not use in C++. -/
abbrev ReservedWords := NameKind → Text → Bool

/-- The name in C++: a reserved word gets a mark in front, as `_hx_typeof` has it. -/
def cppName (reserved : ReservedWords) (kind : NameKind) (x : Ident) : Ident :=
  if reserved kind x.text then ⟨"_hx_" ++ x.text, isIdent_marked x⟩ else x

/-- The path of a class in C++. -/
def cppPath (reserved : ReservedWords) (C : ClassDecl) : List Text :=
  C.pack.map (fun p => (cppName reserved .package p.toIdent).text) ++
    [(cppName reserved .type C.name.toIdent).text]

/-- The class as the generator names it. -/
def cppClass (C : ClassDecl) : Text := replace C.moduleName "." "::"

/-- A method called with its arguments in order. -/
def memberCall (name : Text) (n : Nat) : Text := name ++ "(" ++ argLoop argName ", " n ++ ")"

/-- Slots 1 to `n` read in order, each into a local of its own. -/
def readArguments (n : Nat) : List Stmt :=
  (params n).zipIdx.map fun a => Stmt.argument a.1 (a.2 + 1)

/-- A method called on the receiver, which is of the class `cls`. -/
def callBody (cls name : Text) (n : Nat) : List Stmt :=
  readArguments n ++ [.instance_ cls, .call ("inst->" ++ memberCall name n)]

def staticCallBody (cls name : Text) (n : Nat) : List Stmt :=
  readArguments n ++ [.call ("::" ++ cls ++ "_obj::" ++ memberCall name n)]

def assignBody (cls name : Text) : List Stmt :=
  [.valuePointer, .loadValue, .instance_ cls, .assignValue ("inst->" ++ name)]

def readBody (cls name : Text) : List Stmt :=
  [.instance_ cls, .readMember name, .typeofVal, .saveVal]

/-- These bodies for the members of a class, by the names that the generator has for them. -/
def methodBody (C : ClassDecl) (name : Text) (n : Nat) : List Stmt :=
  callBody (cppClass C) name n

def setterBody (C : ClassDecl) (name : Text) : List Stmt := assignBody (cppClass C) name

/-- The keys of the functions of a member. -/
def BoundMember.keys (m : BoundMember) : List Text :=
  match m.access with
  | .instanceMethod _ | .staticMethod _ => [toLower m.name.text]
  | .variable_ => [toLower m.name.text ++ "_set", toLower m.name.text ++ "_get"]

/-- The functions of a member, by their keys, with the bodies that perform its access: they name
class and member as C++ does. -/
def BoundMember.bodies (reserved : ReservedWords) (C : ClassDecl) (m : BoundMember) :
    List (Text × List Stmt) :=
  let key := toLower m.name.text
  let cls := join (cppPath reserved C) "::"
  let name := (cppName reserved .member m.name).text
  match m.access with
  | .instanceMethod n => [(key, callBody cls name n)]
  | .staticMethod n => [(key, staticCallBody cls name n)]
  | .variable_ => [(key ++ "_set", assignBody cls name), (key ++ "_get", readBody cls name)]

/-- The unit defines the functions of a member, with bodies that are well-scoped and perform
its access. -/
def Performs (reserved : ReservedWords) (cfg : Config) (C : ClassDecl) (cpp : CppUnit)
    (m : BoundMember) : Prop :=
  ∀ b ∈ m.bodies reserved C,
    (∃ f ∈ cpp.functions, f.name = funcBase cfg C ++ b.1) ∧
    ∀ f ∈ cpp.functions, f.name = funcBase cfg C ++ b.1 →
      WellScoped [] f.body ∧ f.body = b.2

/-- The accessor a lower-cased name is taken for, if it is. -/
def lastPiece (key : Text) : Text := (split key "_").getLastD []

/-- Nothing stands between the member and its body: it is the last one with its key, the
generator guesses right what it is, and C++ has the names that it prints. -/
structure Reached (reserved : ReservedWords) (cfg : Config) (C : LocalClass) (m : BoundMember) :
    Prop where
  last : C.lastMember (toLower m.name.text) = some m
  method : m.args = some [] → lastPiece (toLower m.name.text) ≠ "get" ∧
    lastPiece (toLower m.name.text) ≠ "set"
  static_ : ∀ n, m.access = .staticMethod n →
    bindPart cfg C.toClassDecl = join (cppPath reserved C.toClassDecl) "/"
  variable_ : m.access = .variable_ → m.name.text ≠ "new" ∧
    ∀ accessor : Text, accessor = "_set" ∨ accessor = "_get" →
      ¬ accessor <:+: funcBase cfg C.toClassDecl ++ toLower m.name.text ∧
      ∀ m', C.lastMember (toLower m.name.text ++ accessor) = some m' → m'.args = some []
  class_ : (∀ n, m.access ≠ .staticMethod n) →
    cppPath reserved C.toClassDecl = C.packTexts ++ [C.name.text]
  member : reserved .member m.name.text = false

/-! ### Arguments -/

theorem argName_injective : Function.Injective argName := by
  intro i j h
  have h : Nat.toDigits 10 i = Nat.toDigits 10 j := List.append_cancel_left h
  have hi := Nat.ofDigitChars_toDigits (b := 10) (n := i) (by decide) (by decide)
  rw [h, Nat.ofDigitChars_toDigits (by decide) (by decide)] at hi
  exact hi.symm

theorem params_nodup (n : Nat) : (params n).Nodup := List.nodup_range.map argName_injective

theorem params_succ (n : Nat) : params (n + 1) = params n ++ [argName n] := by
  rw [params, List.range_succ, List.map_append]
  rfl

theorem params_cons (n : Nat) :
    params (n + 1) = argName 0 :: (List.range n).map fun i => argName (i + 1) := by
  rw [params, List.range_succ_eq_map, List.map_cons, List.map_map]
  rfl

/-- No separator stands in the name of an argument. -/
theorem not_mem_argName {c : Char} (hc : isIdentChar c = false) (i : Nat) : c ∉ argName i := by
  intro h
  rcases List.mem_append.mp h with h | h
  · have hall : ("arg" : Text).all isIdentChar = true := by decide
    rw [List.all_eq_true.mp hall c h] at hc
    exact Bool.noConfusion hc
  · exact not_mem_ofNat hc i h

/-- The argument loop joins the names of the arguments. -/
theorem argLoop_params (n : Nat) : argLoop argName ", " n = join (params n) ", " := by
  have hcomma : ∀ n : Nat,
      ((List.range n).flatMap fun i => argName i ++ (", " : Text)) ++ argName n
        = join (params (n + 1)) ", " := by
    intro n
    induction n with
    | zero => rfl
    | succ n ih =>
        rw [List.range_succ, List.flatMap_append, params_succ, join_concat (by simp [params]), ← ih]
        simp
  cases n with
  | zero => rfl
  | succ n => rw [argLoop_succ, hcomma]

theorem not_mem_memberCall {c : Char} (hc : isIdentChar c = false) (x : Ident) (n : Nat)
    (hargs : c ∉ ("()" : Text)) (hsep : c ∉ (", " : Text)) : c ∉ memberCall x.text n := by
  have hopen : c ∉ ("(" : Text) := fun h => hargs (List.mem_append_left ")" h)
  have hclose : c ∉ (")" : Text) := fun h => hargs (List.mem_append_right "(" h)
  rw [memberCall, argLoop_params]
  simp only [List.mem_append, not_or]
  refine ⟨⟨⟨x.not_mem hc, hopen⟩, fun h => ?_⟩, hclose⟩
  rcases mem_join h with h | ⟨p, hp, h⟩
  · exact hsep h
  · obtain ⟨i, -, rfl⟩ := List.mem_map.mp hp
    exact not_mem_argName hc i h

theorem isIdent_argName (i : Nat) : isIdent (argName i) = true := by
  have hall : (argName i).all isIdentChar = true := List.all_eq_true.mpr fun c hc => by
    cases hident : isIdentChar c with
    | true => rfl
    | false => exact absurd hc (not_mem_argName hident i)
  rw [show argName i = 'a' :: ("rg" ++ ofNat i) from rfl, List.all_cons] at hall
  rw [show argName i = 'a' :: ("rg" ++ ofNat i) from rfl, isIdent, (Bool.and_eq_true_iff.mp hall).2]
  rfl

/-- A blank in front is trimmed away. -/
theorem trim_argName (i : Nat) :
    trim (argName i) = argName i ∧ trim (' ' :: argName i) = argName i := by
  have htrim : trim (argName i) = argName i := Ident.trim_text ⟨argName i, isIdent_argName i⟩
  refine ⟨htrim, ?_⟩
  rw [trim, List.dropWhile_cons_of_pos (by decide)]
  exact htrim

/-- The arguments read back from a call are those it was made with. -/
theorem callArguments_eq {front : Text} (hfront : '(' ∉ front) (n : Nat) :
    callArguments (front ++ ("(" ++ argLoop argName ", " n ++ ")")) = params n := by
  have hdrop : ((front ++ ("(" ++ argLoop argName ", " n ++ ")")).dropWhile (· ≠ '(')).drop 1
      = argLoop argName ", " n ++ [')'] := by
    have hall : ∀ c ∈ front, decide (c ≠ '(') = true := fun c hc =>
      decide_eq_true fun h : c = '(' => hfront (h ▸ hc)
    rw [List.dropWhile_append_of_pos hall]
    rfl
  have hne : ∀ i, argName i ≠ [] := fun i => Ident.ne_nil ⟨argName i, isIdent_argName i⟩
  unfold callArguments
  rw [hdrop, List.dropLast_concat, argLoop_params]
  cases n with
  | zero => rfl
  | succ n =>
      have hsplit : split (join (params (n + 1)) ", ") ","
          = argName 0 :: ((List.range n).map fun i => ' ' :: argName (i + 1)) := by
        have hjoin := join_separator (argName 0) ((List.range n).map fun i => argName (i + 1)) ','
          [' ']
        rw [List.map_map] at hjoin
        rw [params_cons]
        refine (congrArg (split · ",") hjoin).trans (split_join (List.cons_ne_nil _ _) ?_)
        intro p hp
        rcases List.mem_cons.mp hp with rfl | hp
        · exact not_mem_argName (by decide) 0
        · obtain ⟨i, -, rfl⟩ := List.mem_map.mp hp
          rw [Function.comp_apply, List.singleton_append, List.mem_cons, not_or]
          exact ⟨by decide, not_mem_argName (by decide) (i + 1)⟩
      have hrest : ((List.range n).map fun i => ' ' :: argName (i + 1)).map trim
          = (List.range n).map fun i => argName (i + 1) := by
        rw [List.map_map]
        exact List.map_congr_left fun i _ => (trim_argName (i + 1)).2
      rw [hsplit, List.map_cons, hrest, (trim_argName 0).1, ← params_cons]
      refine List.filter_eq_self.mpr fun p hp => ?_
      obtain ⟨i, -, rfl⟩ := List.mem_map.mp hp
      exact decide_eq_true (hne i)

/-! ### The bodies asked for are well-scoped -/

theorem wellScoped_cons {declared : List Text} {s : Stmt} {rest : List Stmt} :
    WellScoped declared (s :: rest) ↔ (∀ x ∈ s.uses, x ∈ declared) ∧
      (∀ x ∈ s.declares, x ∉ declared) ∧ WellScoped (declared ++ s.declares) rest := Iff.rfl

theorem wellScoped_append (body rest : List Stmt) : ∀ declared : List Text,
    WellScoped declared (body ++ rest) ↔
      WellScoped declared body ∧ WellScoped (declared ++ body.flatMap Stmt.declares) rest := by
  induction body with
  | nil =>
      intro declared
      rw [List.nil_append, List.flatMap_nil, List.append_nil]
      exact ⟨fun h => ⟨trivial, h⟩, fun h => h.2⟩
  | cons s body ih =>
      intro declared
      rw [List.cons_append, wellScoped_cons, wellScoped_cons, ih, List.flatMap_cons,
        List.append_assoc]
      tauto

/-- What is declared once is declared under different names. -/
theorem nodup_of_wellScoped {body : List Stmt} : ∀ {declared : List Text}, declared.Nodup →
    WellScoped declared body → (declared ++ body.flatMap Stmt.declares).Nodup := by
  induction body with
  | nil =>
      intro declared hnodup _
      rw [List.flatMap_nil, List.append_nil]
      exact hnodup
  | cons s body ih =>
      intro declared hnodup h
      obtain ⟨-, hfresh, hrest⟩ := wellScoped_cons.mp h
      have hone : s.declares.Nodup := by cases s <;> simp [Stmt.declares]
      rw [List.flatMap_cons, ← List.append_assoc]
      refine ih (List.nodup_append.mpr ⟨hnodup, hone, ?_⟩) hrest
      rintro y hy z hz rfl
      exact hfresh y hz hy

theorem declares_readArguments (n : Nat) : (readArguments n).flatMap Stmt.declares = params n := by
  have hzip : ∀ (ps : List Text) (k : Nat),
      ((ps.zipIdx k).map fun a => Stmt.argument a.1 (a.2 + 1)).flatMap Stmt.declares = ps := by
    intro ps
    induction ps with
    | nil => intro k; rfl
    | cons p ps ih =>
        intro k
        rw [List.zipIdx_cons, List.map_cons, List.flatMap_cons, ih (k + 1)]
        rfl
  exact hzip (params n) 0

theorem wellScoped_readArguments (n : Nat) : WellScoped [] (readArguments n) := by
  have hzip : ∀ (ps : List Text) (k : Nat) (declared : List Text), (declared ++ ps).Nodup →
      WellScoped declared ((ps.zipIdx k).map fun a => Stmt.argument a.1 (a.2 + 1)) := by
    intro ps
    induction ps with
    | nil => intro k declared _; trivial
    | cons p ps ih =>
        intro k declared hnodup
        rw [List.zipIdx_cons, List.map_cons, wellScoped_cons]
        have hp : p ∉ declared := by
          have hdisj := (List.nodup_append.mp hnodup).2.2
          exact fun hmem => hdisj p hmem p List.mem_cons_self rfl
        refine ⟨fun x hx => (by cases hx), fun x hx => ?_, ih (k + 1) _ ?_⟩
        · rw [List.mem_singleton.mp hx]
          exact hp
        · rw [List.append_assoc]
          exact hnodup
  exact hzip (params n) 0 [] (params_nodup n)

theorem inst_not_mem_params (n : Nat) : ("inst" : Text) ∉ params n := by
  intro h
  obtain ⟨i, -, hi⟩ := List.mem_map.mp h
  exact absurd (List.cons.inj hi).1 (by decide)

/-- What a call on the receiver is called on and with. -/
theorem receiverName_inst (rest : Text) : receiverName ("inst->" ++ rest) = [("inst" : Text)] :=
  if_pos (List.prefix_append _ _)

theorem callArguments_memberCall (x : Ident) (n : Nat) :
    callArguments ("inst->" ++ memberCall x.text n) = params n := by
  have hfront : '(' ∉ ("inst->" : Text) ++ x.text := by
    rw [List.mem_append, not_or]
    exact ⟨by decide, x.not_mem (by decide)⟩
  rw [← callArguments_eq hfront n, memberCall]
  simp only [List.append_assoc]

theorem wellScoped_callBody (cls : Text) (x : Ident) (n : Nat) :
    WellScoped [] (callBody cls x.text n) := by
  rw [callBody, wellScoped_append, declares_readArguments, List.nil_append, wellScoped_cons,
    wellScoped_cons]
  refine ⟨wellScoped_readArguments n, fun y hy => (by cases hy), fun y hy => ?_, fun y hy => ?_,
    fun y hy => (by cases hy), trivial⟩
  · rw [List.mem_singleton.mp hy]
    exact inst_not_mem_params n
  · rw [Stmt.uses, callArguments_memberCall, receiverName_inst] at hy
    rcases List.mem_append.mp hy with hy | hy
    · exact List.mem_append_right _ hy
    · exact List.mem_append_left _ hy

theorem wellScoped_methodBody (C : ClassDecl) (x : Ident) (n : Nat) :
    WellScoped [] (methodBody C x.text n) := wellScoped_callBody _ x n

theorem wellScoped_staticCallBody {cls : Text} (hcls : '(' ∉ cls) (x : Ident) (n : Nat) :
    WellScoped [] (staticCallBody cls x.text n) := by
  have hfront : '(' ∉ ("::" : Text) ++ cls ++ "_obj::" ++ x.text := by
    simp only [List.mem_append, not_or]
    exact ⟨⟨⟨by decide, hcls⟩, by decide⟩, x.not_mem (by decide)⟩
  have hargs : callArguments ("::" ++ cls ++ "_obj::" ++ memberCall x.text n) = params n := by
    rw [← callArguments_eq hfront n, memberCall]
    simp only [List.append_assoc]
  have hreceiver : receiverName ("::" ++ cls ++ "_obj::" ++ memberCall x.text n) = [] := by
    rw [List.append_assoc, List.append_assoc]
    rfl
  rw [staticCallBody, wellScoped_append, declares_readArguments, List.nil_append, wellScoped_cons]
  refine ⟨wellScoped_readArguments n, fun y hy => ?_, fun y hy => (by cases hy), trivial⟩
  rw [Stmt.uses, hargs, hreceiver] at hy
  exact hy

theorem wellScoped_assignBody (cls name : Text) : WellScoped [] (assignBody cls name) := by
  have huses : (Stmt.assignValue ("inst->" ++ name)).uses = [("value" : Text), "inst"] := by
    rw [Stmt.uses, receiverName_inst]
  rw [assignBody, wellScoped_cons, wellScoped_cons, wellScoped_cons, wellScoped_cons, huses]
  simp only [Stmt.uses, Stmt.declares]
  decide

theorem wellScoped_setterBody (C : ClassDecl) (name : Text) : WellScoped [] (setterBody C name) :=
  wellScoped_assignBody _ name

theorem wellScoped_readBody (cls name : Text) : WellScoped [] (readBody cls name) := by
  rw [readBody, wellScoped_cons, wellScoped_cons, wellScoped_cons, wellScoped_cons]
  simp only [Stmt.uses, Stmt.declares]
  decide

/-! ### Names in C++ -/

section Names

variable {reserved : ReservedWords} {kind : NameKind} {x y : Ident}

/-- A marked name is longer, so it is not the same in other letters. -/
theorem reserved_of_toLower (h : toLower (cppName reserved kind x).text = toLower x.text) :
    reserved kind x.text = false := by
  rw [Bool.eq_false_iff]
  intro hreserved
  have hlength := congrArg List.length h
  rw [cppName, if_pos hreserved] at hlength
  simp only [toLower, List.length_map, List.length_append] at hlength
  have hmark : ("_hx_" : Text).length = 4 := rfl
  omega

theorem cppName_of_not_reserved (h : reserved kind x.text = false) : cppName reserved kind x = x := by
  rw [cppName, h]
  rfl

theorem length_le_cppName : x.text.length ≤ (cppName reserved kind x).text.length := by
  unfold cppName
  split
  · show x.text.length ≤ (("_hx_" : Text) ++ x.text).length
    rw [List.length_append]
    omega
  · exact le_refl _

end Names

section Path

variable (reserved : ReservedWords) (C : ClassDecl)

theorem cppPath_ne_nil : cppPath reserved C ≠ [] := by simp [cppPath]

theorem not_mem_of_mem_cppPath {p : Text} (hp : p ∈ cppPath reserved C) {c : Char}
    (hc : isIdentChar c = false) : c ∉ p := by
  rcases List.mem_append.mp hp with hp | hp
  · obtain ⟨q, -, rfl⟩ := List.mem_map.mp hp
    exact Ident.not_mem _ hc
  · rw [List.mem_singleton.mp hp]
    exact Ident.not_mem _ hc

/-- The generator names the class as C++ does if no part of its path is reserved. -/
theorem join_cppPath_eq_iff :
    join (cppPath reserved C) "::" = cppClass C ↔
      cppPath reserved C = C.packTexts ++ [C.name.text] := by
  rw [cppClass, C.replace_moduleName]
  constructor
  · intro h
    have hleft : split (join (cppPath reserved C) "::") "::" = cppPath reserved C :=
      split_join_delimiter (cppPath_ne_nil reserved C)
        (fun p hp => not_mem_of_mem_cppPath reserved C hp (by decide)) [':']
    have hright : split (join (C.packTexts ++ [C.name.text]) "::") "::"
        = C.packTexts ++ [C.name.text] :=
      split_join_delimiter (by simp) (fun p hp => C.noSeparator C.name (by decide) hp) [':']
    rw [← hleft, h, hright]
  · intro h
    rw [h]

end Path

/-! ### What members are called by -/

section Entries

variable (cfg : Config) (C : ClassDecl)

/-- The class object holds colons and identifiers. -/
theorem not_mem_cObject {c : Char} (hc : isIdentChar c = false) (hcolon : c ≠ ':') :
    c ∉ cObject cfg C := by
  have hobj : c ∉ ("_obj" : Text) := by
    intro h
    have hall : ("_obj" : Text).all isIdentChar = true := by decide
    rw [List.all_eq_true.mp hall c h] at hc
    exact Bool.noConfusion hc
  have hsep : c ∉ ("::" : Text) := fun h => by
    rcases List.mem_cons.mp h with h | h
    · exact hcolon h
    · exact hcolon (List.mem_singleton.mp h)
  have hpath : c ∉ join (split (bindPart cfg C) "/") "::" := by
    intro h
    rcases mem_join h with h | ⟨p, hp, h⟩
    · exact hsep h
    · obtain ⟨hslash, hsub⟩ := mem_piece (x := '/') hp
      rcases mem_bindPart cfg C (hsub c h) with hident | rfl
      · rw [hident] at hc
        exact Bool.noConfusion hc
      · exact hslash h
  unfold cObject
  simp only [List.mem_append, not_or]
  exact ⟨⟨⟨hsep, hpath⟩, hobj⟩, hsep⟩

theorem cObject_eq :
    cObject cfg C = "::" ++ join (split (bindPart cfg C) "/") "::" ++ "_obj::" := by
  unfold cObject
  rw [List.append_assoc _ ("_obj" : Text)]
  rfl

theorem cCall_eq (receiver name : Text) (n : Nat) :
    cCall cfg C receiver name n = cObject cfg C ++ (receiver ++ memberCall name n) := by
  rw [cCall, memberCall]
  simp only [List.append_assoc]

/-- Behind the arrow stands what follows the receiver. -/
theorem afterArrow_receiver {rest : Text} (hrest : '-' ∉ rest) :
    afterArrow (cObject cfg C ++ ("getInstance()->" ++ rest)) = some rest := by
  have hfront : '-' ∉ cObject cfg C ++ "getInstance()" := by
    rw [List.mem_append, not_or]
    exact ⟨not_mem_cObject cfg C (by decide) (by decide), by decide⟩
  have hsplit : split (cObject cfg C ++ ("getInstance()->" ++ rest)) "->"
      = [cObject cfg C ++ "getInstance()", rest] := by
    have h := split_append_delimiter hfront ['>'] rest
    rw [split_without hrest ['>'], List.append_assoc] at h
    exact h
  rw [afterArrow, hsplit]
  rfl

/-- Without the receiver there is no arrow. -/
theorem afterArrow_none {rest : Text} (hrest : '-' ∉ rest) :
    afterArrow (cObject cfg C ++ rest) = none := by
  have hno : '-' ∉ cObject cfg C ++ rest := by
    rw [List.mem_append, not_or]
    exact ⟨not_mem_cObject cfg C (by decide) (by decide), hrest⟩
  have hsplit : split (cObject cfg C ++ rest) "->" = [cObject cfg C ++ rest] :=
    split_without hno ['>']
  rw [afterArrow, hsplit]
  rfl

/-- What the generator reads behind the arrow of a member's entry. -/
def BoundMember.reachedBy (m : BoundMember) : Option Text :=
  match m.access with
  | .instanceMethod n => some (memberCall m.name.text n)
  | .staticMethod _ => none
  | .variable_ => if m.name.text = ("new" : Text) then none else some m.name.text

theorem afterArrow_entry (m : BoundMember) : afterArrow (m.entry cfg C) = m.reachedBy := by
  unfold BoundMember.entry BoundMember.reachedBy
  cases m.access with
  | instanceMethod n =>
      simp only
      rw [cCall_eq]
      exact afterArrow_receiver cfg C
        (not_mem_memberCall (by decide) m.name n (by decide) (by decide))
  | staticMethod n =>
      simp only
      rw [cCall_eq, List.nil_append]
      exact afterArrow_none cfg C (not_mem_memberCall (by decide) m.name n (by decide) (by decide))
  | variable_ =>
      simp only
      by_cases hnew : m.name.text = ("new" : Text)
      · rw [if_pos ((isNew_iff _).mpr hnew), if_pos hnew, List.append_nil]
        exact afterArrow_none cfg C (m.name.not_mem (by decide))
      · rw [if_neg fun h => hnew ((isNew_iff _).mp h), if_neg hnew, List.append_assoc]
        exact afterArrow_receiver cfg C (m.name.not_mem (by decide))

/-- Only a variable is reached by its bare name. -/
theorem reachedBy_eq_name {m : BoundMember} {x : Ident} (h : m.reachedBy = some x.text) :
    m = ⟨x, .variable_⟩ ∧ x.text ≠ "new" := by
  obtain ⟨name, access⟩ := m
  unfold BoundMember.reachedBy at h
  cases access with
  | instanceMethod n =>
      have hparen : '(' ∈ x.text := by
        rw [← Option.some.inj h, memberCall]
        simp
      exact absurd hparen (x.not_mem (by decide))
  | staticMethod n => cases h
  | variable_ =>
      simp only at h
      split at h
      · cases h
      · rename_i hnew
        have hname : name = x := by
          obtain ⟨a, ha⟩ := name
          obtain ⟨b, hb⟩ := x
          obtain rfl : a = b := Option.some.inj h
          rfl
        rw [← hname]
        exact ⟨rfl, hnew⟩

end Entries

/-! ### What the generator writes -/

/-- The body written for the function with a given key. -/
def writtenBody (cfg : Config) (C : LocalClass) (key : Text) : List Stmt :=
  let func := funcBase cfg C.toClassDecl ++ key
  let entry := fun k =>
    (memberAt cfg C.toClassDecl C.members k).map (BoundMember.entry cfg C.toClassDecl)
  match (C.lastMember key).map BoundMember.args with
  | some (some (p :: ps)) =>
      ((p :: ps).zipIdx.map fun a => Stmt.argument a.1 (a.2 + 1)) ++
        callStmts (cppClass C.toClassDecl) (entry func)
  | _ =>
      if lastPiece key = "get" then
        getterStmts (cppClass C.toClassDecl) (entry (replace func "_get" []))
      else if lastPiece key = "set" then
        setterStmts (cppClass C.toClassDecl) (entry (replace func "_set" []))
      else callStmts (cppClass C.toClassDecl) (entry func)

section Written

variable {cfg : Config} {C : LocalClass}

/-- Only the key is looked at for the last piece. -/
theorem lastPiece_funcBase (key : Text) :
    (split (funcBase cfg C.toClassDecl ++ key) "_").getLastD [] = lastPiece key := by
  obtain ⟨front, hfront⟩ : ∃ front, funcBase cfg C.toClassDecl = front ++ ['_'] :=
    ⟨toLower (join (split (bindPart cfg C.toClassDecl) "/") "_"), by
      rw [funcBase, toLower, List.map_append]
      rfl⟩
  have hsplit : split (funcBase cfg C.toClassDecl ++ key) "_"
      = split front "_" ++ split key "_" := by
    rw [hfront, List.append_assoc]
    exact split_append_delim front '_' key
  obtain ⟨p, ps, hkey⟩ := List.exists_cons_of_ne_nil (split_ne_nil (d := "_") (by simp) key)
  rw [hsplit, lastPiece, hkey, List.getLastD_eq_getLast?, List.getLastD_eq_getLast?,
    List.getLast?_append, List.getLast?_cons]
  rfl

/-- **The body of a declared function.** -/
theorem genFunction_body {e : SigEntry} (he : e ∈ C.entries) {f : CFunction}
    (h : genFunction (cppClass C.toClassDecl) (registration cfg C Tables.empty)
      (foreignFunc (funcBase cfg C.toClassDecl ++ e.key)) = .ok f) :
    f.name = funcBase cfg C.toClassDecl ++ e.key ∧ f.body = writtenBody cfg C e.key ∧
      (C.lastMember e.key).map BoundMember.args ≠ some none := by
  have hargs := @lookup_args cfg C e he
  have hsig : funcSig (foreignFunc (funcBase cfg C.toClassDecl ++ e.key))
      = funcBase cfg C.toClassDecl ++ e.key := funcSig_entry he
  have hentries := (registration_accesses cfg C).entries
  unfold genFunction at h
  simp only [hargs, hsig, hentries, lastPiece_funcBase] at h
  unfold writtenBody
  cases hlast : (C.lastMember e.key).map BoundMember.args with
  | none =>
      rw [hlast] at h
      rw [← Except.ok.inj h]
      exact ⟨rfl, rfl, by simp⟩
  | some args =>
      rw [hlast] at h
      cases args with
      | none => cases h
      | some ps =>
          cases ps with
          | nil =>
              rw [← Except.ok.inj h]
              exact ⟨rfl, rfl, by simp⟩
          | cons p ps =>
              rw [← Except.ok.inj h]
              exact ⟨rfl, rfl, by simp⟩

variable {cpp : CppUnit} {header : CppHeader} {n : Nat}

/-- The functions of a unit are generated one after the other. -/
theorem functions_forall₂
    (hunit : genUnit cfg.order C.moduleName C.name.text (registration cfg C Tables.empty)
      = .ok (cpp, header, n)) :
    List.Forall₂ (fun func f => genFunction (cppClass C.toClassDecl)
        (registration cfg C Tables.empty) func = .ok f)
      (registration cfg C Tables.empty).foreignFuncsDec cpp.functions := by
  rw [genUnit, collectIncludes_registration] at hunit
  by_cases hkeys : (registration cfg C Tables.empty).bindCModules.keys = []
  · rw [if_pos hkeys] at hunit
    cases hunit
  · rw [if_neg hkeys] at hunit
    obtain ⟨functions, hfunctions, hunit⟩ := bind_eq_ok.mp hunit
    obtain ⟨allocators, -, hunit⟩ := bind_eq_ok.mp hunit
    obtain ⟨targets, -, hunit⟩ := bind_eq_ok.mp hunit
    simp only [Except.ok.injEq, Prod.mk.injEq] at hunit
    obtain ⟨rfl, -, -⟩ := hunit
    exact mapM_eq_ok hfunctions

/-- Every function is that of a published entry. -/
theorem exists_entry_of_mem
    (hunit : genUnit cfg.order C.moduleName C.name.text (registration cfg C Tables.empty)
      = .ok (cpp, header, n)) {f : CFunction} (hf : f ∈ cpp.functions) :
    ∃ e ∈ C.entries, e.published = true ∧ f.name = funcBase cfg C.toClassDecl ++ e.key ∧
      f.body = writtenBody cfg C e.key ∧ (C.lastMember e.key).map BoundMember.args ≠ some none := by
  obtain ⟨func, hfunc, hgen⟩ := exists_of_forall₂ (functions_forall₂ hunit).flip hf
  obtain ⟨e, he, hpub, rfl⟩ := mem_foreignFuncsDec.mp hfunc
  exact ⟨e, he, hpub, genFunction_body he hgen⟩

/-- The functions of a unit are those of the published entries. -/
theorem mem_functions
    (hunit : genUnit cfg.order C.moduleName C.name.text (registration cfg C Tables.empty)
      = .ok (cpp, header, n)) {e : SigEntry} (he : e ∈ C.entries) (hpub : e.published = true) :
    (∃ f ∈ cpp.functions, f.name = funcBase cfg C.toClassDecl ++ e.key) ∧
      (∀ f ∈ cpp.functions, f.name = funcBase cfg C.toClassDecl ++ e.key →
        f.body = writtenBody cfg C e.key) ∧
      (C.lastMember e.key).map BoundMember.args ≠ some none := by
  obtain ⟨f, hf, hgen⟩ := exists_of_forall₂ (functions_forall₂ hunit)
    (mem_foreignFuncsDec.mpr ⟨e, he, hpub, rfl⟩)
  obtain ⟨hname, -, hargs⟩ := genFunction_body he hgen
  refine ⟨⟨f, hf, hname⟩, fun g hg hgname => ?_, hargs⟩
  obtain ⟨e', -, -, hname', hbody, -⟩ := exists_entry_of_mem hunit hg
  rw [hname', List.append_right_inj] at hgname
  rw [hbody, hgname]

theorem exists_variableEntry {x : Ident} {k : Text}
    (hk : k ∈ BoundMember.keys ⟨x, .variable_⟩) :
    ∃ e ∈ variableEntries C.toClassDecl x.text, e.published = true ∧ e.key = k := by
  rcases List.mem_cons.mp hk with rfl | hk
  · exact ⟨_, List.mem_cons_self, rfl, rfl⟩
  · rw [List.mem_singleton] at hk
    subst hk
    exact ⟨_, List.mem_cons_of_mem _ List.mem_cons_self, rfl, rfl⟩

theorem exists_ownEntry {f : Field} {m : BoundMember} (hm : m ∈ f.members)
    {k : Text} (hk : k ∈ m.keys) :
    ∃ e ∈ ownEntries C.toClassDecl f, e.published = true ∧ e.key = k := by
  unfold Field.members at hm
  unfold ownEntries
  cases hkind : f.kind with
  | fProp =>
      rw [hkind] at hm
      cases hm
  | fVar =>
      rw [hkind] at hm
      simp only at hm ⊢
      split at hm
      · rename_i hexp
        rw [if_pos hexp]
        rw [List.mem_singleton] at hm
        subst hm
        exact exists_variableEntry hk
      · cases hm
  | fFun n =>
      rw [hkind] at hm
      simp only at hm ⊢
      split at hm
      · rename_i hinst
        rw [if_pos hinst]
        split at hm
        · cases hm
        · rename_i hnew
          rw [List.mem_singleton] at hm
          subst hm
          rw [List.mem_singleton.mp hk, if_neg hnew]
          exact ⟨_, List.mem_singleton_self _, rfl, rfl⟩
      · rename_i hinst
        rw [if_neg hinst]
        split at hm
        · rename_i hstatic
          rw [List.mem_singleton] at hm
          subst hm
          rw [List.mem_singleton.mp hk, if_pos hstatic]
          exact ⟨_, List.mem_singleton_self _, rfl, rfl⟩
        · cases hm

theorem exists_inheritedEntry {f : ClassField} {m : BoundMember} (hm : m ∈ f.members)
    {k : Text} (hk : k ∈ m.keys) :
    ∃ e ∈ inheritedEntries C.toClassDecl f, e.published = true ∧ e.key = k := by
  unfold ClassField.members at hm
  unfold inheritedEntries
  split at hm
  · rename_i hpublic
    rw [if_pos hpublic]
    cases hkind : f.kind with
    | fVar =>
        rw [hkind] at hm
        rw [List.mem_singleton] at hm
        subst hm
        exact exists_variableEntry hk
    | fMethod n =>
        rw [hkind] at hm
        rw [List.mem_singleton] at hm
        subst hm
        rw [List.mem_singleton.mp hk]
        exact ⟨_, List.mem_singleton_self _, rfl, rfl⟩
  · cases hm

/-- The functions of a member are declared. -/
theorem exists_entry {m : BoundMember} (hm : m ∈ C.members) {k : Text} (hk : k ∈ m.keys) :
    ∃ e ∈ C.entries, e.published = true ∧ e.key = k := by
  rcases List.mem_append.mp hm with hm | hm
  · obtain ⟨f, hf, hm⟩ := List.mem_flatMap.mp hm
    obtain ⟨e, he, hentry⟩ := exists_ownEntry hm hk
    exact ⟨e, List.mem_append_left _ (List.mem_flatMap.mpr ⟨f, hf, he⟩), hentry⟩
  · obtain ⟨f, hf, hm⟩ := List.mem_flatMap.mp hm
    obtain ⟨e, he, hentry⟩ := exists_inheritedEntry hm hk
    exact ⟨e, List.mem_append_right _ (List.mem_flatMap.mpr ⟨f, hf, he⟩), hentry⟩

end Written

/-! ### Which bodies are right -/

section Right

variable {cfg : Config} {C : LocalClass} {key : Text} {m : BoundMember} {n : Nat}

theorem callStmts_entry (cls : Text) (m : BoundMember) :
    callStmts cls (some (m.entry cfg C.toClassDecl)) =
      match m.reachedBy with
      | none => [.call (m.entry cfg C.toClassDecl)]
      | some r => [.instance_ cls, .call ("inst->" ++ r)] := by
  cases h : m.reachedBy with
  | none => simp only [callStmts, afterArrow_entry, h]
  | some r => simp only [callStmts, afterArrow_entry, h]

/-- A method, unless it is guessed to be an accessor, is called with its arguments. -/
theorem writtenBody_call (hm : C.lastMember key = some m) (hargs : m.args = some (params n))
    (hkey : n = 0 → lastPiece key ≠ "get" ∧ lastPiece key ≠ "set") :
    writtenBody cfg C key = readArguments n ++
      callStmts (cppClass C.toClassDecl) (some (m.entry cfg C.toClassDecl)) := by
  unfold writtenBody
  simp only [memberAt_key, hm, Option.map_some, hargs]
  cases n with
  | zero =>
      obtain ⟨hget, hset⟩ := hkey rfl
      rw [show params 0 = [] from rfl]
      simp only [if_neg hget, if_neg hset]
      rfl
  | succ n =>
      obtain ⟨p, ps, hparams⟩ : ∃ p ps, params (n + 1) = p :: ps :=
        List.exists_cons_of_ne_nil (by simp [params])
      rw [readArguments, hparams]

/-- A method guessed to be an accessor is not called. -/
theorem writtenBody_guessed (hm : C.lastMember key = some m) (hargs : m.args = some [])
    (hkey : lastPiece key = "get" ∨ lastPiece key = "set") (code : Text) :
    (writtenBody cfg C key).getLast? ≠ some (.call code) := by
  unfold writtenBody
  simp only [hm, Option.map_some, hargs]
  by_cases hget : lastPiece key = "get"
  · rw [if_pos hget, getterStmts, List.getLast?_append]
    simp
  · rw [if_neg hget, if_pos (hkey.resolve_left hget), setterStmts, List.getLast?_append]
    split <;> simp

/-- What a call of a member says of it. -/
theorem memberCall_inj {x y : Ident} {k : Nat} {a b : Text} (ha : '(' ∉ a) (hb : '(' ∉ b)
    (h : a ++ memberCall x.text k = b ++ memberCall y.text n) : a ++ x.text = b ++ y.text := by
  have hcall : ∀ (c : Text) (z : Ident) (i : Nat), c ++ memberCall z.text i
      = (c ++ z.text) ++ '(' :: (argLoop argName ", " i ++ ")") := fun c z i => by
    rw [memberCall]
    simp
  have hno : ∀ (c : Text) (z : Ident), '(' ∉ c → '(' ∉ c ++ z.text := fun c z hc => by
    rw [List.mem_append, not_or]
    exact ⟨hc, z.not_mem (by decide)⟩
  rw [hcall, hcall] at h
  exact (append_cons_inj (hno a x ha) (hno b y hb) h).1

theorem length_readArguments (n : Nat) : (readArguments n).length = n := by
  rw [readArguments, List.length_map, List.length_zipIdx, length_params]

/-- The class object is that of a path exactly when it is the path below the bindings. -/
theorem cObject_eq_iff (C : ClassDecl) {ps : List Text} (hne : ps ≠ [])
    (hps : ∀ p ∈ ps, ∀ c : Char, isIdentChar c = false → c ∉ p) :
    cObject cfg C = "::" ++ join ps "::" ++ "_obj::" ↔ bindPart cfg C = join ps "/" := by
  have hcolon : ∀ p ∈ split (bindPart cfg C) "/", ':' ∉ p := by
    intro p hp h
    rcases mem_bindPart cfg C ((mem_piece (x := '/') hp).2 ':' h) with hident | hslash
    · exact absurd hident (by decide)
    · exact absurd hslash (by decide)
  rw [cObject_eq]
  constructor
  · intro h
    have h := List.append_cancel_left (List.append_cancel_right h)
    have hsplit := congrArg (split · "::") h
    have hleft : split (join (split (bindPart cfg C) "/") "::") "::" = split (bindPart cfg C) "/" :=
      split_join_delimiter (split_ne_nil (by simp) _) hcolon [':']
    have hright : split (join ps "::") "::" = ps :=
      split_join_delimiter hne (fun p hp => hps p hp ':' (by decide)) [':']
    simp only [hleft, hright] at hsplit
    rw [← hsplit]
    exact (join_split (d := "/") (by simp) _).symm
  · intro h
    have hsplit : split (join ps "/") "/" = ps :=
      split_join hne fun p hp => hps p hp '/' (by decide)
    rw [h, hsplit]

/-- What the arguments say of the member. -/
theorem access_of_args (hargs : m.args ≠ none) :
    ∃ k, m.args = some (params k) ∧ (m.access = .instanceMethod k ∨ m.access = .staticMethod k) := by
  unfold BoundMember.args at hargs ⊢
  cases hm : m.access with
  | instanceMethod k => exact ⟨k, rfl, Or.inl rfl⟩
  | staticMethod k => exact ⟨k, rfl, Or.inr rfl⟩
  | variable_ =>
      rw [hm] at hargs
      exact absurd rfl hargs

theorem params_eq_nil {k : Nat} : params k = [] ↔ k = 0 := by
  rw [← List.length_eq_zero_iff, length_params]

/-- Whatever ends in a call was not guessed to be an accessor. -/
theorem not_guessed (hm : C.lastMember key = some m) (hargs : m.args = some (params n))
    {code : Text} (hcall : (writtenBody cfg C key).getLast? = some (.call code)) :
    n = 0 → lastPiece key ≠ "get" ∧ lastPiece key ≠ "set" := by
  rintro rfl
  constructor
  · intro hget
    exact writtenBody_guessed hm hargs (Or.inl hget) code hcall
  · intro hset
    exact writtenBody_guessed hm hargs (Or.inr hset) code hcall

/-- What an accessor's function is written as, where no member with arguments has its key. -/
theorem writtenBody_accessor (hargs : ∀ m', C.lastMember key = some m' → m'.args = some []) :
    writtenBody cfg C key =
      if lastPiece key = "get" then
        getterStmts (cppClass C.toClassDecl)
          ((memberAt cfg C.toClassDecl C.members
            (replace (funcBase cfg C.toClassDecl ++ key) "_get" [])).map
              (BoundMember.entry cfg C.toClassDecl))
      else if lastPiece key = "set" then
        setterStmts (cppClass C.toClassDecl)
          ((memberAt cfg C.toClassDecl C.members
            (replace (funcBase cfg C.toClassDecl ++ key) "_set" [])).map
              (BoundMember.entry cfg C.toClassDecl))
      else callStmts (cppClass C.toClassDecl)
        ((C.lastMember key).map (BoundMember.entry cfg C.toClassDecl)) := by
  unfold writtenBody
  cases hm : C.lastMember key with
  | none => simp only [Option.map_none, memberAt_key, hm]
  | some m => simp only [Option.map_some, hargs m hm, memberAt_key, hm]

/-- No argument is read in the body of a member without any. -/
theorem argument_not_mem (hargs : ∀ m', C.lastMember key = some m' → m'.args = some [])
    (name : Text) (slot : Nat) : Stmt.argument name slot ∉ writtenBody cfg C key := by
  rw [writtenBody_accessor hargs]
  unfold getterStmts setterStmts callStmts
  split
  · split <;> simp
  · split
    · split <;> simp
    · split
      · simp
      · split <;> simp

/-- A body that reads an argument and the receiver is that of a method. -/
theorem method_of_mem (hvar : (C.lastMember key).map BoundMember.args ≠ some none)
    {name cls : Text} {slot : Nat} (harg : Stmt.argument name slot ∈ writtenBody cfg C key)
    (hinst : Stmt.instance_ cls ∈ writtenBody cfg C key) :
    ∃ m ∈ C.members, ∃ n, m.access = .instanceMethod n ∧
      writtenBody cfg C key = methodBody C.toClassDecl m.name.text n := by
  by_cases hnil : ∀ m', C.lastMember key = some m' → m'.args = some []
  · exact absurd harg (argument_not_mem hnil name slot)
  · obtain ⟨m, hnil⟩ := not_forall.mp hnil
    obtain ⟨hm, hargs⟩ := Classical.not_imp.mp hnil
    rw [hm, Option.map_some, ne_eq, Option.some.injEq] at hvar
    obtain ⟨k, hk, haccess⟩ := access_of_args hvar
    have hk0 : k ≠ 0 := fun h => hargs (hk.trans (congrArg some (params_eq_nil.mpr h)))
    have hbody := @writtenBody_call cfg C _ m k hm hk fun h => absurd h hk0
    have hmem : m ∈ C.members := List.mem_reverse.mp (List.mem_of_find?_eq_some hm)
    rcases haccess with haccess | haccess
    · refine ⟨m, hmem, k, haccess, ?_⟩
      rw [hbody, callStmts_entry, BoundMember.reachedBy, haccess]
      rfl
    · rw [hbody, callStmts_entry, BoundMember.reachedBy, haccess] at hinst
      simp [readArguments] at hinst

variable {x : Ident}

/-- The body of an instance method is right exactly where it is found under its key, and the class
is named so. -/
theorem writtenBody_method_iff {cls : Text} (hm : C.lastMember key = some m) (hargs : m.args ≠ none) :
    writtenBody cfg C key = callBody cls x.text n ↔
      cls = cppClass C.toClassDecl ∧ m = ⟨x, .instanceMethod n⟩ ∧
        (n = 0 → lastPiece key ≠ "get" ∧ lastPiece key ≠ "set") := by
  obtain ⟨k, hk, haccess⟩ := access_of_args hargs
  constructor
  · intro h
    have hlast : (writtenBody cfg C key).getLast?
        = some (.call ("inst->" ++ memberCall x.text n)) := by
      rw [h, callBody, List.getLast?_append]
      rfl
    have hkey := not_guessed hm hk hlast
    rw [writtenBody_call hm hk hkey, callStmts_entry, BoundMember.reachedBy] at h
    rcases haccess with haccess | haccess
    · rw [haccess, callBody] at h
      have hlength := congrArg List.length h
      simp only [List.length_append, length_readArguments, List.length_cons] at hlength
      obtain rfl : k = n := by omega
      have hstmts := List.append_cancel_left h
      rw [List.cons.injEq, List.cons.injEq, Stmt.instance_.injEq, Stmt.call.injEq] at hstmts
      have hname := memberCall_inj (by decide) (by decide) hstmts.2.1
      refine ⟨hstmts.1.symm, ?_, hkey⟩
      obtain ⟨⟨name, wf⟩, access⟩ := m
      obtain ⟨x, wfx⟩ := x
      obtain rfl : name = x := List.append_cancel_left hname
      rw [← haccess]
    · rw [haccess] at h
      have hlast' := congrArg List.getLast? h
      rw [callBody, List.getLast?_append, List.getLast?_append, BoundMember.entry, haccess]
        at hlast'
      simp only [List.getLast?_singleton, List.getLast?_cons_cons, Option.some_or,
        Option.some.injEq, Stmt.call.injEq] at hlast'
      rw [cCall_eq, cObject_eq, List.append_assoc, List.append_assoc] at hlast'
      exact absurd (List.cons.inj hlast').1 (by decide)
  · rintro ⟨rfl, rfl, hkey⟩
    have hkn : k = n := by
      rcases haccess with h | h
      · exact (BoundAccess.instanceMethod.inj h).symm
      · cases h
    subst hkn
    rw [writtenBody_call hm hk hkey, callStmts_entry]
    rfl

/-- The body of a static method is, moreover, only where the class object is that of the class. -/
theorem writtenBody_static_iff {cls : Text} (hcls : '(' ∉ cls) (hm : C.lastMember key = some m)
    (hargs : m.args ≠ none) :
    writtenBody cfg C key = staticCallBody cls x.text n ↔
      m = ⟨x, .staticMethod n⟩ ∧ (n = 0 → lastPiece key ≠ "get" ∧ lastPiece key ≠ "set") ∧
        cObject cfg C.toClassDecl = "::" ++ cls ++ "_obj::" := by
  obtain ⟨k, hk, haccess⟩ := access_of_args hargs
  constructor
  · intro h
    have hlast : (writtenBody cfg C key).getLast? = some (.call
        ("::" ++ cls ++ "_obj::" ++ memberCall x.text n)) := by
      rw [h, staticCallBody, List.getLast?_append]
      rfl
    have hkey := not_guessed hm hk hlast
    rw [writtenBody_call hm hk hkey, callStmts_entry, BoundMember.reachedBy] at h
    rcases haccess with haccess | haccess
    · rw [haccess] at h
      have hlast' := congrArg List.getLast? h
      rw [staticCallBody, List.getLast?_append, List.getLast?_append] at hlast'
      simp only [List.getLast?_singleton, List.getLast?_cons_cons, Option.some_or,
        Option.some.injEq, Stmt.call.injEq] at hlast'
      rw [List.append_assoc, List.append_assoc] at hlast'
      exact absurd (List.cons.inj hlast').1 (by decide)
    · rw [haccess, staticCallBody] at h
      have hlength := congrArg List.length h
      simp only [List.length_append, length_readArguments, List.length_cons] at hlength
      obtain rfl : k = n := by omega
      have hstmts := List.append_cancel_left h
      rw [List.cons.injEq, Stmt.call.injEq, BoundMember.entry, haccess] at hstmts
      obtain ⟨hcall, -⟩ := hstmts
      simp only [cCall_eq, List.nil_append] at hcall
      have hparen : '(' ∉ ("::" : Text) ++ cls ++ "_obj::" := by
        rw [List.mem_append, List.mem_append, not_or, not_or]
        exact ⟨⟨by decide, hcls⟩, by decide⟩
      have hnames := memberCall_inj (not_mem_cObject cfg C.toClassDecl (by decide) (by decide))
        hparen hcall
      -- the last colon is the one in front of the name
      have hfront : ∀ (a : Text) (y : Ident), a ++ "_obj::" ++ y.text
          = (a ++ "_obj:") ++ ':' :: y.text := fun a y => by
        rw [List.append_assoc, List.append_assoc]
        rfl
      rw [cObject_eq, hfront, hfront] at hnames
      obtain ⟨hclass, hname⟩ := append_cons_inj_last (m.name.not_mem (by decide))
        (x.not_mem (by decide)) hnames
      have hclass := List.append_cancel_right hclass
      refine ⟨?_, hkey, ?_⟩
      · obtain ⟨⟨name, wf⟩, access⟩ := m
        obtain ⟨x, wfx⟩ := x
        obtain rfl : name = x := hname
        rw [← haccess]
      · rw [cObject_eq, hclass]
  · rintro ⟨rfl, hkey, hpath⟩
    have hkn : k = n := by
      rcases haccess with h | h
      · cases h
      · exact (BoundAccess.staticMethod.inj h).symm
    subst hkn
    rw [writtenBody_call hm hk hkey, callStmts_entry, staticCallBody, ← hpath]
    simp only [BoundMember.reachedBy, BoundMember.entry, cCall_eq, List.nil_append]

/-- The entry an accessor finds is its variable's exactly when nothing was taken out of the
name before it and the variable is found there. -/
theorem accessor_entry_iff {accessor : Text} (hne : accessor ≠ []) :
    ((memberAt cfg C.toClassDecl C.members
        (replace (funcBase cfg C.toClassDecl ++ toLower x.text) accessor [])).map
          (BoundMember.entry cfg C.toClassDecl)).bind afterArrow = some x.text ↔
      C.lastMember (toLower x.text) = some ⟨x, .variable_⟩ ∧ x.text ≠ "new" ∧
        ¬ accessor <:+: funcBase cfg C.toClassDecl ++ toLower x.text := by
  constructor
  · intro h
    obtain ⟨code, hcode, harrow⟩ := Option.bind_eq_some_iff.mp h
    obtain ⟨m', hm', rfl⟩ := Option.map_eq_some_iff.mp hcode
    rw [afterArrow_entry] at harrow
    obtain ⟨rfl, hnew⟩ := reachedBy_eq_name harrow
    have hkey := (memberAt_some hm').2
    rw [funcName_eq] at hkey
    rw [← hkey, memberAt_key] at hm'
    exact ⟨hm', hnew, (replace_eq_self_iff hne _).mp hkey.symm⟩
  · rintro ⟨hlast, hnew, hfree⟩
    rw [(replace_eq_self_iff hne _).mpr hfree, memberAt_key, hlast, Option.map_some,
      Option.bind_some, afterArrow_entry, BoundMember.reachedBy, if_neg hnew]

/-- What an accessor finds has a name that is no longer. -/
theorem length_le_of_accessor_entry {accessor : Text} (hne : accessor ≠ []) {y : Ident}
    (h : ((memberAt cfg C.toClassDecl C.members
        (replace (funcBase cfg C.toClassDecl ++ toLower x.text) accessor [])).map
          (BoundMember.entry cfg C.toClassDecl)).bind afterArrow = some y.text) :
    y.text.length ≤ x.text.length := by
  obtain ⟨code, hcode, harrow⟩ := Option.bind_eq_some_iff.mp h
  obtain ⟨m', hm', rfl⟩ := Option.map_eq_some_iff.mp hcode
  rw [afterArrow_entry] at harrow
  obtain ⟨rfl, -⟩ := reachedBy_eq_name harrow
  have hkey := (memberAt_some hm').2
  have hlength := length_replace_le hne (funcBase cfg C.toClassDecl ++ toLower x.text)
  rw [← hkey, funcName_eq, List.length_append, List.length_append] at hlength
  simp only [toLower, List.length_map] at hlength
  omega

/-- So it is found under its name in C++ only if that is its name. -/
theorem accessor_entry_cppName_iff {accessor : Text} (hne : accessor ≠ [])
    (reserved : ReservedWords) :
    ((memberAt cfg C.toClassDecl C.members
        (replace (funcBase cfg C.toClassDecl ++ toLower x.text) accessor [])).map
          (BoundMember.entry cfg C.toClassDecl)).bind afterArrow
            = some (cppName reserved .member x).text ↔
      reserved .member x.text = false ∧
        C.lastMember (toLower x.text) = some ⟨x, .variable_⟩ ∧ x.text ≠ "new" ∧
        ¬ accessor <:+: funcBase cfg C.toClassDecl ++ toLower x.text := by
  cases hreserved : reserved .member x.text with
  | false =>
      rw [cppName_of_not_reserved hreserved, accessor_entry_iff hne]
      exact (and_iff_right rfl).symm
  | true =>
      refine ⟨fun h => ?_, fun h => Bool.noConfusion h.1⟩
      have hlength := length_le_of_accessor_entry hne h
      rw [cppName, if_pos hreserved] at hlength
      have hmark : (("_hx_" : Text) ++ x.text).length = 4 + x.text.length := List.length_append
      exact absurd hlength (by show ¬ (("_hx_" : Text) ++ x.text).length ≤ _; omega)

/-- The last piece of an accessor's key is the accessor. -/
theorem lastPiece_append {s t : Text} (ht : '_' ∉ t) : lastPiece (s ++ '_' :: t) = t := by
  have hsplit : split (s ++ '_' :: t) "_" = split s "_" ++ split t "_" := split_append_delim s '_' t
  have hlast : split t "_" = [t] := split_of_not_mem ht
  rw [lastPiece, hsplit, hlast, List.getLastD_concat]

/-- A function with arguments reads the first one first. -/
theorem head_writtenBody (hm : C.lastMember key = some m) (hargs : m.args = some (params (n + 1))) :
    (writtenBody cfg C key).head? = some (.argument (argName 0) 1) := by
  rw [writtenBody_call hm hargs fun h => absurd h (Nat.succ_ne_zero n), readArguments, params_cons,
    List.zipIdx_cons]
  rfl

/-- A body that does not begin with an argument belongs to a function without any. -/
theorem args_eq_nil (hvar : (C.lastMember key).map BoundMember.args ≠ some none)
    (hhead : ∀ name slot, (writtenBody cfg C key).head? ≠ some (.argument name slot)) :
    ∀ m', C.lastMember key = some m' → m'.args = some [] := by
  intro m' hm'
  rw [hm', Option.map_some, ne_eq, Option.some.injEq] at hvar
  obtain ⟨k, hk, -⟩ := access_of_args hvar
  cases k with
  | zero => exact hk
  | succ k => exact absurd (head_writtenBody hm' hk) (hhead _ _)

/-- A body that reads no argument is written only where there is none, and then it is what is
written for an accessor. -/
theorem writtenBody_eq_iff {body accessor : List Stmt}
    (hvar : (C.lastMember key).map BoundMember.args ≠ some none)
    (hwritten : (∀ m', C.lastMember key = some m' → m'.args = some []) →
      writtenBody cfg C key = accessor)
    (hhead : ∀ name slot, body.head? ≠ some (.argument name slot)) :
    writtenBody cfg C key = body ↔
      (∀ m', C.lastMember key = some m' → m'.args = some []) ∧ accessor = body := by
  constructor
  · intro h
    have hargs := args_eq_nil hvar fun name slot => by
      rw [h]
      exact hhead name slot
    exact ⟨hargs, (hwritten hargs).symm.trans h⟩
  · rintro ⟨hargs, h⟩
    exact (hwritten hargs).trans h

theorem setterStmts_iff {entry : Option Text} {own cls name : Text} :
    setterStmts own entry = assignBody cls name ↔
      cls = own ∧ entry.bind afterArrow = some name := by
  unfold setterStmts assignBody
  cases entry.bind afterArrow with
  | none => simp
  | some r =>
      simp only [List.cons_append, List.nil_append, List.cons.injEq, true_and,
        Stmt.instance_.injEq, Stmt.assignValue.injEq, and_true, Option.some.injEq]
      exact and_congr eq_comm (List.append_right_inj _)

theorem getterStmts_iff {entry : Option Text} {own cls name : Text} :
    getterStmts own entry = readBody cls name ↔
      cls = own ∧ entry.bind afterArrow = some name := by
  unfold getterStmts readBody
  cases entry.bind afterArrow with
  | none => simp
  | some r => simp [eq_comm]

/-- What the setter of a variable is written as, where no member with arguments has its key. -/
theorem writtenBody_set
    (hargs : ∀ m', C.lastMember (toLower x.text ++ "_set") = some m' → m'.args = some []) :
    writtenBody cfg C (toLower x.text ++ "_set") = setterStmts (cppClass C.toClassDecl)
      ((memberAt cfg C.toClassDecl C.members
        (replace (funcBase cfg C.toClassDecl ++ toLower x.text) "_set" [])).map
          (BoundMember.entry cfg C.toClassDecl)) := by
  have hkey : lastPiece (toLower x.text ++ "_set") = "set" :=
    lastPiece_append (t := "set") (by decide)
  have hreplace : replace (funcBase cfg C.toClassDecl ++ (toLower x.text ++ "_set")) "_set" []
      = replace (funcBase cfg C.toClassDecl ++ toLower x.text) "_set" [] := by
    rw [← List.append_assoc]
    exact (replace_append_end (t := "set") (by decide) _ []).trans (List.append_nil _)
  rw [writtenBody_accessor hargs, hkey, if_neg (by decide), if_pos rfl, hreplace]

/-- The setter of a variable. -/
theorem writtenBody_assign_iff {cls name : Text}
    (hvar : (C.lastMember (toLower x.text ++ "_set")).map BoundMember.args ≠ some none) :
    writtenBody cfg C (toLower x.text ++ "_set") = assignBody cls name ↔
      (∀ m', C.lastMember (toLower x.text ++ "_set") = some m' → m'.args = some []) ∧
      cls = cppClass C.toClassDecl ∧
      ((memberAt cfg C.toClassDecl C.members
        (replace (funcBase cfg C.toClassDecl ++ toLower x.text) "_set" [])).map
          (BoundMember.entry cfg C.toClassDecl)).bind afterArrow = some name := by
  rw [← setterStmts_iff]
  exact writtenBody_eq_iff hvar writtenBody_set (by intro name slot h; cases h)

theorem writtenBody_setter_iff
    (hvar : (C.lastMember (toLower x.text ++ "_set")).map BoundMember.args ≠ some none) :
    writtenBody cfg C (toLower x.text ++ "_set") = setterBody C.toClassDecl x.text ↔
      (∀ m', C.lastMember (toLower x.text ++ "_set") = some m' → m'.args = some []) ∧
      C.lastMember (toLower x.text) = some ⟨x, .variable_⟩ ∧ x.text ≠ "new" ∧
        ¬ ("_set" : Text) <:+: funcBase cfg C.toClassDecl ++ toLower x.text := by
  rw [← accessor_entry_iff (by simp), setterBody, writtenBody_assign_iff hvar, and_iff_right rfl]

/-- The getter of a variable. -/
theorem writtenBody_read_iff {cls name : Text}
    (hvar : (C.lastMember (toLower x.text ++ "_get")).map BoundMember.args ≠ some none) :
    writtenBody cfg C (toLower x.text ++ "_get") = readBody cls name ↔
      (∀ m', C.lastMember (toLower x.text ++ "_get") = some m' → m'.args = some []) ∧
      cls = cppClass C.toClassDecl ∧
      ((memberAt cfg C.toClassDecl C.members
        (replace (funcBase cfg C.toClassDecl ++ toLower x.text) "_get" [])).map
          (BoundMember.entry cfg C.toClassDecl)).bind afterArrow = some name := by
  have hkey : lastPiece (toLower x.text ++ "_get") = "get" :=
    lastPiece_append (t := "get") (by decide)
  have hreplace : replace (funcBase cfg C.toClassDecl ++ (toLower x.text ++ "_get")) "_get" []
      = replace (funcBase cfg C.toClassDecl ++ toLower x.text) "_get" [] := by
    rw [← List.append_assoc]
    exact (replace_append_end (t := "get") (by decide) _ []).trans (List.append_nil _)
  have hwritten : (∀ m', C.lastMember (toLower x.text ++ "_get") = some m' → m'.args = some []) →
      writtenBody cfg C (toLower x.text ++ "_get") = getterStmts (cppClass C.toClassDecl)
        ((memberAt cfg C.toClassDecl C.members
          (replace (funcBase cfg C.toClassDecl ++ toLower x.text) "_get" [])).map
            (BoundMember.entry cfg C.toClassDecl)) := by
    intro hargs
    rw [writtenBody_accessor hargs, hkey, if_pos rfl, hreplace]
  rw [← getterStmts_iff]
  exact writtenBody_eq_iff hvar hwritten (by intro name slot h; cases h)

end Right

/-! ### Every member -/

theorem mem_keys_of_mem_bodies {reserved : ReservedWords} {C : ClassDecl} {m : BoundMember}
    {b : Text × List Stmt} (hb : b ∈ m.bodies reserved C) : b.1 ∈ m.keys := by
  unfold BoundMember.bodies at hb
  unfold BoundMember.keys
  cases hm : m.access with
  | instanceMethod n =>
      rw [hm] at hb
      rw [List.mem_singleton.mp hb]
      exact List.mem_singleton_self _
  | staticMethod n =>
      rw [hm] at hb
      rw [List.mem_singleton.mp hb]
      exact List.mem_singleton_self _
  | variable_ =>
      rw [hm] at hb
      rcases List.mem_cons.mp hb with rfl | hb
      · exact List.mem_cons_self
      · rw [List.mem_singleton.mp hb]
        exact List.mem_cons_of_mem _ (List.mem_singleton_self _)

theorem not_mem_join_cppPath (reserved : ReservedWords) (C : ClassDecl) :
    '(' ∉ join (cppPath reserved C) "::" := by
  intro h
  rcases mem_join h with h | ⟨p, hp, h⟩
  · revert h; decide
  · exact not_mem_of_mem_cppPath reserved C hp (by decide) h

theorem wellScoped_bodies (reserved : ReservedWords) (C : ClassDecl) (m : BoundMember) :
    ∀ b ∈ m.bodies reserved C, WellScoped [] b.2 := by
  intro b hb
  unfold BoundMember.bodies at hb
  cases hm : m.access with
  | instanceMethod n =>
      rw [hm] at hb
      rw [List.mem_singleton.mp hb]
      exact wellScoped_callBody _ _ n
  | staticMethod n =>
      rw [hm] at hb
      rw [List.mem_singleton.mp hb]
      exact wellScoped_staticCallBody (not_mem_join_cppPath reserved C) _ n
  | variable_ =>
      rw [hm] at hb
      rcases List.mem_cons.mp hb with rfl | hb
      · exact wellScoped_assignBody _ _
      · rw [List.mem_singleton.mp hb]
        exact wellScoped_readBody _ _

section Members

variable {reserved : ReservedWords} {cfg : Config} {C : LocalClass} {cpp : CppUnit}
  {header : CppHeader} {n : Nat} {m : BoundMember}

/-- A member's functions perform its access exactly when they are written as asked for. -/
theorem performs_iff_written
    (hunit : genUnit cfg.order C.moduleName C.name.text (registration cfg C Tables.empty)
      = .ok (cpp, header, n)) (hm : m ∈ C.members) :
    Performs reserved cfg C.toClassDecl cpp m ↔
      ∀ b ∈ m.bodies reserved C.toClassDecl, writtenBody cfg C b.1 = b.2 := by
  constructor
  · intro h b hb
    obtain ⟨e, he, hpub, hkey⟩ := exists_entry hm (mem_keys_of_mem_bodies hb)
    obtain ⟨⟨f, hf, hname⟩, hbody, -⟩ := mem_functions hunit he hpub
    rw [hkey] at hname hbody
    rw [← hbody f hf hname]
    exact ((h b hb).2 f hf hname).2
  · intro h b hb
    obtain ⟨e, he, hpub, hkey⟩ := exists_entry hm (mem_keys_of_mem_bodies hb)
    obtain ⟨hexists, hbody, -⟩ := mem_functions hunit he hpub
    rw [hkey] at hexists hbody
    refine ⟨hexists, fun f hf hname => ?_⟩
    have hright : f.body = b.2 := (hbody f hf hname).trans (h b hb)
    refine ⟨?_, hright⟩
    rw [hright]
    exact wellScoped_bodies reserved C.toClassDecl m b hb

/-- The member that has the name of another in C++, and its key, is that one. -/
theorem cppName_eq_iff {x : Ident} {access : BoundAccess} {m' : BoundMember}
    (hm' : C.lastMember (toLower x.text) = some m') :
    m' = ⟨cppName reserved .member x, access⟩ ↔
      C.lastMember (toLower x.text) = some ⟨x, access⟩ ∧ reserved .member x.text = false := by
  constructor
  · rintro rfl
    have hkey : toLower (cppName reserved .member x).text = toLower x.text := by
      rw [LocalClass.lastMember] at hm'
      simpa using List.find?_some hm'
    have hreserved := reserved_of_toLower hkey
    rw [cppName_of_not_reserved hreserved] at hm'
    exact ⟨hm', hreserved⟩
  · rintro ⟨hlast, hreserved⟩
    rw [cppName_of_not_reserved hreserved]
    exact Option.some.inj (hm'.symm.trans hlast)

end Members

namespace Sample

/-- Some of the reserved words of C++; types begin with a capital letter and have none. -/
def cppKeywords : ReservedWords := fun kind name =>
  kind ≠ .type && name ∈ (["delete", "template", "typeof", "virtual"] : List Text)

/-- `myclass.Holder`, with a method called `get`. -/
def holder : LocalClass :=
  topClass [myclass] (typeName "Holder") [newMethod, method (ident "get") 0]

end Sample

end Wrenegade
