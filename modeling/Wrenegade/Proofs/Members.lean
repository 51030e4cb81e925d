/-
How the members of a class are reached from C++.

Two tables hold what the bodies are made from: the arguments of a member, with
`null` for a variable, and the C++ name it is called by.  Both are keyed by the
C function, so of several members with one key the last one registered is found
there.  `Accesses` says exactly this, for every key whatever it looks like, since
the generator does not only look up keys it has entered.
-/
import Wrenegade.Proofs.Exports

namespace Wrenegade

open Text Registry

/-! ### Members -/

/-- How a member is reached: through the receiver, through the class, or as a variable of
the receiver. -/
inductive BoundAccess
  | instanceMethod (args : Nat)
  | staticMethod (args : Nat)
  | variable_
deriving DecidableEq

structure BoundMember where
  name : Ident
  access : BoundAccess
deriving DecidableEq

/-- The member an own field is bound as, if it is. -/
def Field.members (f : Field) : List BoundMember :=
  match f.kind with
  | .fFun n =>
      if isInstanceAccess f.access then
        if isNew f.name.text then [] else [⟨f.name, .instanceMethod n⟩]
      else if isExportedStatic f.access f.name.text then [⟨f.name, .staticMethod n⟩]
      else []
  | .fVar =>
      if f.name.text ≠ ("instance" : Text) ∧ f.access = [.aPublic] then [⟨f.name, .variable_⟩]
      else []
  | .fProp => []

/-- The member an inherited field is bound as. -/
def ClassField.members (f : ClassField) : List BoundMember :=
  if f.isPublic then
    match f.kind with
    | .fMethod n => [⟨f.name, .instanceMethod n⟩]
    | .fVar => [⟨f.name, .variable_⟩]
  else []

/-- All members of a class, in the order of registration. -/
def LocalClass.members (C : LocalClass) : List BoundMember :=
  C.fields.flatMap Field.members ++ C.inheritedFields.flatMap ClassField.members

/-- The arguments entered for a member. -/
def BoundMember.args (m : BoundMember) : Option (List Text) :=
  match m.access with
  | .instanceMethod n => some (params n)
  | .staticMethod n => some (params n)
  | .variable_ => none

/-- The C++ name entered for a member. -/
def BoundMember.entry (cfg : Config) (C : ClassDecl) (m : BoundMember) : Text :=
  match m.access with
  | .instanceMethod n => cCall cfg C "getInstance()->" m.name.text n
  | .staticMethod n => cCall cfg C [] m.name.text n
  | .variable_ =>
      cObject cfg C ++ (if isNew m.name.text then [] else "getInstance()->") ++ m.name.text

/-- The member found under a key: the last one registered there. -/
def memberAt (cfg : Config) (C : ClassDecl) (ms : List BoundMember) (key : Text) :
    Option BoundMember :=
  ms.reverse.find? fun m => funcName cfg C m.name.text = key

section MemberAt

variable {cfg : Config} {C : ClassDecl} {ms : List BoundMember}

theorem memberAt_concat (m : BoundMember) (key : Text) :
    memberAt cfg C (ms ++ [m]) key =
      if key = funcName cfg C m.name.text then some m else memberAt cfg C ms key := by
  unfold memberAt
  rw [List.reverse_append, List.reverse_singleton, List.singleton_append, List.find?_cons]
  by_cases hkey : key = funcName cfg C m.name.text
  · simp [hkey]
  · have hkey' : funcName cfg C m.name.text ≠ key := fun h => hkey h.symm
    simp [hkey, hkey']

/-- What is found is a member with that key. -/
theorem memberAt_some {key : Text} {m : BoundMember} (h : memberAt cfg C ms key = some m) :
    m ∈ ms ∧ funcName cfg C m.name.text = key := by
  unfold memberAt at h
  refine ⟨?_, by simpa using List.find?_some h⟩
  simpa using List.mem_of_find?_eq_some h

theorem memberAt_eq_none {key : Text} :
    memberAt cfg C ms key = none ↔ ∀ m ∈ ms, funcName cfg C m.name.text ≠ key := by
  unfold memberAt
  rw [List.find?_eq_none]
  simp

/-- Every member leaves something under its key. -/
theorem exists_memberAt {m : BoundMember} (hm : m ∈ ms) :
    ∃ m', memberAt cfg C ms (funcName cfg C m.name.text) = some m' := by
  cases h : memberAt cfg C ms (funcName cfg C m.name.text) with
  | some m' => exact ⟨m', rfl⟩
  | none => exact absurd rfl (memberAt_eq_none.mp h m hm)

end MemberAt

/-- The member whose key a lower-cased name is. -/
def LocalClass.lastMember (C : LocalClass) (key : Text) : Option BoundMember :=
  C.members.reverse.find? fun m => toLower m.name.text = key

/-- Behind the common beginning of the C names only the lower-cased names count. -/
theorem memberAt_key (cfg : Config) (C : LocalClass) (key : Text) :
    memberAt cfg C.toClassDecl C.members (funcBase cfg C.toClassDecl ++ key)
      = C.lastMember key := by
  unfold memberAt LocalClass.lastMember
  congr 1
  funext m
  rw [funcName_eq]
  exact decide_eq_decide.mpr (List.append_right_inj _)

/-! ### The two tables -/

/-- The tables say of every key what the members say. -/
structure Accesses (cfg : Config) (C : ClassDecl) (t : Tables) (ms : List BoundMember) :
    Prop where
  args : ∀ key, t.bindMethodMap.lookup key = (memberAt cfg C ms key).map BoundMember.args
  entries : ∀ key, t.bindCMethodMap.lookup key
    = (memberAt cfg C ms key).map (BoundMember.entry cfg C)

theorem lookup_insert_eq {β : Type} (m : TextMap β) (k : Text) (v : β) (key : Text) :
    (m.insert k v).lookup key = if key = k then some v else m.lookup key := by
  by_cases h : key = k
  · rw [if_pos h, h, AList.lookup_insert]
  · rw [if_neg h, AList.lookup_insert_ne h]

@[simp] theorem bindMethodMap_pushNewFunc (t : Tables) (C : ClassDecl) (func : Text) :
    (t.pushNewFunc C func).bindMethodMap = t.bindMethodMap := by
  rw [Tables.pushNewFunc]
  split <;> rfl

@[simp] theorem bindCMethodMap_pushNewFunc (t : Tables) (C : ClassDecl) (func : Text) :
    (t.pushNewFunc C func).bindCMethodMap = t.bindCMethodMap := by
  rw [Tables.pushNewFunc]
  split <;> rfl

section Step

variable {cfg : Config} {C : ClassDecl} {t t' : Tables} {ms : List BoundMember}

/-- One more member entered in both tables. -/
theorem Accesses.add (h : Accesses cfg C t ms) (m : BoundMember)
    (hargs : t'.bindMethodMap = t.bindMethodMap.insert (funcName cfg C m.name.text) m.args)
    (hentries : t'.bindCMethodMap
      = t.bindCMethodMap.insert (funcName cfg C m.name.text) (m.entry cfg C)) :
    Accesses cfg C t' (ms ++ [m]) := by
  refine ⟨fun key => ?_, fun key => ?_⟩
  · rw [hargs, lookup_insert_eq, memberAt_concat, h.args]
    split <;> rfl
  · rw [hentries, lookup_insert_eq, memberAt_concat, h.entries]
    split <;> rfl

/-- Nothing entered in either. -/
theorem Accesses.keep (h : Accesses cfg C t ms) (hargs : t'.bindMethodMap = t.bindMethodMap)
    (hentries : t'.bindCMethodMap = t.bindCMethodMap) : Accesses cfg C t' (ms ++ []) := by
  rw [List.append_nil]
  exact ⟨hargs ▸ h.args, hentries ▸ h.entries⟩

theorem Accesses.registerField (h : Accesses cfg C t ms) (f : Field) :
    Accesses cfg C (registerField cfg C t f) (ms ++ f.members) := by
  rw [Wrenegade.registerField, Field.members]
  cases f.kind with
  | fProp => exact h.keep rfl rfl
  | fVar =>
      simp only [registerVar]
      by_cases hinst : f.name.text = ("instance" : Text)
      · rw [if_pos hinst, if_neg (fun hc => hc.1 hinst)]
        exact h.keep rfl rfl
      · rw [if_neg hinst]
        by_cases hpub : f.access = [.aPublic]
        · have hexp : f.name.text ≠ ("instance" : Text) ∧ f.access = [.aPublic] := ⟨hinst, hpub⟩
          rw [if_pos hpub, if_pos hexp]
          exact h.add ⟨f.name, .variable_⟩ rfl rfl
        · rw [if_neg hpub, if_neg (fun hc => hpub hc.2)]
          exact h.keep rfl rfl
  | fFun n =>
      simp only
      cases hi : isInstanceAccess f.access with
      | true =>
          cases hn : isNew f.name.text with
          | true =>
              rw [registerFun_new cfg C n t hi hn]
              refine h.keep ?_ ?_
              · simp only [Tables.setConstructor]
                split <;> rfl
              · simp only [Tables.setConstructor]
                split <;> rfl
          | false =>
              rw [registerFun_instance cfg C n t hi hn]
              exact h.add ⟨f.name, .instanceMethod n⟩ (by simp [Tables.setMethod, BoundMember.args])
                (by simp [Tables.setMethod, BoundMember.entry])
      | false =>
          cases hs : isExportedStatic f.access f.name.text with
          | true =>
              rw [registerFun_static cfg C n t hi hs]
              exact h.add ⟨f.name, .staticMethod n⟩ (by simp [Tables.setMethod, BoundMember.args])
                (by simp [Tables.setMethod, BoundMember.entry])
          | false =>
              rw [registerFun_other cfg C n t hi hs]
              split
              · exact h.keep rfl rfl
              · exact h.keep rfl rfl

theorem Accesses.registerInheritedField {r : Inherited} (h : Accesses cfg C r.tables ms)
    (superClassName : Text) (f : ClassField) (hnew : f.name.text ≠ "new") :
    Accesses cfg C (registerInheritedField cfg C superClassName r f).tables
      (ms ++ f.members) := by
  rw [Wrenegade.registerInheritedField, ClassField.members]
  have hn : ¬ isNew f.name.text = true := fun h => hnew ((isNew_iff _).mp h)
  split
  · cases f.kind with
    | fMethod n => exact h.add ⟨f.name, .instanceMethod n⟩ rfl rfl
    | fVar =>
        refine h.add ⟨f.name, .variable_⟩ rfl ?_
        rw [BoundMember.entry, if_neg hn]
        rfl
  · exact h.keep rfl rfl

end Step

/-- **The tables of a class say of every key what its members say.** -/
theorem registration_accesses (cfg : Config) (C : LocalClass) :
    Accesses cfg C.toClassDecl (registration cfg C Tables.empty) C.members := by
  refine registration_induction (P := fun ms t => Accesses cfg C.toClassDecl t ms) ?_ ?_ ?_
  · intro ms t f _ h
    exact h.registerField f
  · intro ms name s f hf h
    exact h.registerInheritedField name f ((inheritedFields_names C).2 f hf)
  · exact ⟨fun key => by simp [Tables.empty, memberAt], fun key => by simp [Tables.empty, memberAt]⟩

end Wrenegade
