/-
From a signature to a declaration and back.

The generator prints a signature as a Wren declaration by numbering its
underscores; Wren reads the declaration and makes a signature again; the VM puts
class name and static mark back in front and looks the result up.  An underscore of
the name is numbered along with the arguments, so no name with one comes back.  Every
other member does, as long as Wren takes class, name and arguments at all: there are
limits to their lengths and number, a name with an underscore in front is a field,
`is` is an operator, and the classes of the core module are in every module.
-/
import Wrenegade.Model.WrenModule
import Wrenegade.Proofs.Exports

namespace Wrenegade

open Text

/-! ### The arguments of a signature -/

/-- The underscores after the first, each behind a comma. -/
def moreArgs : Nat → Text
  | 0 => []
  | n + 1 => ',' :: '_' :: moreArgs n

theorem argLoop_underscores (n : Nat) :
    argLoop (fun _ => "_") "," (n + 1) = '_' :: moreArgs n := by
  have key : ∀ n : Nat, ((List.range n).flatMap fun _ => ("_" : Text) ++ ("," : Text)) ++ ['_']
      = '_' :: moreArgs n := by
    intro n
    induction n with
    | zero => rfl
    | succ n ih =>
        rw [List.range_succ_eq_map, List.flatMap_cons, List.flatMap_map, List.append_assoc, ih]
        rfl
  rw [argLoop_succ]
  exact key n

/-! ### Numbering -/

/-- Up to the first underscore nothing is numbered. -/
theorem numberArgs_append {a : Text} (hu : '_' ∉ a) (hc : ',' ∉ a) (k : Nat) (b : Text) :
    numberArgs k (a ++ b) = a ++ numberArgs k b := by
  induction a with
  | nil => rfl
  | cons c cs ih =>
      have hcu : c ≠ '_' := fun h => hu (by simp [h])
      have hcc : c ≠ ',' := fun h => hc (by simp [h])
      have hrest := ih (fun h => hu (by simp [h])) (fun h => hc (by simp [h]))
      rw [List.cons_append, numberArgs, hrest]
      · rfl
      · exact hcu
      · intro s h _
        exact hcc h

theorem numberArgs_moreArgs (n k : Nat) (b : Text) :
    numberArgs k (moreArgs n ++ b) = numberArgs k (moreArgs n) ++ numberArgs (k + n) b := by
  induction n generalizing k with
  | zero => rfl
  | succ n ih =>
      simp only [moreArgs, List.cons_append, numberArgs]
      rw [ih, show k + 1 + n = k + (n + 1) by omega]
      simp only [List.append_assoc]

/-- No underscore is left. -/
theorem underscore_not_mem_numberArgs (k : Nat) (s : Text) : '_' ∉ numberArgs k s := by
  have harg : ∀ k : Nat, '_' ∉ ofNat k := fun k => Nat.underscore_not_in_toDigits
  fun_induction numberArgs k s with
  | case1 => simp
  | case2 k cs ih => simp [harg, ih]
  | case3 k cs ih => simp [harg, ih]
  | case4 k c cs h₁ h₂ ih =>
      rw [List.mem_cons, not_or]
      exact ⟨fun h => h₁ h.symm, ih⟩

/-! ### Tokens -/

theorem tokens_pending {pending : Text} (hp : pending ≠ []) {y : Text}
    (hy : ∀ c ∈ y, isIdentChar c = true) {c : Char} (hc : isIdentChar c = false) (rest : Text) :
    tokens pending (y ++ c :: rest) = readName (pending ++ y) :: (charToken c ++ tokens [] rest) := by
  induction y generalizing pending with
  | nil =>
      obtain ⟨d, ds, rfl⟩ := List.exists_cons_of_ne_nil hp
      rw [List.nil_append, List.append_nil, tokens, if_neg (by simp [hc])]
      simp
  | cons a y ih =>
      obtain ⟨d, ds, rfl⟩ := List.exists_cons_of_ne_nil hp
      rw [List.cons_append, tokens, if_pos (hy a (by simp)),
        ih (by simp) fun b hb => hy b (by simp [hb])]
      · simp
      · simp

/-- A character that is not part of a name makes its token at once. -/
theorem tokens_char {c : Char} (hc : isIdentChar c = false) (rest : Text) :
    tokens [] (c :: rest) = charToken c ++ tokens [] rest := by
  rw [tokens, if_neg (by simp [hc])]

/-- A name up to a character that cannot be part of it. -/
theorem tokens_name {a : Char} (ha : isDigit a = false) {y : Text}
    (hy : ∀ c ∈ a :: y, isIdentChar c = true) {c : Char} (hc : isIdentChar c = false)
    (rest : Text) :
    tokens [] (a :: y ++ c :: rest) = readName (a :: y) :: tokens [] (c :: rest) := by
  rw [List.cons_append, tokens, if_pos (by simp [hy a (by simp), ha]),
    tokens_pending (by simp) (fun b hb => hy b (by simp [hb])) hc, tokens_char hc]
  rfl

/-- The names among the tokens are made of characters of the text that may stand in names. -/
theorem mem_of_name_mem_tokens {pending s t : Text} (hp : ∀ c ∈ pending, isIdentChar c = true)
    (h : Token.name t ∈ tokens pending s) :
    ∀ c ∈ t, isIdentChar c = true ∧ (c ∈ pending ∨ c ∈ s) := by
  have hchar : ∀ c, Token.name t ∉ charToken c := by
    intro c
    unfold charToken
    split <;> simp
  have hread : ∀ p : Text, Token.name t = readName p → t = p := by
    intro p h
    rw [readName] at h
    split at h
    · cases h
    · split at h
      · cases h
      · exact Token.name.inj h
  induction s generalizing pending with
  | nil =>
      cases pending with
      | nil => simp [tokens] at h
      | cons a as =>
          rw [tokens, List.mem_singleton] at h
          · rw [hread _ h]
            exact fun c hc => ⟨hp c hc, Or.inl hc⟩
          · simp
  | cons d s ih =>
      cases pending with
      | nil =>
          rw [tokens] at h
          split at h
          · rename_i hd
            have hd : isIdentChar d = true := (Bool.and_eq_true _ _ ▸ hd).1
            intro c hc
            obtain ⟨hident, hmem⟩ := @ih [d] (by simpa using hd) h c hc
            exact ⟨hident, Or.inr (by simpa using hmem)⟩
          · rcases List.mem_append.mp h with h | h
            · exact absurd h (hchar d)
            · intro c hc
              obtain ⟨hident, hmem⟩ := @ih [] (by simp) h c hc
              exact ⟨hident, Or.inr (by simpa using Or.inr hmem)⟩
      | cons a as =>
          rw [tokens] at h
          · split at h
            · rename_i hd
              intro c hc
              obtain ⟨hident, hmem⟩ := @ih (a :: as ++ [d])
                (by simpa [or_imp, forall_and, hd] using hp) h c hc
              refine ⟨hident, ?_⟩
              simp only [List.mem_append, List.mem_cons] at hmem ⊢
              tauto
            · rcases List.mem_cons.mp h with h | h
              · rw [hread _ h]
                exact fun c hc => ⟨hp c hc, Or.inl hc⟩
              · rcases List.mem_append.mp h with h | h
                · exact absurd h (hchar d)
                · intro c hc
                  obtain ⟨hident, hmem⟩ := @ih [] (by simp) h c hc
                  exact ⟨hident, Or.inr (by simpa using Or.inr hmem)⟩
          · simp

/-! ### Reading a printed declaration -/

theorem tokens_argName (k : Nat) {c : Char} (hc : isIdentChar c = false) (rest : Text) :
    tokens [] (argName k ++ c :: rest) = .name (argName k) :: tokens [] (c :: rest) := by
  have hchars : ∀ d ∈ 'a' :: ("rg" ++ ofNat k : Text), isIdentChar d = true := by
    intro d hd
    simp only [List.mem_cons, List.mem_append] at hd
    rcases hd with rfl | hd | hd
    · decide
    · exact List.all_eq_true.mp (show (("rg" : Text).all isIdentChar) = true by decide) d hd
    · have : d.isDigit = true := Nat.isDigit_of_mem_toDigits (by decide) (by decide) hd
      simp [isIdentChar, Char.isAlphanum, this]
  have hname : argName k = 'a' :: ("rg" ++ ofNat k) := rfl
  have hkey : ∀ t : Text, 'a' :: t ∉ keywords := by
    intro t ht
    have hheads : ∀ w ∈ keywords, w.head? ≠ some 'a' := by decide
    exact hheads _ ht rfl
  have hread : readName ('a' :: ("rg" ++ ofNat k)) = .name ('a' :: ("rg" ++ ofNat k)) := by
    rw [readName, if_neg (hkey _), if_neg (by simp)]
  rw [hname, tokens_name (by decide) hchars hc, hread]

/-- The names of the arguments are short and all different, as far as Wren reads them. -/
theorem declareVariable_argName {k : Nat} (hk : k ≤ MAX_PARAMETERS) {scope : List Text}
    (hscope : ∀ t ∈ scope, ∃ j < k, t = argName j) :
    declareVariable scope (argName k) = some (argName k :: scope) := by
  have hlength : ∀ k ≤ MAX_PARAMETERS, ¬ MAX_VARIABLE_NAME < (argName k).length := by decide
  have hdistinct : ∀ k ≤ MAX_PARAMETERS, ∀ j < k, argName k ≠ argName j := by decide
  have hnew : argName k ∉ scope := by
    intro hmem
    obtain ⟨j, hj, heq⟩ := hscope _ hmem
    exact hdistinct k hk j hj heq
  rw [declareVariable, if_neg (hlength k hk), if_neg hnew]

/-- Numbered arguments are so many parameters, or too many. -/
theorem finishParameterList_numbered (n a : Nat) (ha : a ≤ MAX_PARAMETERS) {scope : List Text}
    (hscope : ∀ t ∈ scope, ∃ j < a + 1, t = argName j) (rest : Text) :
    finishParameterList a scope
      (tokens [] (argName (a + 1) ++ (numberArgs (a + 1) (moreArgs n) ++ ')' :: rest)))
      = if a + n + 1 ≤ MAX_PARAMETERS then some (a + n + 1, tokens [] rest) else none := by
  induction n generalizing a scope with
  | zero =>
      rw [moreArgs, numberArgs, List.nil_append, tokens_argName (a + 1) (by decide),
        tokens_char (by decide)]
      show (if a + 1 = MAX_PARAMETERS + 1 then none
        else (declareVariable scope (argName (a + 1))).map fun _ => (a + 1, tokens [] rest)) = _
      by_cases hlast : a = MAX_PARAMETERS
      · rw [if_pos (by omega), if_neg (by omega)]
      · rw [if_neg (by omega), if_pos (by omega),
          declareVariable_argName (by omega) hscope]
        rfl
  | succ n ih =>
      have hmore : numberArgs (a + 1) (moreArgs (n + 1)) ++ ')' :: rest
          = ',' :: (argName (a + 2) ++ (numberArgs (a + 2) (moreArgs n) ++ ')' :: rest)) := by
        simp [moreArgs, numberArgs, argName]
      rw [hmore, tokens_argName (a + 1) (by decide), tokens_char (by decide)]
      show (if a + 1 = MAX_PARAMETERS + 1 then none
        else (declareVariable scope (argName (a + 1))).bind fun scope =>
          finishParameterList (a + 1) scope (tokens [] _)) = _
      by_cases hlast : a = MAX_PARAMETERS
      · rw [if_pos (by omega), if_neg (by omega)]
      · have hscope' : ∀ t ∈ argName (a + 1) :: scope, ∃ j < a + 1 + 1, t = argName j := by
          intro t ht
          rcases List.mem_cons.mp ht with rfl | ht
          · exact ⟨a + 1, by omega, rfl⟩
          · obtain ⟨j, hj, heq⟩ := hscope t ht
            exact ⟨j, by omega, heq⟩
        rw [if_neg (by omega), declareVariable_argName (by omega) hscope, Option.bind_some,
          ih (a + 1) (by omega) hscope']
        rw [show a + 1 + n + 1 = a + (n + 1) + 1 by omega]

/-- How a parameter list with an argument is printed. -/
theorem numberArgs_parameters (n : Nat) :
    numberArgs 0 ("(" ++ argLoop (fun _ => "_") "," (n + 1) ++ ")") ++ "\n"
      = '(' :: (argName 1 ++ (numberArgs 1 (moreArgs n) ++ ')' :: "\n")) := by
  have hend : ∀ k, numberArgs k ([')'] : Text) = [')'] := fun _ => rfl
  have hsplit := numberArgs_moreArgs n 1 [')']
  rw [argLoop_underscores]
  show '(' :: numberArgs 0 ('_' :: (moreArgs n ++ [')'])) ++ ['\n'] = _
  rw [numberArgs, hsplit, hend]
  simp [argName]

/-- The parameter list of a method with `n` arguments, printed and read. -/
theorem namedSignature_method (name : Text) (n : Nat) :
    namedSignature name
      (tokens [] (numberArgs 0 ("(" ++ argLoop (fun _ => "_") "," n ++ ")") ++ "\n"))
      = if n ≤ MAX_PARAMETERS then some ({ name, type := .method, arity := n }, [.line])
        else none := by
  cases n with
  | zero => rfl
  | succ n =>
      rw [numberArgs_parameters, tokens_char (by decide)]
      have hnone : ∀ t ∈ ([] : List Text), ∃ j < 0 + 1, t = argName j := fun _ ht => nomatch ht
      have hlist := finishParameterList_numbered n 0 (by decide) hnone "\n"
      rw [Nat.zero_add, Nat.zero_add] at hlist
      -- a name is behind the parenthesis, so the list is not the empty one
      obtain ⟨c, after, hsplit, hc⟩ : ∃ c after,
          numberArgs 1 (moreArgs n) ++ ')' :: ("\n" : Text) = c :: after ∧
            isIdentChar c = false := by
        cases n with
        | zero => exact ⟨')', _, rfl, by decide⟩
        | succ n => exact ⟨',', _, rfl, by decide⟩
      rw [hsplit, tokens_argName 1 hc] at hlist ⊢
      show (finishParameterList 0 [] (.name (argName 1) :: tokens [] (c :: after))).map _ = _
      rw [hlist]
      by_cases hn : n + 1 ≤ MAX_PARAMETERS
      · rw [if_pos hn, if_pos hn]
        rfl
      · rw [if_neg hn, if_neg hn]
        rfl

theorem namedSignature_setter (name : Text) :
    namedSignature name (tokens [] (numberArgs 0 "=(_)" ++ "\n"))
      = some ({ name, type := .setter, arity := 1 }, [.line]) := rfl

theorem namedSignature_getter (name : Text) :
    namedSignature name (tokens [] (numberArgs 0 [] ++ "\n"))
      = some ({ name, type := .getter, arity := 0 }, [.line]) := rfl

/-! ### The round trip -/

/-- What a class exports under a name. -/
inductive Member
  | method (isStatic : Bool) (arity : Nat)
  | setter
  | getter

/-- The signature stored for a member in `bindSignatureMap`. -/
def memberSignature (className name : Text) : Member → Text
  | .method true n => "static " ++ methodSignature className name n
  | .method false n => methodSignature className name n
  | .setter => setterSignature className name
  | .getter => getterSignature className name

/-- A name Wren takes for the name of a method: no keyword but the operator `is`, and not a
field. -/
structure LegalName (x : Ident) : Prop where
  noKeyword : x.text ∈ keywords → x.text = "is"
  noField : x.text.head? ≠ some '_'

def Member.arity : Member → Nat
  | .method _ n => n
  | .setter => 1
  | .getter => 0

/-- What Wren asks of the name of a class: it is that of a variable that is not there yet. -/
structure ClassAccepted (name : Text) : Prop where
  noField : name.head? ≠ some '_'
  length : name.length ≤ MAX_VARIABLE_NAME
  notCore : name ∉ coreVariables

/-- What Wren asks of a member: an operator has one argument. -/
structure MemberAccepted (name : Text) (m : Member) : Prop where
  length : name.length ≤ MAX_METHOD_NAME
  arity : m.arity ≤ MAX_PARAMETERS
  operator : name = "is" → ∃ isStatic, m = .method isStatic 1

/-- What follows the name in a signature, and what Wren makes of it. -/
def Member.tail : Member → Text
  | .method _ n => "(" ++ argLoop (fun _ => "_") "," n ++ ")"
  | .setter => "=(_)"
  | .getter => []

def Member.mark : Member → Text
  | .method true _ => "static "
  | _ => []

def Member.isStatic : Member → Bool
  | .method s _ => s
  | _ => false

def Member.signature (name : Text) : Member → Signature
  | .method _ n => { name, type := .method, arity := n }
  | .setter => { name, type := .setter, arity := 1 }
  | .getter => { name, type := .getter, arity := 0 }

theorem memberSignature_eq (c x : Ident) (m : Member) :
    memberSignature c.text x.text m = m.mark ++ c.text ++ "." ++ x.text ++ m.tail := by
  have hmethod : ∀ n, methodSignature c.text x.text n
      = c.text ++ "." ++ x.text ++ ("(" ++ argLoop (fun _ => "_") "," n ++ ")") := fun n => by
    rw [methodSignature]
    simp only [List.append_assoc]
  have hsetter : setterSignature c.text x.text = c.text ++ "." ++ x.text ++ "=(_)" := by
    rw [setterSignature, List.append_assoc]
    rfl
  cases m with
  | method s n =>
      cases s with
      | true =>
          show "static " ++ methodSignature c.text x.text n = "static " ++ c.text ++ "." ++ x.text ++ _
          rw [hmethod]
          simp only [List.append_assoc]
          rfl
      | false => exact hmethod n
  | setter => exact hsetter
  | getter => exact (getterSignature_eq c x).trans (List.append_nil _).symm

/-- The key of the signature Wren reads is the signature itself. -/
theorem bindForeignMethod_signature (c x : Ident) {m : Member} (hm : m.arity ≤ MAX_PARAMETERS) :
    bindForeignMethod c.text m.isStatic (m.signature x.text) = memberSignature c.text x.text m := by
  have hkey : bindForeignMethod c.text m.isStatic (m.signature x.text)
      = m.mark ++ c.text ++ "." ++ (x.text ++ m.tail) := by
    cases m with
    | method s n =>
        have hmin : min n MAX_PARAMETERS = n := Nat.min_eq_left hm
        have hsig : signatureToString (Member.signature x.text (.method s n))
            = x.text ++ ("(" ++ argLoop (fun _ => "_") "," (min n MAX_PARAMETERS) ++ ")") := rfl
        rw [bindForeignMethod, hsig, hmin]
        cases s <;> rfl
    | setter => rfl
    | getter => rfl
  rw [hkey, memberSignature_eq]
  simp only [List.append_assoc]

theorem namedSignature_member (name : Text) (m : Member) :
    namedSignature name (tokens [] (numberArgs 0 m.tail ++ "\n"))
      = if m.arity ≤ MAX_PARAMETERS then some (m.signature name, [.line]) else none := by
  cases m with
  | method s n => exact namedSignature_method name n
  | setter => exact namedSignature_setter name
  | getter => exact namedSignature_getter name

/-- The operator is read with one argument, and not otherwise. -/
theorem infixSignature_member (name : Text) (m : Member) (d : Signature × List Token) :
    infixSignature name (tokens [] (numberArgs 0 m.tail ++ "\n")) = some d ↔
      (∃ isStatic, m = .method isStatic 1) ∧ d = (m.signature name, [.line]) := by
  cases m with
  | setter => exact ⟨fun h => (nomatch h), fun ⟨⟨_, h⟩, _⟩ => (nomatch h)⟩
  | getter => exact ⟨fun h => (nomatch h), fun ⟨⟨_, h⟩, _⟩ => (nomatch h)⟩
  | method s n =>
      cases n with
      | zero => exact ⟨fun h => (nomatch h), fun ⟨⟨_, h⟩, _⟩ => (nomatch h)⟩
      | succ n =>
          show infixSignature name (tokens [] (numberArgs 0 _ ++ "\n")) = some d ↔ _
          rw [show Member.tail (.method s (n + 1))
              = "(" ++ argLoop (fun _ => "_") "," (n + 1) ++ ")" from rfl,
            numberArgs_parameters, tokens_char (by decide)]
          cases n with
          | zero =>
              have hread : infixSignature name (charToken '(' ++
                  tokens [] (argName 1 ++ (numberArgs 1 (moreArgs 0) ++ ')' :: "\n")))
                  = some ({ name, type := .method, arity := 1 }, [.line]) := rfl
              rw [hread, Option.some.injEq]
              exact ⟨fun h => ⟨⟨s, rfl⟩, h.symm⟩, fun h => h.2.symm⟩
          | succ n =>
              have hread : infixSignature name (charToken '(' ++
                  tokens [] (argName 1 ++ (numberArgs 1 (moreArgs (n + 1)) ++ ')' :: "\n")))
                  = none := rfl
              rw [hread]
              exact ⟨fun h => (nomatch h), fun ⟨⟨_, h⟩, _⟩ => (nomatch h)⟩

/-- **A member is read** if Wren accepts it. -/
theorem readSignature_member {x : Ident} (hx : LegalName x) (m : Member)
    (d : Signature × List Token) :
    readSignature (readName x.text :: tokens [] (numberArgs 0 m.tail ++ "\n")) = some d ↔
      MemberAccepted x.text m ∧ d = (m.signature x.text, [.line]) := by
  by_cases his : x.text = "is"
  · have hread : readName x.text = .keyword "is" := by rw [his]; rfl
    have hstep : readSignature (.keyword "is" :: tokens [] (numberArgs 0 m.tail ++ "\n"))
        = infixSignature "is" (tokens [] (numberArgs 0 m.tail ++ "\n")) := rfl
    rw [hread, hstep, infixSignature_member, his]
    refine and_congr_left fun _ => ⟨fun h => ⟨by decide, ?_, fun _ => h⟩, fun h => h.operator rfl⟩
    obtain ⟨st, rfl⟩ := h
    exact (by decide : 1 ≤ MAX_PARAMETERS)
  · have hread : readName x.text = .name x.text := by
      rw [readName, if_neg fun h => his (hx.noKeyword h), if_neg hx.noField]
    have hstep : readSignature (.name x.text :: tokens [] (numberArgs 0 m.tail ++ "\n"))
        = if MAX_METHOD_NAME < x.text.length then none
          else namedSignature x.text (tokens [] (numberArgs 0 m.tail ++ "\n")) := rfl
    rw [hread, hstep, namedSignature_member]
    by_cases hlength : MAX_METHOD_NAME < x.text.length
    · rw [if_pos hlength]
      exact ⟨fun h => (nomatch h), fun h => absurd h.1.length (by omega)⟩
    · rw [if_neg hlength]
      by_cases harity : m.arity ≤ MAX_PARAMETERS
      · rw [if_pos harity, Option.some.injEq]
        exact ⟨fun h => ⟨⟨by omega, harity, fun h => absurd h his⟩, h.symm⟩, fun h => h.2.symm⟩
      · rw [if_neg harity]
        exact ⟨fun h => (nomatch h), fun h => absurd h.1.arity harity⟩

/-- The characters of a signature outside its names. -/
theorem Member.not_mem_mark (m : Member) {c : Char} (hc : c ∉ ("static " : Text)) : c ∉ m.mark := by
  unfold Member.mark
  split
  · exact hc
  · exact List.not_mem_nil

theorem Member.not_mem_tail (m : Member) {c : Char} (hc : c ∉ ("(_,)=" : Text)) : c ∉ m.tail := by
  cases m with
  | method s n =>
      have hargs : c ∉ argLoop (fun _ => "_") "," n := by
        cases n with
        | zero => exact List.not_mem_nil
        | succ n =>
            have hmore : c ∉ moreArgs n := by
              induction n with
              | zero => exact List.not_mem_nil
              | succ n ih =>
                  rw [moreArgs, List.mem_cons, List.mem_cons, not_or, not_or]
                  exact ⟨fun h => hc (by rw [h]; decide), fun h => hc (by rw [h]; decide), ih⟩
            rw [argLoop_underscores, List.mem_cons, not_or]
            exact ⟨fun h => hc (by rw [h]; decide), hmore⟩
      show c ∉ ("(" : Text) ++ argLoop (fun _ => "_") "," n ++ ")"
      rw [List.mem_append, List.mem_append, not_or, not_or]
      refine ⟨⟨fun h => hc ?_, hargs⟩, fun h => hc ?_⟩
      · rw [List.mem_singleton.mp h]; decide
      · rw [List.mem_singleton.mp h]; decide
  | setter =>
      show c ∉ ("=(_)" : Text)
      intro h
      have hsub : ("=(_)" : Text) ⊆ "(_,)=" := by decide
      exact hc (hsub h)
  | getter => exact List.not_mem_nil

/-- The printed declaration: the class name is gone and the underscores are numbered, those of
the name with the others. -/
theorem externLine_member (c x : Ident) (m : Member) :
    externLine c.text (memberSignature c.text x.text m)
      = "\tforeign " ++ numberArgs 0 (m.mark ++ (x.text ++ m.tail)) ++ "\n" := by
  have hrest : '.' ∉ x.text ++ m.tail := by
    rw [List.mem_append, not_or]
    exact ⟨x.not_mem (by decide), m.not_mem_tail (by decide)⟩
  have hcut := replace_marked (m.not_mem_mark (by decide)) (c.not_mem (c := '.') (by decide)) hrest []
  have hsig : memberSignature c.text x.text m
      = m.mark ++ (c.text ++ ['.']) ++ (x.text ++ m.tail) := by
    rw [memberSignature_eq]
    simp
  show "\tforeign " ++ numberArgs 0 (replace (memberSignature c.text x.text m)
    (c.text ++ ['.']) []) ++ "\n" = _
  rw [hsig, hcut, List.append_nil]

private theorem isDigit_of_isAlpha {c : Char} (h : c.isAlpha = true) : isDigit c = false := by
  simp only [Char.isAlpha, Char.isUpper, Char.isLower, Bool.or_eq_true, Bool.and_eq_true,
    decide_eq_true_eq, ge_iff_le, UInt32.le_iff_toNat_le] at h
  simp only [isDigit, Char.isDigit, ge_iff_le, UInt32.le_iff_toNat_le, Bool.and_eq_false_iff,
    decide_eq_false_iff_not]
  have h9 : '9'.val.toNat = 57 := rfl
  have hA : 'A'.val.toNat = 65 := rfl
  have ha : 'a'.val.toNat = 97 := rfl
  omega

/-- A name and what is behind it. -/
theorem tokens_ident (x : Ident) {c : Char} (hc : isIdentChar c = false) (rest : Text) :
    tokens [] (x.text ++ c :: rest) = readName x.text :: tokens [] (c :: rest) := by
  obtain ⟨a, y, hay⟩ := List.exists_cons_of_ne_nil x.ne_nil
  have hchars : ∀ d ∈ a :: y, isIdentChar d = true := by
    rw [← hay]
    exact fun d hd => x.isIdentChar_of_mem hd
  have ha : isDigit a = false := by
    have hwf := x.wf
    rw [hay, isIdent, Bool.and_eq_true, Bool.or_eq_true] at hwf
    rcases hwf.1 with halpha | hunder
    · exact isDigit_of_isAlpha halpha
    · rw [eq_of_beq hunder]
      decide
  rw [hay, tokens_name ha hchars hc]

/-- The tokens of a line. -/
theorem tokens_foreign (x : Ident) (m : Member) {s : Text}
    (hs : ∃ c rest, s = c :: rest ∧ isIdentChar c = false) :
    tokens [] ("\tforeign " ++ (m.mark ++ (x.text ++ s)))
      = .keyword "foreign" :: ((if m.isStatic then [.keyword "static"] else []) ++
          readName x.text :: tokens [] s) := by
  obtain ⟨c, rest, rfl, hc⟩ := hs
  have hname := tokens_ident x hc rest
  have hmark : tokens [] (m.mark ++ (x.text ++ c :: rest))
      = (if m.isStatic then [.keyword "static"] else []) ++
          readName x.text :: tokens [] (c :: rest) := by
    cases m with
    | method st n =>
        cases st with
        | true =>
            show tokens [] ('s' :: "tatic" ++ ' ' :: (x.text ++ c :: rest)) = _
            rw [tokens_name (by decide) (List.all_eq_true.mp (by decide)) (by decide),
              tokens_char (by decide), hname]
            rfl
        | false => exact hname
    | setter => exact hname
    | getter => exact hname
  show tokens [] ('\t' :: ('f' :: "oreign" ++ ' ' :: (m.mark ++ (x.text ++ c :: rest)))) = _
  rw [tokens_char (by decide),
    tokens_name (by decide) (List.all_eq_true.mp (by decide)) (by decide),
    tokens_char (by decide), hmark]
  rfl

/-- **A class is read** if Wren accepts its name. -/
theorem foreignClass_classLine (c : TypeIdent) (name : Text) :
    foreignClass (tokens [] (classLine c.text)) = some name ↔
      ClassAccepted c.text ∧ name = c.text := by
  have htokens : tokens [] (classLine c.text)
      = [.keyword "foreign", .keyword "class", readName c.text, .other '\x7b', .line] := by
    have hline : classLine c.text
        = 'f' :: "oreign" ++ ' ' :: ('c' :: "lass" ++ ' ' :: (c.text ++ ' ' :: "\x7b\n")) :=
      List.append_assoc _ _ _
    rw [hline, tokens_name (by decide) (List.all_eq_true.mp (by decide)) (by decide),
      tokens_char (by decide),
      tokens_name (by decide) (List.all_eq_true.mp (by decide)) (by decide),
      tokens_char (by decide), tokens_ident c.toIdent (by decide)]
    rfl
  -- a keyword begins with a small letter, and no type does
  have hkey : c.text ∉ keywords := by
    intro hmem
    have hlower : ∀ k ∈ keywords, isLowerIdent k = true := by decide +kernel
    have hupper := c.upper
    rw [hlower _ hmem] at hupper
    exact Bool.noConfusion hupper
  rw [htokens]
  by_cases hfield : c.text.head? = some '_'
  · have hread : readName c.text = .field c.text := by rw [readName, if_neg hkey, if_pos hfield]
    rw [hread]
    exact ⟨fun h => (nomatch h), fun h => absurd hfield h.1.noField⟩
  · have hread : readName c.text = .name c.text := by rw [readName, if_neg hkey, if_neg hfield]
    rw [hread]
    show (declareVariable coreVariables c.text).map (fun _ => c.text) = some name ↔ _
    rw [declareVariable]
    by_cases hlength : MAX_VARIABLE_NAME < c.text.length
    · rw [if_pos hlength]
      exact ⟨fun h => (nomatch h), fun h => absurd h.1.length (by omega)⟩
    · rw [if_neg hlength]
      by_cases hcore : c.text ∈ coreVariables
      · rw [if_pos hcore]
        exact ⟨fun h => (nomatch h), fun h => absurd hcore h.1.notCore⟩
      · rw [if_neg hcore, Option.map_some, Option.some.injEq]
        exact ⟨fun h => ⟨⟨hfield, by omega, hcore⟩, h.symm⟩, fun h => h.2.symm⟩

/-- The name of a member read is one of the tokens, or the operator. -/
theorem name_mem_of_foreignMethod {ts : List Token} {st : Bool} {sg : Signature}
    (h : foreignMethod ts = some (st, sg)) : .name sg.name ∈ ts ∨ sg.name = "is" := by
  have hnamed : ∀ (name : Text) (ts rest : List Token) (sg : Signature),
      namedSignature name ts = some (sg, rest) → sg.name = name := by
    intro name ts rest sg h
    unfold namedSignature at h
    split at h
    · obtain ⟨p, -, hp⟩ := Option.map_eq_some_iff.mp h
      rw [Prod.mk.injEq] at hp
      rw [← hp.1]
    · cases h
    · simp only [Option.some.injEq, Prod.mk.injEq] at h
      rw [← h.1]
    · obtain ⟨p, -, hp⟩ := Option.map_eq_some_iff.mp h
      rw [Prod.mk.injEq] at hp
      rw [← hp.1]
    · simp only [Option.some.injEq, Prod.mk.injEq] at h
      rw [← h.1]
  have hread : ∀ (ts rest : List Token) (sg : Signature),
      readSignature ts = some (sg, rest) → .name sg.name ∈ ts ∨ sg.name = "is" := by
    intro ts rest sg h
    unfold readSignature at h
    split at h
    · split at h
      · cases h
      · rw [hnamed _ _ _ _ h]
        exact Or.inl List.mem_cons_self
    · split at h
      · rename_i k _ hk
        unfold infixSignature at h
        split at h
        · obtain ⟨p, -, hp⟩ := Option.map_eq_some_iff.mp h
          rw [Prod.mk.injEq] at hp
          rw [← hp.1]
          exact Or.inr hk
        · cases h
      · cases h
    · cases h
  have hfinish : ∀ (st' : Bool) (ts : List Token),
      foreignMethod.finish st' ts = some (st, sg) → .name sg.name ∈ ts ∨ sg.name = "is" := by
    intro st' ts h
    unfold foreignMethod.finish at h
    split at h
    · rename_i sg' heq
      simp only [Option.some.injEq, Prod.mk.injEq] at h
      rw [← h.2]
      exact hread _ _ _ heq
    · cases h
  unfold foreignMethod at h
  split at h
  · split at h
    · split at h
      · exact (hfinish _ _ h).imp_left fun hmem => List.mem_cons_of_mem _ (List.mem_of_mem_tail hmem)
      · exact (hfinish _ _ h).imp_left (List.mem_cons_of_mem _)
    · cases h
  · cases h

/-- A key names what stands between the point and what is behind the name. -/
theorem nameOf_key {mark name tail : Text} (hmark : '.' ∉ mark)
    (hname : ∀ d ∈ name, isIdentChar d = true) (htail : ∀ d ∈ tail.head?, isIdentChar d = false) :
    nameOf (mark ++ '.' :: (name ++ tail)) = name := by
  rw [nameOf, memberPart_append hmark, List.takeWhile_append_of_pos hname]
  cases tail with
  | nil => simp
  | cons d ds => rw [List.takeWhile_cons_of_neg (by simp [htail d (by simp)]), List.append_nil]

theorem nameOf_bindForeignMethod (c : Ident) (st : Bool) {sg : Signature}
    (h : ∀ d ∈ sg.name, isIdentChar d = true) : nameOf (bindForeignMethod c.text st sg) = sg.name := by
  have hmark : '.' ∉ (if st then ("static " : Text) else []) ++ c.text := by
    rw [List.mem_append, not_or]
    refine ⟨?_, c.not_mem (by decide)⟩
    cases st <;> decide
  obtain ⟨tail, htail, hhead⟩ : ∃ tail, signatureToString sg = sg.name ++ tail ∧
      ∀ d ∈ tail.head?, isIdentChar d = false := by
    refine ⟨_, rfl, ?_⟩
    cases sg.type with
    | method =>
        show ∀ d ∈ ((('(' :: (argLoop (fun _ => "_") "," (min sg.arity MAX_PARAMETERS) ++ ")"))
          : Text)).head?, _
        simp
        decide
    | getter => simp
    | setter =>
        show ∀ d ∈ (('=' :: signatureParameterList 1 : Text)).head?, _
        simp
        decide
  have hkey : bindForeignMethod c.text st sg
      = ((if st then ("static " : Text) else []) ++ c.text) ++ '.' :: (sg.name ++ tail) := by
    rw [← htail]
    show (if st then ("static " : Text) else []) ++ c.text ++ "." ++ signatureToString sg = _
    simp only [List.append_assoc]
    rfl
  rw [hkey, nameOf_key hmark h hhead]

theorem nameOf_memberSignature (c x : Ident) (m : Member) :
    nameOf (memberSignature c.text x.text m) = x.text := by
  have hmark : '.' ∉ m.mark ++ c.text := by
    rw [List.mem_append, not_or]
    exact ⟨m.not_mem_mark (by decide), c.not_mem (by decide)⟩
  have htail : ∀ d ∈ m.tail.head?, isIdentChar d = false := by
    cases m with
    | method s n =>
        show ∀ d ∈ ((('(' :: (argLoop (fun _ => "_") "," n ++ ")")) : Text)).head?, _
        simp
        decide
    | setter =>
        show ∀ d ∈ ((('=' :: "(_)") : Text)).head?, _
        simp
        decide
    | getter => exact fun _ h => (nomatch h)
  have hkey : memberSignature c.text x.text m
      = (m.mark ++ c.text) ++ '.' :: (x.text ++ m.tail) := by
    rw [memberSignature_eq]
    simp only [List.append_assoc]
    rfl
  rw [hkey, nameOf_key hmark (fun d hd => x.isIdentChar_of_mem hd) htail]

/-- The line of a member whose name has no underscore. -/
theorem externLine_plain (c x : Ident) (m : Member) (hx : '_' ∉ x.text) :
    externLine c.text (memberSignature c.text x.text m)
      = "\tforeign " ++ (m.mark ++ (x.text ++ (numberArgs 0 m.tail ++ "\n"))) := by
  have hmark : '_' ∉ m.mark ∧ ',' ∉ m.mark := by
    unfold Member.mark
    split <;> decide
  rw [externLine_member, numberArgs_append hmark.1 hmark.2,
    numberArgs_append hx (x.not_mem (by decide))]
  simp only [List.append_assoc]

theorem foreignMethod_plain (c x : Ident) (m : Member) (hlegal : LegalName x) (hx : '_' ∉ x.text)
    (d : Bool × Signature) :
    foreignMethod (tokens [] (externLine c.text (memberSignature c.text x.text m))) = some d ↔
      MemberAccepted x.text m ∧ d = (m.isStatic, m.signature x.text) := by
  have htail : ∃ d rest, numberArgs 0 m.tail ++ ("\n" : Text) = d :: rest ∧
      isIdentChar d = false := by
    cases m with
    | method s n => exact ⟨'(', _, rfl, by decide⟩
    | setter => exact ⟨'=', _, rfl, by decide⟩
    | getter => exact ⟨'\n', _, rfl, by decide⟩
  have hstatic : readName x.text ≠ .keyword "static" := by
    unfold readName
    split
    · rename_i hmem
      rw [hlegal.noKeyword hmem]
      decide
    · split <;> exact fun h => (nomatch h)
  rw [externLine_plain c x m hx, tokens_foreign x m htail]
  generalize hts : readName x.text :: tokens [] (numberArgs 0 m.tail ++ "\n") = ts
  have hmethod : foreignMethod (.keyword "foreign" ::
      ((if m.isStatic then [.keyword "static"] else []) ++ ts))
      = foreignMethod.finish m.isStatic ts := by
    cases hst : m.isStatic with
    | true => rfl
    | false =>
        show (if ts.head? = some (.keyword "static") then foreignMethod.finish true ts.tail
          else foreignMethod.finish false ts) = _
        rw [if_neg]
        rw [← hts, List.head?_cons, Option.some.injEq]
        exact hstatic
  have hread : ∀ d, readSignature ts = some d ↔
      MemberAccepted x.text m ∧ d = (m.signature x.text, [.line]) := by
    rw [← hts]
    exact readSignature_member hlegal m
  rw [hmethod, foreignMethod.finish]
  constructor
  · intro h
    split at h
    · rename_i sg heq
      obtain ⟨haccepted, hsg⟩ := (hread _).mp heq
      obtain ⟨rfl, -⟩ := Prod.mk.inj hsg
      exact ⟨haccepted, (Option.some.inj h).symm⟩
    · cases h
  · rintro ⟨haccepted, rfl⟩
    rw [(hread _).mpr ⟨haccepted, rfl⟩]

/-- **A line with an underscore in the name** names another member. -/
theorem noUnderscore_of_foreignMethod (c x : Ident) (m : Member) {st : Bool} {sg : Signature}
    (hmethod : foreignMethod (tokens [] (externLine c.text (memberSignature c.text x.text m)))
      = some (st, sg))
    (hkey : bindForeignMethod c.text st sg = memberSignature c.text x.text m) : '_' ∉ x.text := by
  have hchars : ∀ d ∈ sg.name, isIdentChar d = true ∧
      (d ∈ externLine c.text (memberSignature c.text x.text m) ∨ d ≠ '_') := by
    rcases name_mem_of_foreignMethod hmethod with hmem | his
    · intro d hd
      obtain ⟨hident, hline⟩ := mem_of_name_mem_tokens (by simp) hmem d hd
      exact ⟨hident, Or.inl (hline.resolve_left List.not_mem_nil)⟩
    · have hident : ("is" : Text).all isIdentChar = true := by decide
      have hplain : '_' ∉ ("is" : Text) := by decide
      rw [his]
      exact fun d hd => ⟨List.all_eq_true.mp hident d hd, Or.inr fun heq => hplain (heq ▸ hd)⟩
  have hname : sg.name = x.text := by
    rw [← nameOf_bindForeignMethod c st fun d hd => (hchars d hd).1, hkey]
    exact nameOf_memberSignature c x m
  -- the text of the line has no underscore, so the name read off it has none
  intro hu
  rw [← hname] at hu
  rcases (hchars '_' hu).2 with h | h
  · rw [externLine_member] at h
    simp only [List.mem_append] at h
    rcases h with (h | h) | h
    · revert h; decide
    · exact underscore_not_mem_numberArgs _ _ h
    · revert h; decide
  · exact h rfl

/--
**The round trip gives the signature back if and only if the name has no underscore and Wren
accepts class and member**, for every class, every name that is legal on both sides, and every
kind of member.
-/
theorem foreignKey_externLine_iff (c : TypeIdent) (x : Ident) (m : Member) (hx : LegalName x) :
    foreignKey c.text (externLine c.text (memberSignature c.text x.text m))
        = some (memberSignature c.text x.text m) ↔
      '_' ∉ x.text ∧ ClassAccepted c.text ∧ MemberAccepted x.text m := by
  constructor
  · intro h
    obtain ⟨name, hclass, h⟩ := Option.bind_eq_some_iff.mp h
    obtain ⟨⟨st, sg⟩, hmethod, hkey⟩ := Option.bind_eq_some_iff.mp h
    obtain ⟨haccepted, rfl⟩ := (foreignClass_classLine c name).mp hclass
    have hu := noUnderscore_of_foreignMethod c.toIdent x m hmethod (Option.some.inj hkey)
    exact ⟨hu, haccepted, ((foreignMethod_plain c.toIdent x m hx hu _).mp hmethod).1⟩
  · rintro ⟨hu, hclass, hmember⟩
    have hmethod := (foreignMethod_plain c.toIdent x m hx hu _).mpr ⟨hmember, rfl⟩
    rw [foreignKey, (foreignClass_classLine c _).mpr ⟨hclass, rfl⟩]
    show (foreignMethod _).bind _ = _
    rw [hmethod]
    exact congrArg some (bindForeignMethod_signature c.toIdent x hmember.arity)

namespace Sample

theorem foreignKey_externLine_iff_shout :
    foreignKey "Hello" (externLine "Hello" (memberSignature "Hello" "shout" (.method true 1)))
        = some (memberSignature "Hello" "shout" (.method true 1)) ↔
      '_' ∉ ("shout" : Text) ∧ ClassAccepted "Hello" ∧ MemberAccepted "shout" (.method true 1) :=
  foreignKey_externLine_iff ⟨⟨"Hello", by decide⟩, by decide⟩ ⟨"shout", by decide⟩
    (.method true 1) ⟨by decide, by decide⟩

def toString_ : Ident := ⟨"to_string", by decide⟩

/-- The declaration of `to_string` is printed as one of `toarg1string`. -/
theorem toString_not_foreignKey :
    LegalName toString_ ∧
      foreignKey "Hello" (externLine "Hello" (memberSignature "Hello" toString_.text (.method false 0)))
        ≠ some (memberSignature "Hello" toString_.text (.method false 0)) :=
  ⟨⟨by decide, by decide⟩, by decide +kernel⟩

/-- Two arguments are one too many for the operator. -/
example : ¬ MemberAccepted "is" (.method false 2) := by
  intro h
  obtain ⟨isStatic, heq⟩ := h.operator rfl
  cases heq

end Sample

end Wrenegade
