/-
Which C function a signature selects.

`bindMethod` of a unit is a chain of comparisons, and the functions behind it are
declared in the header and defined in the namespace, all from one declaration
list.  `BindsExactly` says that the chain is what it should be: one comparison for
every exported signature, a function of its own behind each, declared and defined
once, and no function that is never selected.

Through the registry of the class this comes down to the keys of its members being
pairwise distinct.  A signature determines its key, since the member's name can be
read off it; the converse is what two members spelled alike but for their case, or
a member and the accessor of a variable, do not have.
-/
import Wrenegade.Proofs.Units

namespace Wrenegade

open Text Registry

/-! ### Reading a signature -/

/-- The member a signature names, and what follows the name. -/
def memberPart (sig : Text) : Text := (sig.dropWhile (· ≠ '.')).drop 1

/-- The name of the member with a given signature. -/
def nameOf (sig : Text) : Text := (memberPart sig).takeWhile isIdentChar

/-- What follows the name tells a method and the two accessors apart. -/
def keyMark : Text → Text
  | [] => "_get"
  | '=' :: _ => "_set"
  | _ => []

/-- The key of the member with a given signature. -/
def keyOf (sig : Text) : Text :=
  toLower (nameOf sig) ++ keyMark ((memberPart sig).dropWhile isIdentChar)

theorem memberPart_append {mark : Text} (hmark : '.' ∉ mark) (s : Text) :
    memberPart (mark ++ '.' :: s) = s := by
  have hall : ∀ c ∈ mark, decide (c ≠ '.') = true := by
    intro c hc
    simpa using fun h : c = '.' => hmark (h ▸ hc)
  rw [memberPart, List.dropWhile_append_of_pos hall, List.dropWhile_cons_of_neg (by simp)]
  rfl

private theorem takeWhile_name (x : Ident) (rest : Text)
    (h : ∀ c ∈ rest.head?, isIdentChar c = false) :
    (x.text ++ rest).takeWhile isIdentChar = x.text ∧
      (x.text ++ rest).dropWhile isIdentChar = rest := by
  have hall : ∀ c ∈ x.text, isIdentChar c = true := fun c hc => x.isIdentChar_of_mem hc
  rw [List.takeWhile_append_of_pos hall, List.dropWhile_append_of_pos hall]
  cases rest with
  | nil => simp
  | cons c cs =>
      have hc : isIdentChar c = false := h c (by simp)
      rw [List.takeWhile_cons_of_neg (by simp [hc]), List.dropWhile_cons_of_neg (by simp [hc])]
      simp

theorem getterSignature_eq (c x : Ident) :
    getterSignature c.text x.text = c.text ++ "." ++ x.text := by
  have ha : ')' ∉ c.text ++ "." ++ x.text := by
    simp only [List.mem_append, not_or]
    exact ⟨⟨c.not_mem (by decide), by decide⟩, x.not_mem (by decide)⟩
  have hmark : ')' ∉ ("=(_" : Text) := by decide
  have h := replace_marked ha hmark (List.not_mem_nil (a := ')')) []
  have hnew : ("=(_)" : Text) = "=(_" ++ [')'] := by decide
  have hends : ("=(" : Text) ++ "_)" = "=(_" ++ [')'] := by decide
  rw [getterSignature, setterSignature, List.append_assoc _ ("=(" : Text), hends, hnew]
  simpa only [List.append_nil] using h

section Names

variable (C : ClassDecl) (x : Ident)

private theorem dot_not_mem (mark : Text) (h : '.' ∉ mark) : '.' ∉ mark ++ C.name.text := by
  rw [List.mem_append, not_or]
  exact ⟨h, C.name.not_mem (by decide)⟩

/-- The signature of a method, static or not. -/
theorem keyOf_method {mark : Text} (hmark : '.' ∉ mark) (n : Nat) :
    nameOf (mark ++ methodSignature C.name.text x.text n) = x.text ∧
      keyOf (mark ++ methodSignature C.name.text x.text n) = toLower x.text := by
  obtain ⟨args, hargs⟩ : ∃ args, mark ++ methodSignature C.name.text x.text n
      = mark ++ C.name.text ++ '.' :: (x.text ++ '(' :: args) :=
    ⟨argLoop (fun _ => "_") "," n ++ ")", by simp [methodSignature]⟩
  have hpart := memberPart_append (dot_not_mem C mark hmark) (x.text ++ '(' :: args)
  obtain ⟨htake, hdrop⟩ := takeWhile_name x ('(' :: args) (by simp; decide)
  rw [hargs, keyOf, nameOf, hpart, htake, hdrop]
  exact ⟨rfl, List.append_nil _⟩

theorem keyOf_setter :
    nameOf (setterSignature C.name.text x.text) = x.text ∧
      keyOf (setterSignature C.name.text x.text) = toLower x.text ++ "_set" := by
  have hsig : setterSignature C.name.text x.text
      = [] ++ C.name.text ++ '.' :: (x.text ++ "=(_)") := by simp [setterSignature]
  have hpart := memberPart_append (dot_not_mem C [] (by simp)) (x.text ++ "=(_)")
  obtain ⟨htake, hdrop⟩ := takeWhile_name x "=(_)" (by simp; decide)
  rw [hsig, keyOf, nameOf, hpart, htake, hdrop]
  exact ⟨rfl, rfl⟩

theorem keyOf_getter :
    nameOf (getterSignature C.name.text x.text) = x.text ∧
      keyOf (getterSignature C.name.text x.text) = toLower x.text ++ "_get" := by
  have hsig : getterSignature C.name.text x.text
      = [] ++ C.name.text ++ '.' :: (x.text ++ []) := by
    rw [getterSignature_eq C.name.toIdent x]
    simp
  have hpart := memberPart_append (dot_not_mem C [] (by simp)) (x.text ++ [])
  obtain ⟨htake, hdrop⟩ := takeWhile_name x [] (by simp)
  rw [hsig, keyOf, nameOf, hpart, htake, hdrop]
  exact ⟨rfl, rfl⟩

end Names

/-! ### The entries of a class are coherent -/

/-- The entry belongs to the member `x`, as its signature says. -/
structure Named (x : Ident) (e : SigEntry) : Prop where
  name : nameOf e.sig = x.text
  key : keyOf e.sig = e.key

theorem isNew_iff (x : Ident) : isNew x.text = true ↔ x.text = "new" := by
  rw [isNew, x.trim_text, decide_eq_true_eq]

theorem named_variableEntries (C : ClassDecl) (x : Ident) :
    ∀ e ∈ variableEntries C x.text, Named x e ∧ e.mode = .always := by
  intro e he
  simp only [variableEntries, List.mem_cons, List.not_mem_nil, or_false] at he
  rcases he with rfl | rfl
  · exact ⟨⟨(keyOf_setter C x).1, (keyOf_setter C x).2⟩, rfl⟩
  · exact ⟨⟨(keyOf_getter C x).1, (keyOf_getter C x).2⟩, rfl⟩

theorem named_methodEntry (C : ClassDecl) (x : Ident) (mode : Mode) (mark : Text)
    (hmark : '.' ∉ mark) (n : Nat) :
    Named x (methodEntry mode x.text (mark ++ methodSignature C.name.text x.text n)) :=
  ⟨(keyOf_method C x hmark n).1, (keyOf_method C x hmark n).2⟩

/-- Only the constructor reserves its key. -/
theorem named_ownEntries (C : ClassDecl) (f : Field) :
    ∀ e ∈ ownEntries C f, Named f.name e ∧ (e.published = false → f.name.text = "new") := by
  intro e he
  rw [ownEntries] at he
  cases hk : f.kind with
  | fProp => simp [hk] at he
  | fVar =>
      simp only [hk] at he
      split at he
      · obtain ⟨hnamed, hmode⟩ := named_variableEntries C f.name e he
        exact ⟨hnamed, fun h => by simp [Entry.published, hmode] at h⟩
      · simp at he
  | fFun n =>
      simp only [hk] at he
      split at he
      · rw [List.mem_singleton] at he
        subst he
        refine ⟨named_methodEntry C f.name _ [] (by simp) n, fun h => ?_⟩
        by_contra hnew
        have hn : ¬ isNew f.name.text = true := fun h => hnew ((isNew_iff _).mp h)
        simp [Entry.published, methodEntry, hn] at h
      · split at he
        · rw [List.mem_singleton] at he
          subst he
          exact ⟨named_methodEntry C f.name _ "static " (by decide) n, fun h => by
            simp [Entry.published, methodEntry] at h⟩
        · simp at he

theorem named_inheritedEntries (C : ClassDecl) (f : ClassField) :
    ∀ e ∈ inheritedEntries C f, Named f.name e ∧ e.mode = .always := by
  intro e he
  rw [inheritedEntries] at he
  split at he
  · cases hk : f.kind with
    | fMethod n =>
        simp only [hk, List.mem_singleton] at he
        subst he
        exact ⟨named_methodEntry C f.name _ [] (by simp) n, rfl⟩
    | fVar =>
        simp only [hk] at he
        exact named_variableEntries C f.name e he
  · simp at he

/-- Inherited fields have names of their own, and none is the constructor. -/
theorem inheritedFields_names (C : LocalClass) :
    C.inheritedFields.Pairwise (fun a b => a.name.text ≠ b.name.text) ∧
      ∀ f ∈ C.inheritedFields, f.name.text ≠ "new" := by
  rw [LocalClass.inheritedFields]
  cases C.supers with
  | nil => simp
  | cons S ancestors =>
      simp only [ClassDecl.typedFields]
      constructor
      · rw [List.pairwise_map]
        have h := S.nodup
        rw [List.Nodup, List.pairwise_map] at h
        exact h.filter _
      · intro f hf
        obtain ⟨g, hg, rfl⟩ := List.mem_map.mp hf
        have := (List.mem_filter.mp hg).2
        simp only [Bool.and_eq_true, decide_eq_true_eq] at this
        exact this.2

/-- The two accessors of a variable have different signatures. -/
theorem variableEntries_pairwise (C : ClassDecl) (x : Ident) :
    (variableEntries C x.text).Pairwise fun a b => a.sig ≠ b.sig := by
  simp only [variableEntries, List.pairwise_cons, List.mem_singleton, List.Pairwise.nil,
    and_true, forall_eq, List.not_mem_nil, false_implies, implies_true]
  intro h
  have hkey := congrArg keyOf h
  rw [(keyOf_setter C x).2, (keyOf_getter C x).2] at hkey
  exact absurd (List.append_cancel_left hkey) (by decide)

theorem ownEntries_pairwise (C : ClassDecl) (f : Field) :
    (ownEntries C f).Pairwise fun a b => a.sig ≠ b.sig ∧ (a.published = true ∨ b.published) := by
  rw [ownEntries]
  cases f.kind with
  | fProp => simp
  | fVar =>
      simp only
      split
      · refine (variableEntries_pairwise C f.name).imp_of_mem fun ha _ h => ⟨h, Or.inl ?_⟩
        simp [Entry.published, (named_variableEntries C f.name _ ha).2]
      · simp
  | fFun n =>
      simp only
      split
      · simp
      · split <;> simp

theorem inheritedEntries_pairwise (C : ClassDecl) (f : ClassField) :
    (inheritedEntries C f).Pairwise fun a b => a.sig ≠ b.sig := by
  rw [inheritedEntries]
  split
  · cases f.kind with
    | fMethod n => simp
    | fVar => exact variableEntries_pairwise C f.name
  · simp

/-- Entries of members with different names have different signatures. -/
theorem sig_ne_of_name_ne {x y : Ident} {a b : SigEntry} (ha : Named x a) (hb : Named y b)
    (h : x.text ≠ y.text) : a.sig ≠ b.sig := fun hsig =>
  h (by rw [← ha.name, ← hb.name, hsig])

/-- **The entries of a class are coherent**: a signature stands for one member, and comes
again only where a superclass declares it once more. -/
theorem coherent_entries (C : LocalClass) : Coherent C.entries := by
  have hpublished : ∀ f ∈ C.inheritedFields, ∀ e ∈ inheritedEntries C.toClassDecl f,
      e.published = true := fun f _ e he => by
    simp [Entry.published, (named_inheritedEntries C.toClassDecl f e he).2]
  obtain ⟨hnames, hnew⟩ := inheritedFields_names C
  have hown := C.nodup
  rw [List.Nodup, List.pairwise_map] at hown
  refine ⟨?_, ?_, ?_⟩
  · have hkey : ∀ e ∈ C.entries, keyOf e.sig = e.key := by
      intro e he
      rcases List.mem_append.mp he with he | he
      · obtain ⟨f, -, he⟩ := List.mem_flatMap.mp he
        exact (named_ownEntries _ f e he).1.key
      · obtain ⟨f, -, he⟩ := List.mem_flatMap.mp he
        exact (named_inheritedEntries _ f e he).1.key
    intro a ha b hb h
    rw [← hkey a ha, ← hkey b hb, h]
  · rw [LocalClass.entries, List.pairwise_append, List.pairwise_flatMap, List.pairwise_flatMap]
    refine ⟨⟨fun f _ => ?_, ?_⟩, ⟨fun f _ => ?_, ?_⟩, ?_⟩
    · exact (ownEntries_pairwise _ f).imp fun h hsig => absurd hsig h.1
    · refine hown.imp fun h a ha b hb hsig => absurd hsig ?_
      exact sig_ne_of_name_ne (named_ownEntries _ _ a ha).1 (named_ownEntries _ _ b hb).1 h
    · exact (inheritedEntries_pairwise _ f).imp fun h hsig => absurd hsig h
    · refine hnames.imp fun h a ha b hb hsig => absurd hsig ?_
      exact sig_ne_of_name_ne (named_inheritedEntries _ _ a ha).1
        (named_inheritedEntries _ _ b hb).1 h
    · intro a ha b hb hsig
      obtain ⟨f, -, ha⟩ := List.mem_flatMap.mp ha
      obtain ⟨g, hg, hb⟩ := List.mem_flatMap.mp hb
      obtain ⟨hbn, hbm⟩ := named_inheritedEntries _ g b hb
      obtain ⟨han, hares⟩ := named_ownEntries _ f a ha
      refine ⟨?_, hbm⟩
      by_contra hpub
      have hfnew := hares (by simpa using hpub)
      exact sig_ne_of_name_ne han hbn (by rw [hfnew]; exact (hnew g hg).symm) hsig
  · rw [LocalClass.entries, List.pairwise_append, List.pairwise_flatMap, List.pairwise_flatMap]
    refine ⟨⟨fun f _ => ?_, ?_⟩, ⟨fun f hf => ?_, ?_⟩, ?_⟩
    · exact (ownEntries_pairwise _ f).imp fun h _ => h.2
    · refine hown.imp fun h a ha b hb _ => ?_
      by_contra hpub
      simp only [not_or, Bool.not_eq_true] at hpub
      exact h (((named_ownEntries _ _ a ha).2 hpub.1).trans
        ((named_ownEntries _ _ b hb).2 hpub.2).symm)
    · exact (inheritedEntries_pairwise _ f).imp_of_mem fun ha _ _ _ =>
        Or.inl (hpublished f hf _ ha)
    · exact hnames.imp_of_mem fun hf _ _ a ha _ _ _ => Or.inl (hpublished _ hf a ha)
    · intro a _ b hb _
      obtain ⟨g, hg, hb⟩ := List.mem_flatMap.mp hb
      exact Or.inr (hpublished g hg b hb)

/-! ### The dispatch chain -/

/-- The signatures a class exports: those of its methods and static methods, and two for
every variable, its own and the inherited ones. -/
def LocalClass.exported (C : LocalClass) : List Text :=
  (C.entries.filter Entry.published).map Entry.sig

/-- The function a signature selects: that of the first line comparing it. -/
def CppUnit.select (u : CppUnit) (signature : Text) : Option Text :=
  (u.bindMethod.find? fun line => line.1 = signature).map Prod.snd

/-- The functions defined in the namespace. -/
def CppUnit.defined (u : CppUnit) : List Text :=
  u.functions.map CFunction.name ++ u.allocators.map CFunction.name

/-- The chain of comparisons and the functions behind it are in order. -/
structure BindsExactly (signatures : List Text) (u : CppUnit) (header : CppHeader) : Prop where
  compared : ∀ s ∈ signatures, u.bindMethod.countP (fun line => line.1 = s) = 1
  apart : ∀ s ∈ signatures, ∀ s' ∈ signatures, u.select s = u.select s' → s = s'
  declared : ∀ s ∈ signatures, ∀ f, u.select s = some f → header.decs.count (foreignFunc f) = 1
  defined : ∀ s ∈ signatures, ∀ f, u.select s = some f → u.defined.count f = 1
  selected : ∀ f ∈ u.functions, ∃ s ∈ signatures, u.select s = some f.name

section Unit

variable {cfg : Config} {C : LocalClass} {cpp : CppUnit} {header : CppHeader} {n : Nat}

theorem isIdentChar_of_mem_key {e : SigEntry} (he : e ∈ C.entries) {c : Char} (hc : c ∈ e.key) :
    isIdentChar c = true := by
  have hlower : ∀ x : Ident, ∀ c ∈ toLower x.text, isIdentChar c = true := fun x =>
    isIdentChar_of_mem_toLower fun c hc => x.isIdentChar_of_mem hc
  have hmark : ∀ mark : Text, (∀ c ∈ keyMark mark, isIdentChar c = true) := by
    intro mark
    unfold keyMark
    split
    · exact List.all_eq_true.mp (by decide)
    · exact List.all_eq_true.mp (by decide)
    · simp
  have hnamed : ∃ x : Ident, Named x e := by
    rcases List.mem_append.mp he with he | he
    · obtain ⟨f, -, he⟩ := List.mem_flatMap.mp he
      exact ⟨f.name, (named_ownEntries _ f e he).1⟩
    · obtain ⟨f, -, he⟩ := List.mem_flatMap.mp he
      exact ⟨f.name, (named_inheritedEntries _ f e he).1⟩
  obtain ⟨x, hx⟩ := hnamed
  rw [← hx.key, keyOf, hx.name] at hc
  rcases List.mem_append.mp hc with hc | hc
  · exact hlower x c hc
  · exact hmark _ c hc

/-- The function of an entry is read back from its declaration. -/
theorem funcSig_entry {e : SigEntry} (he : e ∈ C.entries) :
    funcSig (foreignFunc (funcBase cfg C.toClassDecl ++ e.key))
      = funcBase cfg C.toClassDecl ++ e.key := by
  refine funcSig_foreignFunc fun c hc => ?_
  rcases List.mem_append.mp hc with hc | hc
  · exact isIdentChar_of_mem_funcBase cfg _ c hc
  · exact isIdentChar_of_mem_key he hc

/-- Over the declarations of entries, what is computed from the name is computed from the
key. -/
theorem map_foreignFunc {β : Type} (f : Text → β) {ks : List Text}
    (hks : ∀ k ∈ ks, ∃ e ∈ C.entries, e.key = k) :
    ((ks.map fun k => foreignFunc (funcBase cfg C.toClassDecl ++ k)).map fun func =>
        f (funcSig func))
      = ks.map fun k => f (funcBase cfg C.toClassDecl ++ k) := by
  induction ks with
  | nil => rfl
  | cons k ks ih =>
      have hname : funcSig (foreignFunc (funcBase cfg C.toClassDecl ++ k))
          = funcBase cfg C.toClassDecl ++ k := by
        obtain ⟨e, he, rfl⟩ := hks k (by simp)
        exact funcSig_entry he
      rw [List.map_cons, List.map_cons, List.map_cons, hname,
        ih fun k' hk' => hks k' (by simp [hk'])]

theorem entry_of_decl (C : LocalClass) : ∀ k ∈ (run C.entries).decls, ∃ e ∈ C.entries, e.key = k := by
  intro k hk
  obtain ⟨e, he, -, hek⟩ := mem_decls.mp hk
  exact ⟨e, he, hek⟩

theorem entry_of_reserved (C : LocalClass) :
    ∀ k ∈ (run C.entries).reserved, ∃ e ∈ C.entries, e.key = k := by
  intro k hk
  obtain ⟨e, he, -, hek⟩ := mem_reserved.mp hk
  exact ⟨e, he, hek⟩

/-- The unit of a class is the table of its registry. -/
theorem genUnit_registry
    (h : genUnit cfg.order C.moduleName C.name.text (registration cfg C Tables.empty)
      = .ok (cpp, header, n)) :
    header.decs = (run C.entries).decls.map
        (fun k => foreignFunc (funcBase cfg C.toClassDecl ++ k)) ∧
      cpp.defined = ((run C.entries).decls ++ (run C.entries).reserved).map
        (funcBase cfg C.toClassDecl ++ ·) ∧
      cpp.functions.map CFunction.name = (run C.entries).decls.map
        (funcBase cfg C.toClassDecl ++ ·) ∧
      cpp.bindMethod = (run C.entries).lines.map
        fun l => (interpolate l.1, funcBase cfg C.toClassDecl ++ l.2) := by
  obtain ⟨-, -, hdecs, hfunctions, hallocators, hbind⟩ := genUnit_ok h
  obtain ⟨hfuncs, hctors, hsigs⟩ := registration_represents cfg C
  rw [hfuncs] at hdecs hfunctions hbind
  rw [hctors] at hallocators
  have hfunctions := hfunctions.trans (map_foreignFunc (fun name => name) (entry_of_decl C))
  have hallocators := hallocators.trans (map_foreignFunc (fun name => name) (entry_of_reserved C))
  have hbind := hbind.trans (map_foreignFunc (fun name => (interpolate
    ((registration cfg C Tables.empty).bindSignatureMap.lookup name), name)) (entry_of_decl C))
  refine ⟨hdecs, ?_, hfunctions, ?_⟩
  · rw [CppUnit.defined, hfunctions, hallocators]
    exact List.map_append.symm
  · rw [hbind, State.lines, List.map_map]
    refine List.map_congr_left fun k _ => ?_
    rw [hsigs]
    rfl

/-- The signatures printed into the extern block are those of the table, in order. -/
theorem signatures_registry (cfg : Config) (C : LocalClass) {signatures : List Text}
    (h : (registration cfg C Tables.empty).foreignFuncsDec.map (fun func =>
      (registration cfg C Tables.empty).bindSignatureMap.lookup (funcSig func))
        = signatures.map some) :
    signatures.map some = (run C.entries).decls.map (run C.entries).sigs := by
  obtain ⟨hfuncs, -, hsigs⟩ := registration_represents cfg C
  rw [hfuncs] at h
  have h := (map_foreignFunc (fun name =>
    (registration cfg C Tables.empty).bindSignatureMap.lookup name) (entry_of_decl C)).symm.trans h
  rw [← h]
  exact List.map_congr_left fun k _ => hsigs k

/-- A signature with a line of its own selects the function of its member. -/
theorem select_entry
    (h : genUnit cfg.order C.moduleName C.name.text (registration cfg C Tables.empty)
      = .ok (cpp, header, n)) {e : SigEntry} (he : e ∈ C.entries) (hpub : e.published = true)
    (hsig : (run C.entries).sigs e.key = some e.sig) :
    cpp.select e.sig = some (funcBase cfg C.toClassDecl ++ e.key) := by
  obtain ⟨-, -, -, hbind⟩ := genUnit_registry h
  have hline : (interpolate (some e.sig), funcBase cfg C.toClassDecl ++ e.key) ∈ cpp.bindMethod := by
    rw [hbind]
    refine List.mem_map.mpr ⟨(some e.sig, e.key), ?_, rfl⟩
    exact List.mem_map.mpr ⟨e.key, mem_decls.mpr ⟨e, he, hpub, rfl⟩, by rw [hsig]⟩
  obtain ⟨line, hfind⟩ : ∃ line, cpp.bindMethod.find? (fun line => line.1 = e.sig) = some line :=
    Option.isSome_iff_exists.mp (List.find?_isSome.mpr ⟨_, hline, by simp [interpolate]⟩)
  have hmem := List.mem_of_find?_eq_some hfind
  have hfst : line.1 = e.sig := by simpa using List.find?_some hfind
  rw [hbind] at hmem
  obtain ⟨l, hl, rfl⟩ := List.mem_map.mp hmem
  obtain ⟨k, hk, rfl⟩ := List.mem_map.mp hl
  obtain ⟨a, ha, -, rfl⟩ := mem_decls.mp hk
  obtain ⟨g, hg⟩ := sigs_of_mem ha
  rw [hg] at hfst
  have hkey := key_of_line (coherent_entries C) he (hg.trans (congrArg some hfst))
  rw [CppUnit.select, hfind, Option.map_some, hkey]

/-- The lines of a signature are those of the table. -/
theorem countP_bindMethod
    (h : genUnit cfg.order C.moduleName C.name.text (registration cfg C Tables.empty)
      = .ok (cpp, header, n)) (sig : Text) :
    cpp.bindMethod.countP (fun line => line.1 = sig)
      = (run C.entries).lines.countP (fun l => l.1 = some sig) := by
  obtain ⟨-, -, -, hbind⟩ := genUnit_registry h
  rw [hbind, List.countP_map]
  refine List.countP_congr fun l hl => ?_
  obtain ⟨k, hk, rfl⟩ := List.mem_map.mp hl
  obtain ⟨a, ha, -, rfl⟩ := mem_decls.mp hk
  obtain ⟨g, hg⟩ := sigs_of_mem ha
  simp [hg, interpolate]

/-- **The unit of a class binds its exports exactly if and only if its members have
distinct keys.** -/
theorem bindsExactly_iff
    (h : genUnit cfg.order C.moduleName C.name.text (registration cfg C Tables.empty)
      = .ok (cpp, header, n)) :
    BindsExactly C.exported cpp header ↔ (C.entries.map Entry.key).Nodup := by
  have hc := coherent_entries C
  obtain ⟨hdecs, hdefined, hnames, -⟩ := genUnit_registry h
  have hexp : ∀ s, s ∈ C.exported ↔ ∃ e ∈ C.entries, e.published = true ∧ e.sig = s := by
    intro s
    simp [LocalClass.exported, and_assoc]
  have hinj : Function.Injective (funcBase cfg C.toClassDecl ++ ·) := fun _ _ =>
    List.append_cancel_left
  constructor
  · intro hb
    rw [← exact_iff_nodup hc]
    intro e he hpub
    have hcount : (run C.entries).lines.countP (fun l => l.1 = some e.sig) = 1 := by
      rw [← countP_bindMethod h]
      exact hb.compared _ ((hexp _).mpr ⟨e, he, hpub, rfl⟩)
    refine ⟨hcount, fun hres => ?_⟩
    have hsel := select_entry h he hpub (sigs_of_line hc he hcount)
    have hone := hb.defined _ ((hexp _).mpr ⟨e, he, hpub, rfl⟩) _ hsel
    -- the method and the allocator of the reserved key have the same name
    rw [hdefined, List.count_map_of_injective _ _ hinj, List.count_append] at hone
    have h1 : 1 ≤ (run C.entries).decls.count e.key :=
      List.count_pos_iff.mpr (mem_decls.mpr ⟨e, he, hpub, rfl⟩)
    have h2 : 1 ≤ (run C.entries).reserved.count e.key := List.count_pos_iff.mpr hres
    omega
  · intro hnd
    obtain ⟨-, -, hsigs⟩ := run_of_nodup hnd
    have hexact := (exact_iff_nodup hc).mpr hnd
    have hselect : ∀ e ∈ C.entries, e.published = true →
        cpp.select e.sig = some (funcBase cfg C.toClassDecl ++ e.key) := fun e he hpub =>
      select_entry h he hpub (hsigs e he)
    have hcount : ∀ e ∈ C.entries, e.published = true →
        (run C.entries).decls.count e.key = 1 := fun e he hpub =>
      List.count_eq_one_of_mem (nodup_decls hnd) (mem_decls.mpr ⟨e, he, hpub, rfl⟩)
    refine ⟨?_, ?_, ?_, ?_, ?_⟩
    · intro s hs
      obtain ⟨e, he, hpub, rfl⟩ := (hexp s).mp hs
      rw [countP_bindMethod h]
      exact (hexact e he hpub).1
    · intro s hs s' hs' hsel
      obtain ⟨e, he, hpub, rfl⟩ := (hexp s).mp hs
      obtain ⟨e', he', hpub', rfl⟩ := (hexp s').mp hs'
      rw [hselect e he hpub, hselect e' he' hpub', Option.some.injEq] at hsel
      rw [List.inj_on_of_nodup_map hnd he he' (hinj hsel)]
    · intro s hs f hf
      obtain ⟨e, he, hpub, rfl⟩ := (hexp s).mp hs
      rw [hselect e he hpub, Option.some.injEq] at hf
      subst hf
      have hfinj : Function.Injective fun k => foreignFunc (funcBase cfg C.toClassDecl ++ k) :=
        foreignFunc_injective.comp hinj
      rw [hdecs]
      exact (List.count_map_of_injective _ _ hfinj e.key).trans (hcount e he hpub)
    · intro s hs f hf
      obtain ⟨e, he, hpub, rfl⟩ := (hexp s).mp hs
      rw [hselect e he hpub, Option.some.injEq] at hf
      subst hf
      rw [hdefined, List.count_map_of_injective _ _ hinj, List.count_append,
        hcount e he hpub, List.count_eq_zero_of_not_mem (hexact e he hpub).2]
    · intro f hf
      have hmem : f.name ∈ (run C.entries).decls.map (funcBase cfg C.toClassDecl ++ ·) := by
        rw [← hnames]
        exact List.mem_map_of_mem hf
      obtain ⟨k, hk, hkf⟩ := List.mem_map.mp hmem
      obtain ⟨e, he, hpub, rfl⟩ := mem_decls.mp hk
      exact ⟨e.sig, (hexp _).mpr ⟨e, he, hpub, rfl⟩, (hselect e he hpub).trans (congrArg some hkf)⟩

end Unit

/--
**Exact binding, of every class the generator gets through.**  The unit of the class
binds its exported signatures exactly if and only if the keys of its members are
pairwise distinct: their lower-cased names, with a mark for an accessor, the
constructor and every inherited member counted in.
-/
theorem bind_bindsExactly_iff {fuel : Nat} {cfg : Config} {g g' : Gen} {C : LocalClass}
    (h : bind fuel cfg g C = .ok g') :
    ∃ u, g'.units = g.units ++ [u] ∧
      (BindsExactly C.exported u.cpp u.header ↔ (C.entries.map Entry.key).Nodup) := by
  obtain ⟨u, n, hunits, hunit, -⟩ := bind_unit h
  exact ⟨u, hunits, bindsExactly_iff hunit⟩

theorem bind_bindsExactly_iff_myClass :
    ∃ g u, bind 1 Sample.config (Gen.start Sample.noFiles) Sample.myClass = .ok g ∧
      g.units = [u] ∧ (BindsExactly Sample.myClass.exported u.cpp u.header ↔
        (Sample.myClass.entries.map Entry.key).Nodup) := by
  have hrun : Run.holds (fun _ => true)
      (bind 1 Sample.config (Gen.start Sample.noFiles) Sample.myClass) := by decide +kernel
  obtain ⟨g, h, -⟩ := Run.exists_of_holds hrun
  obtain ⟨u, hu, hiff⟩ := bind_bindsExactly_iff h
  exact ⟨g, u, h, hu, hiff⟩

/-- Two methods told apart by case only. -/
def Sample.counter : LocalClass :=
  topClass [segment "test"] (typeName "Counter")
    [newMethod, method addName 1, method (ident "Add") 1]

/-- Their functions have one name, so `add` is compared nowhere. -/
theorem counter_not_bindsExactly :
    ∃ g u, bind 1 Sample.config (Gen.start Sample.noFiles) Sample.counter = .ok g ∧
      g.units = [u] ∧ ¬ BindsExactly Sample.counter.exported u.cpp u.header := by
  have hrun : Run.holds (fun _ => true)
      (bind 1 Sample.config (Gen.start Sample.noFiles) Sample.counter) := by decide +kernel
  obtain ⟨g, h, -⟩ := Run.exists_of_holds hrun
  obtain ⟨u, n, hunits, hunit, -⟩ := bind_unit h
  refine ⟨g, u, h, hunits, ?_⟩
  rw [bindsExactly_iff hunit]
  decide

end Wrenegade
