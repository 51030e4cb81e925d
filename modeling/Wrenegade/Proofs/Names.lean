/-
The names and paths the generator derives, in closed form.

Every one of them starts from a dotted module name or from a path under the
bindings directory and is produced by a few global replacements.  Here each is
computed once: `bindCPath` is `cpath` followed by the segments of the module, the
C name of a member is a common beginning followed by the lower-cased member name,
and so on.  The rest of the development cites these equations and never looks
into the replacements again.
-/
import Wrenegade.Model.Bind

namespace Wrenegade

open Text HaxePath

/-! ### Lower-case and upper-case names -/

/-- A type name never is the beginning of a package segment. -/
theorem not_prefix_of_upper {c p : Text} (hne : c ≠ []) (hc : isLowerIdent c = false)
    (hp : isLowerIdent p = true) : ¬ c <+: p := by
  intro hpre
  induction c generalizing p with
  | nil => exact hne rfl
  | cons x xs ih =>
      cases p with
      | nil => simp at hpre
      | cons y ys =>
          obtain ⟨rfl, htail⟩ := List.cons_prefix_cons.mp hpre
          by_cases hx : x = '_'
          · simp only [isLowerIdent, hx, if_true, Bool.or_eq_false_iff, List.isEmpty_eq_false_iff,
              Bool.or_eq_true, List.isEmpty_iff] at hc hp
            rcases hp with rfl | hp
            · exact hc.1 (List.prefix_nil.mp htail)
            · exact ih hc.1 hc.2 hp htail
          · simp only [isLowerIdent, hx, if_false] at hc hp
            rw [hc] at hp
            exact Bool.noConfusion hp

namespace ClassDecl

variable (C : ClassDecl)

theorem noDot_packTexts {p : Text} (hp : p ∈ C.packTexts) {c : Char}
    (hc : isIdentChar c = false) : c ∉ p := by
  obtain ⟨q, -, rfl⟩ := List.mem_map.mp hp
  exact q.not_mem hc

theorem lower_packTexts {p : Text} (hp : p ∈ C.packTexts) : isLowerIdent p = true := by
  obtain ⟨q, -, rfl⟩ := List.mem_map.mp hp
  exact q.lower

theorem plain_packTexts {p : Text} (hp : p ∈ C.packTexts) : PlainName p := by
  obtain ⟨q, -, rfl⟩ := List.mem_map.mp hp
  exact q.plainName

/-- No separator stands in a segment of the path of a type. -/
theorem noSeparator (x : TypeIdent) {c : Char} (hc : isIdentChar c = false)
    {p : Text} (hp : p ∈ C.packTexts ++ [x.text]) : c ∉ p := by
  rcases List.mem_append.mp hp with h | h
  · exact C.noDot_packTexts h hc
  · rw [List.mem_singleton.mp h]
    exact x.not_mem hc

theorem not_mem_join (x : TypeIdent) {c : Char} (hc : isIdentChar c = false)
    {sep : Text} (hsep : c ∉ sep) : c ∉ join (C.packTexts ++ [x.text]) sep := by
  intro h
  rcases mem_join h with h | ⟨p, hp, h⟩
  · exact hsep h
  · exact C.noSeparator x hc hp h

/-! ### The dotted name -/

theorem split_moduleName : split C.moduleName "." = C.packTexts ++ [C.name.text] :=
  split_join (by simp) fun _ hp => C.noSeparator C.name (by decide) hp

/-- The dots of the module name replaced by another separator. -/
theorem replace_moduleName (sep : Text) :
    replace C.moduleName "." sep = join (C.packTexts ++ [C.name.text]) sep :=
  replace_join (fun _ hp => C.noSeparator C.name (by decide) hp) sep

/-- `flatName` joins package and class with underscores. -/
theorem flatName_moduleName :
    flatName C.moduleName = join (C.packTexts ++ [C.name.text]) "_" := by
  rw [flatName, replace_moduleName]
  exact replace_of_not_mem (x := ' ') (by decide)
    (C.not_mem_join C.name (by decide) (by decide)) _

/-- The module path as a file path. -/
def filePath : Text := join (C.packTexts ++ [C.moduleFile.text]) "/"

theorem filePath_eq : join (split C.localModule ".") "/" = C.filePath := by
  rw [localModule]
  exact congrArg (join · "/")
    (split_join (by simp) fun _ hp => C.noSeparator C.moduleFile (by decide) hp)

theorem isIdentChar_of_mem_filePath {c : Char} (h : c ∈ C.filePath) :
    isIdentChar c = true ∨ c = '/' := by
  rcases mem_join h with h | ⟨p, hp, h⟩
  · exact Or.inr (by simpa using h)
  · refine Or.inl ?_
    by_contra hc
    exact C.noSeparator C.moduleFile (by simpa using hc) hp h

end ClassDecl

/-! ### Paths and prefixes of a class -/

section Class

variable (cfg : Config) (C : ClassDecl)

@[simp] theorem className_eq : className C = C.name.text := by
  rw [className, C.split_moduleName]
  simp

/-- **The path of a class is `cpath` and the path of its module**, for every
configured directory. -/
theorem bindCPath_eq : bindCPath cfg C = cpath cfg ++ C.filePath := by
  have hplain : ∀ p ∈ C.packTexts ++ [C.moduleFile.text], PlainName p := by
    intro p hp
    rcases List.mem_append.mp hp with h | h
    · exact C.plain_packTexts h
    · rw [List.mem_singleton.mp h]
      exact C.moduleFile.plainName
  have hc : PlainName "c" := by constructor <;> decide
  rw [bindCPath, C.filePath_eq, cpath]
  exact join_append cfg.bindingsDir hc hplain (by simp)

theorem cpath_ne_nil : cpath cfg ≠ [] := by simp [cpath]

theorem bindPart_eq : bindPart cfg C = replace C.filePath (cpath cfg) [] := by
  rw [bindPart, bindCPath_eq, replace_append_self (cpath_ne_nil cfg)]
  rfl

theorem modulePath_eq : modulePath cfg C = "c/" ++ replace C.filePath (cpath cfg) "c/" := by
  rw [modulePath, bindCPath_eq, replace_append_self (cpath_ne_nil cfg)]

/-! ### C names -/

/-- What the C names of all members of a class begin with. -/
def funcBase : Text := toLower (join (split (bindPart cfg C) "/") "_" ++ "_")

theorem funcName_eq (name : Text) : funcName cfg C name = funcBase cfg C ++ toLower name := by
  simp [funcName, funcBase, toLower]

theorem funcName_inj {a b : Text} : funcName cfg C a = funcName cfg C b ↔ toLower a = toLower b := by
  rw [funcName_eq, funcName_eq]
  exact List.append_right_inj _

private theorem isIdentChar_toLower {c : Char} (h : isIdentChar c = true) :
    isIdentChar c.toLower = true := by
  by_cases hu : c.isUpper = true
  · have hl : c.toLower.isLower = true := by
      simp only [Char.isUpper, ge_iff_le, decide_eq_true_eq, UInt32.le_iff_toNat_le] at hu
      have h1 : 65 ≤ c.toNat := hu.1
      have h2 : c.toNat ≤ 90 := hu.2
      have key : ∀ n : Nat, 65 ≤ n → n ≤ 90 → (Char.ofNat n).toLower.isLower = true := by
        intro n h1 h2
        interval_cases n <;> decide
      have := key c.toNat h1 h2
      rwa [Char.ofNat_toNat] at this
    simp [isIdentChar, Char.isAlphanum, Char.isAlpha, hl]
  · rw [Char.toLower_eq_of_not_isUpper (by simpa using hu)]
    exact h

theorem isIdentChar_of_mem_toLower {s : Text} (hs : ∀ c ∈ s, isIdentChar c = true) :
    ∀ c ∈ toLower s, isIdentChar c = true := by
  intro c hc
  obtain ⟨d, hd, rfl⟩ := List.mem_map.mp hc
  exact isIdentChar_toLower (hs d hd)

theorem mem_bindPart {c : Char} (h : c ∈ bindPart cfg C) : isIdentChar c = true ∨ c = '/' := by
  rw [bindPart_eq] at h
  rcases mem_replace (cpath_ne_nil cfg) h with h | h
  · exact C.isIdentChar_of_mem_filePath h
  · cases h

theorem isIdentChar_of_mem_funcBase : ∀ c ∈ funcBase cfg C, isIdentChar c = true := by
  refine isIdentChar_of_mem_toLower ?_
  intro c hc
  rcases List.mem_append.mp hc with h | h
  · have hmap : join (split (bindPart cfg C) "/") "_"
        = (bindPart cfg C).map fun c => if c = '/' then '_' else c :=
      replace_char_char (bindPart cfg C) '/' '_'
    rw [hmap] at h
    obtain ⟨d, hd, rfl⟩ := List.mem_map.mp h
    rcases mem_bindPart cfg C hd with hd | rfl
    · by_cases hs : d = '/'
      · simp only [hs, if_true]; decide
      · simpa only [hs, if_false] using hd
    · simp only [if_true]; decide
  · rw [List.mem_singleton.mp h]
    decide

private theorem unwrap {pre t name : Text} {x y : Char} (hpre : pre ≠ []) (hx : x ∈ pre)
    (hxn : x ∉ name) (hyp : y ∉ pre) (hyn : y ∉ name) (ht : replace t pre [] = t) :
    replace (replace (pre ++ name ++ y :: t) pre []) (y :: t) [] = name := by
  have h1 : replace (pre ++ name ++ y :: t) pre [] = name ++ y :: t := by
    rw [List.append_assoc, replace_append_self hpre, replace_append_cons hpre hyp,
      replace_of_not_mem hx hxn, ht]
    rfl
  have h2 : replace (y :: t ++ []) (y :: t) [] = [] := by
    rw [replace_append_self (by simp), replace_nil (by simp)]
    rfl
  rw [h1, replace_skip hyn]
  rw [List.append_nil] at h2
  rw [h2, List.append_nil]

/-- The name of a function is read back from its declaration. -/
theorem funcSig_foreignFunc {name : Text} (h : ∀ c ∈ name, isIdentChar c = true) :
    funcSig (foreignFunc name) = name := by
  have hspace : ' ' ∉ name := fun hm => Bool.noConfusion (h ' ' hm)
  have hparen : '(' ∉ name := fun hm => Bool.noConfusion (h '(' hm)
  have ht : replace "WrenVM *vm);" "static void " [] = "WrenVM *vm);" := by decide +kernel
  have hlit : ("(WrenVM *vm);" : Text) = '(' :: "WrenVM *vm);" := by decide
  show replace (replace ("static void " ++ name ++ "(WrenVM *vm);") "static void " [])
    "(WrenVM *vm);" [] = name
  rw [hlit]
  exact unwrap (by decide) (by decide) hspace (by decide) hparen ht

theorem foreignFunc_injective : Function.Injective foreignFunc := fun _ _ h =>
  List.append_cancel_left (List.append_cancel_right h)

/-! ### Arguments -/

omit cfg C in
theorem not_mem_ofNat {c : Char} (hc : isIdentChar c = false) (k : Nat) : c ∉ ofNat k := by
  intro h
  have hdigit : c.isDigit = true := Nat.isDigit_of_mem_toDigits (b := 10) (by decide) (by decide) h
  simp [isIdentChar, Char.isAlphanum, hdigit] at hc

omit cfg C in
/-- The loop over the arguments puts the separator behind all but the last. -/
theorem argLoop_succ (item : Nat → Text) (sep : Text) (n : Nat) :
    argLoop item sep (n + 1) = ((List.range n).flatMap fun i => item i ++ sep) ++ item n := by
  rw [argLoop, List.range_succ, List.flatMap_append]
  congr 1
  · rw [List.flatMap_def, List.flatMap_def]
    refine congrArg List.flatten (List.map_congr_left fun i hi => ?_)
    have hlt : i < n := List.mem_range.mp hi
    rw [if_pos (by omega)]
  · simp

/-! ### The module behind the class name -/

/-- Taking `.Class` off the dotted name leaves the package; a class of the root package
keeps its name. -/
theorem superModule_eq :
    superModule C = if C.pack = [] then C.name.text else join C.packTexts "." := by
  rw [superModule, className_eq, ClassDecl.moduleName]
  by_cases hp : C.pack = []
  · have hpt : C.packTexts = [] := by simp [ClassDecl.packTexts, hp]
    rw [if_pos hp, hpt, List.nil_append, join_singleton]
    exact replace_of_not_mem (x := '.') (by simp) (C.name.not_mem (by decide)) _
  · rw [if_neg hp]
    refine replace_join_last ((C.packTexts_ne_nil_iff).mpr hp)
      (fun p hp => C.noDot_packTexts hp (by decide)) fun p hp s hpre => ?_
    -- a package segment is lower-case, so the class name does not start there
    have hpre := (prefix_append_cons_iff (C.name.not_mem (by decide)) p s).mp hpre
    exact not_prefix_of_upper C.name.ne_nil C.name.upper (C.lower_packTexts hp) hpre

/-- The module text of the extern file of a class. -/
theorem externModule_eq :
    externModule C.moduleName (className C)
      = if C.pack = [] then C.name.text else join C.packTexts "_" := by
  have hspace : ∀ x ∈ C.packTexts, ' ' ∉ x := fun x hx => C.noDot_packTexts hx (by decide)
  have h := superModule_eq C
  rw [superModule] at h
  rw [externModule, h]
  split
  · rw [replace_of_not_mem (x := '.') (by decide) (C.name.not_mem (by decide)),
      replace_of_not_mem (x := ' ') (by decide) (C.name.not_mem (by decide))]
  · have hjoin : replace (join C.packTexts ".") "." "_" = join C.packTexts "_" :=
      replace_join (fun x hx => C.noDot_packTexts hx (by decide)) _
    rw [hjoin]
    refine replace_of_not_mem (x := ' ') (by decide) (fun hm => ?_) _
    rcases mem_join hm with hm | ⟨p, hp, hm⟩
    · revert hm; decide
    · exact hspace p hp hm

end Class

end Wrenegade
