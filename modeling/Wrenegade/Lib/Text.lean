/-
Texts, and the operations a text-templating program is made of.

A text is a list of characters.  `split` cuts at every occurrence of a delimiter,
left to right and without overlaps, `join` puts a separator back between the
pieces, and `replace` is the one after the other, which is how the standard
library of a string-oriented language usually defines it.

Global replacement is easy to write and hard to reason about: an occurrence may
straddle the seam between two texts nobody meant to be read together.  Everything
here goes through `occurrence_induction`, which walks a text from occurrence to
occurrence; the rest of the file is the small stock of shapes in which one can
say where the occurrences are.
-/
import Mathlib

/-- A text: a list of characters. -/
abbrev Text := List Char

instance : Coe String Text := ⟨String.toList⟩

instance : LawfulBEq Text := inferInstance

namespace Text

/-- Cut at the occurrences of `d`; the counter says how many characters of the
occurrence found last are still to be skipped. -/
def splitFrom (d : Text) : Nat → Text → List Text
  | _, [] => [[]]
  | k + 1, _ :: cs => splitFrom d k cs
  | 0, c :: cs =>
      if d.isPrefixOf (c :: cs) then [] :: splitFrom d (d.length - 1) cs
      else (splitFrom d 0 cs).modifyHead (c :: ·)

/-- The pieces of `s` between the occurrences of `d`.  The empty delimiter cuts
between all characters. -/
def split (s d : Text) : List Text :=
  if d = [] then s.map ([·]) else splitFrom d 0 s

/-- The pieces with `sep` between them. -/
def join (parts : List Text) (sep : Text) : Text := sep.intercalate parts

/-- Every occurrence of `sub` in `s` replaced by `new`. -/
def replace (s sub new : Text) : Text := join (split s sub) new

/-- Lower-case the ASCII letters. -/
def toLower (s : Text) : Text := s.map Char.toLower

/-- Tab to carriage return, and the space. -/
def isSpace (c : Char) : Bool := (8 < c.toNat && c.toNat < 14) || c == ' '

/-- Drop the white space at both ends. -/
def trim (s : Text) : Text :=
  ((s.dropWhile isSpace).reverse.dropWhile isSpace).reverse

/-- The decimal digits of a number. -/
def ofNat (n : Nat) : Text := Nat.toDigits 10 n

/-! ### Splitting, one occurrence at a time -/

private theorem splitFrom_skip (d : Text) :
    ∀ (k : Nat) (s : Text), splitFrom d k s = splitFrom d 0 (s.drop k) := by
  intro k
  induction k with
  | zero => intro s; rfl
  | succ k ih =>
      intro s
      cases s with
      | nil => simp [splitFrom]
      | cons c cs => rw [splitFrom, List.drop_succ_cons]; exact ih cs

theorem split_nil {d : Text} (hd : d ≠ []) : split [] d = [[]] := by
  rw [split, if_neg hd, splitFrom]

/-- An occurrence at the front ends the piece before it. -/
theorem split_append_self {d : Text} (hd : d ≠ []) (s : Text) :
    split (d ++ s) d = [] :: split s d := by
  obtain ⟨x, t, rfl⟩ := List.exists_cons_of_ne_nil hd
  have hpre : (x :: t).isPrefixOf (x :: (t ++ s)) = true := by simp
  simp only [split, if_neg hd, List.cons_append, splitFrom, hpre, if_true]
  rw [splitFrom_skip]
  simp

/-- A character that starts no occurrence belongs to the piece it stands in. -/
theorem split_cons {d : Text} (hd : d ≠ []) {c : Char} {s : Text} (h : ¬ d <+: c :: s) :
    split (c :: s) d = (split s d).modifyHead (c :: ·) := by
  have hpre : d.isPrefixOf (c :: s) = false := by
    simpa [← List.isPrefixOf_iff_prefix] using h
  simp only [split, if_neg hd, splitFrom, hpre]
  simp

/-- **Walk a text from occurrence to occurrence of `sub`.** -/
theorem occurrence_induction {sub : Text} (hsub : sub ≠ []) {P : Text → Prop}
    (nil : P []) (hit : ∀ s, P s → P (sub ++ s))
    (miss : ∀ c s, ¬ sub <+: c :: s → P s → P (c :: s)) : ∀ s, P s := by
  have hlen : 0 < sub.length := List.length_pos_iff.mpr hsub
  intro s
  induction hn : s.length using Nat.strong_induction_on generalizing s with
  | _ n ih =>
      by_cases hpre : sub <+: s
      · obtain ⟨rest, rfl⟩ := hpre
        exact hit rest (ih rest.length (by rw [← hn]; simp; omega) rest rfl)
      · cases s with
        | nil => exact nil
        | cons c cs => exact miss c cs hpre (ih cs.length (by rw [← hn]; simp) cs rfl)

theorem split_ne_nil {d : Text} (hd : d ≠ []) (s : Text) : split s d ≠ [] := by
  refine occurrence_induction hd (P := fun s => split s d ≠ []) ?_ ?_ ?_ s
  · simp [split_nil hd]
  · intro s _; simp [split_append_self hd]
  · intro c s h ih; rw [split_cons hd h]; simpa using ih

/-! ### Joining -/

@[simp] theorem join_nil (sep : Text) : join [] sep = [] := rfl

@[simp] theorem join_singleton (p sep : Text) : join [p] sep = p := by
  simp [join, List.intercalate]

theorem join_cons {p : Text} {ps : List Text} (h : ps ≠ []) (sep : Text) :
    join (p :: ps) sep = p ++ sep ++ join ps sep := by
  obtain ⟨q, qs, rfl⟩ := List.exists_cons_of_ne_nil h
  simp [join, List.intercalate]

theorem join_modifyHead {c : Char} {ps : List Text} (h : ps ≠ []) (sep : Text) :
    join (ps.modifyHead (c :: ·)) sep = c :: join ps sep := by
  obtain ⟨q, qs, rfl⟩ := List.exists_cons_of_ne_nil h
  cases qs with
  | nil => simp
  | cons r rs => simp [join_cons]

theorem join_concat {ps : List Text} (h : ps ≠ []) (p sep : Text) :
    join (ps ++ [p]) sep = join ps sep ++ sep ++ p := by
  induction ps with
  | nil => exact absurd rfl h
  | cons q qs ih =>
      cases qs with
      | nil => simp [join_cons]
      | cons r rs => simp only [List.cons_append] at ih ⊢; simp [join_cons, ih]

theorem mem_join {x : Char} {ps : List Text} {sep : Text} (h : x ∈ join ps sep) :
    x ∈ sep ∨ ∃ p ∈ ps, x ∈ p := by
  induction ps with
  | nil => simp at h
  | cons p ps ih =>
      by_cases hps : ps = []
      · subst hps
        exact Or.inr ⟨p, by simp, by simpa using h⟩
      · rw [join_cons hps, List.append_assoc] at h
        rcases List.mem_append.mp h with hp | hrest
        · exact Or.inr ⟨p, by simp, hp⟩
        · rcases List.mem_append.mp hrest with hs | hj
          · exact Or.inl hs
          · rcases ih hj with hs | ⟨q, hq, hx⟩
            · exact Or.inl hs
            · exact Or.inr ⟨q, by simp [hq], hx⟩

/-! ### Replacing -/

@[simp] theorem replace_nil {sub : Text} (hsub : sub ≠ []) (new : Text) :
    replace [] sub new = [] := by
  simp [replace, split_nil hsub]

/-- An occurrence at the front is replaced. -/
theorem replace_append_self {sub : Text} (hsub : sub ≠ []) (s new : Text) :
    replace (sub ++ s) sub new = new ++ replace s sub new := by
  rw [replace, split_append_self hsub, join_cons (split_ne_nil hsub s)]
  rfl

/-- A character that starts no occurrence stays. -/
theorem replace_cons {sub : Text} (hsub : sub ≠ []) {c : Char} {s : Text}
    (h : ¬ sub <+: c :: s) (new : Text) :
    replace (c :: s) sub new = c :: replace s sub new := by
  rw [replace, split_cons hsub h, join_modifyHead (split_ne_nil hsub s)]
  rfl

/-- A text that never shows the first character of `sub` is passed over. -/
theorem replace_skip {x : Char} {a : Text} (ha : x ∉ a) (t s new : Text) :
    replace (a ++ s) (x :: t) new = a ++ replace s (x :: t) new := by
  induction a with
  | nil => rfl
  | cons c cs ih =>
      have hne : ¬ (x :: t) <+: c :: (cs ++ s) := by
        intro hc
        exact ha (by simp [(List.cons_prefix_cons.mp hc).1])
      rw [List.cons_append, replace_cons (by simp) hne, ih (fun h => ha (by simp [h]))]
      rfl

/-- A text without some character of `sub` holds no occurrence of it. -/
theorem replace_of_not_mem {sub s : Text} {x : Char} (hx : x ∈ sub) (hs : x ∉ s)
    (new : Text) : replace s sub new = s := by
  have hsub : sub ≠ [] := List.ne_nil_of_mem hx
  induction s with
  | nil => exact replace_nil hsub new
  | cons c cs ih =>
      rw [replace_cons hsub (fun hp => hs (hp.subset hx)), ih (fun h => hs (by simp [h]))]

/-- Replacing brings in no character but those of the replacement. -/
theorem mem_replace {sub s new : Text} (hsub : sub ≠ []) {x : Char}
    (h : x ∈ replace s sub new) : x ∈ s ∨ x ∈ new := by
  revert h
  refine occurrence_induction hsub
    (P := fun s => x ∈ replace s sub new → x ∈ s ∨ x ∈ new) ?_ ?_ ?_ s
  · intro h; simp [hsub] at h
  · intro s ih h
    rw [replace_append_self hsub] at h
    rcases List.mem_append.mp h with hn | hr
    · exact Or.inr hn
    · rcases ih hr with hs | hn
      · exact Or.inl (by simp [hs])
      · exact Or.inr hn
  · intro c s hp ih h
    rw [replace_cons hsub hp] at h
    rcases List.mem_cons.mp h with rfl | hr
    · exact Or.inl (by simp)
    · rcases ih hr with hs | hn
      · exact Or.inl (by simp [hs])
      · exact Or.inr hn

/-- Replacing a single character. -/
theorem replace_char (s : Text) (a : Char) (new : Text) :
    replace s [a] new = s.flatMap fun c => if c = a then new else [c] := by
  induction s with
  | nil => simp
  | cons c cs ih =>
      by_cases hc : c = a
      · subst hc
        rw [show c :: cs = [c] ++ cs from rfl, replace_append_self (by simp), ih]
        simp
      · rw [replace_cons (by simp) (by simpa using fun h => hc h.symm), ih]
        simp [hc]

/-- Replacing a single character by another is a map. -/
theorem replace_char_char (s : Text) (a b : Char) :
    replace s [a] [b] = s.map fun c => if c = a then b else c := by
  rw [replace_char, List.flatMap_def]
  induction s with
  | nil => rfl
  | cons c cs ih => by_cases hc : c = a <;> simp [hc, ih]

/-- `t` followed by a marker `x` found nowhere else occurs exactly once. -/
theorem replace_marked {a t b : Text} {x : Char} (ha : x ∉ a) (ht : x ∉ t) (hb : x ∉ b)
    (new : Text) : replace (a ++ (t ++ [x]) ++ b) (t ++ [x]) new = a ++ new ++ b := by
  have hsub : t ++ [x] ≠ [] := by simp
  induction a with
  | nil =>
      rw [List.nil_append, replace_append_self hsub,
        replace_of_not_mem (x := x) (by simp) hb]
      rfl
  | cons c cs ih =>
      have hne : ¬ (t ++ [x]) <+: c :: (cs ++ (t ++ [x]) ++ b) := by
        rintro ⟨r, hr⟩
        -- the marker of the occurrence would stand inside `c :: cs ++ t`
        have hpre : t ++ [x] <+: (c :: cs) ++ t := by
          refine List.prefix_of_prefix_length_le ⟨r, hr⟩ ⟨[x] ++ b, by simp⟩ (by simp)
        have hx : x ∈ (c :: cs) ++ t := hpre.subset (by simp)
        rcases List.mem_append.mp hx with h | h
        · exact ha h
        · exact ht h
      rw [List.cons_append, List.cons_append, replace_cons hsub hne,
        ih (fun h => ha (by simp [h]))]
      rfl

/-! ### Occurrences across a seam -/

/-- An occurrence cannot reach over a character it does not hold. -/
theorem prefix_append_cons_iff {sub : Text} {y : Char} (hy : y ∉ sub) (a b : Text) :
    sub <+: a ++ y :: b ↔ sub <+: a := by
  refine ⟨fun h => ?_, fun h => h.trans (List.prefix_append _ _)⟩
  rcases Nat.lt_or_ge a.length sub.length with hlt | hge
  · exfalso
    have hpre : a ++ [y] <+: sub :=
      List.prefix_of_prefix_length_le ⟨b, by simp⟩ h (by simpa using hlt)
    exact hy (hpre.subset (by simp))
  · exact List.prefix_of_prefix_length_le h (List.prefix_append _ _) hge

/-- The two sides of such a character are replaced on their own. -/
theorem replace_append_cons {sub : Text} (hsub : sub ≠ []) {y : Char} (hy : y ∉ sub)
    (a b new : Text) :
    replace (a ++ y :: b) sub new = replace a sub new ++ y :: replace b sub new := by
  refine occurrence_induction hsub
    (P := fun a => replace (a ++ y :: b) sub new = replace a sub new ++ y :: replace b sub new)
    ?_ ?_ ?_ a
  · have hne : ¬ sub <+: y :: b := by
      have h := prefix_append_cons_iff hy [] b
      rw [List.nil_append, List.prefix_nil] at h
      rw [h]
      exact hsub
    rw [List.nil_append, replace_cons hsub hne, replace_nil hsub]
    rfl
  · intro s ih
    rw [List.append_assoc, replace_append_self hsub, ih, replace_append_self hsub]
    simp
  · intro c s hp ih
    have hne : ¬ sub <+: c :: (s ++ y :: b) := by
      have h := prefix_append_cons_iff hy (c :: s) b
      rw [List.cons_append] at h
      rw [h]
      exact hp
    rw [List.cons_append, replace_cons hsub hne, ih, replace_cons hsub hp]
    rfl

/-- Two characters split by a seam are no occurrence. -/
theorem replace_pair_append {x y : Char} (hxy : x ≠ y) {a : Text} (ha : a.getLast? ≠ some x)
    (b new : Text) :
    replace (a ++ y :: b) [x, y] new = replace a [x, y] new ++ y :: replace b [x, y] new := by
  revert ha
  refine occurrence_induction (show ([x, y] : Text) ≠ [] by simp)
    (P := fun a => a.getLast? ≠ some x →
      replace (a ++ y :: b) [x, y] new = replace a [x, y] new ++ y :: replace b [x, y] new)
    ?_ ?_ ?_ a
  · intro _
    rw [List.nil_append, replace_cons (by simp) (by simp [hxy]), replace_nil (by simp)]
    rfl
  · intro s ih ha
    have hs : s.getLast? ≠ some x := by
      intro h
      apply ha
      rw [List.getLast?_append, h]
      rfl
    rw [List.append_assoc, replace_append_self (by simp), ih hs, replace_append_self (by simp)]
    simp
  · intro c s hp ih ha
    cases s with
    | nil =>
        have hcx : x ≠ c := fun h => ha (by simp [h])
        rw [List.singleton_append, replace_cons (by simp) (by simp [hcx]),
          replace_cons (by simp) (by simp [hxy]), replace_cons (by simp) hp,
          replace_nil (by simp)]
        rfl
    | cons d s =>
        have hs : (d :: s).getLast? ≠ some x := by rwa [List.getLast?_cons_cons] at ha
        have hne : ¬ [x, y] <+: c :: (d :: s ++ y :: b) := by
          simpa using hp
        rw [List.cons_append, replace_cons (by simp) hne, ih hs, replace_cons (by simp) hp]
        rfl

/-- Without an occurrence nothing is replaced. -/
theorem replace_of_not_infix {sub s : Text} (hsub : sub ≠ []) (h : ¬ sub <:+: s) (new : Text) :
    replace s sub new = s := by
  induction s with
  | nil => exact replace_nil hsub new
  | cons c cs ih =>
      rw [replace_cons hsub (fun hp => h hp.isInfix),
        ih (fun hi => h (hi.trans (List.suffix_cons c cs).isInfix))]

/-- Where a pair of characters can occur around its second one. -/
theorem infix_pair {x y : Char} (hxy : x ≠ y) {a b : Text} (ha : y ∉ a)
    (h : [x, y] <:+: a ++ y :: b) : a.getLast? = some x ∨ [x, y] <:+: b := by
  obtain ⟨u, v, huv⟩ := h
  have heq : (u ++ [x]) ++ y :: v = a ++ y :: b := by simpa using huv
  rcases List.append_eq_append_iff.mp heq with ⟨t, hat, hyb⟩ | ⟨t, hux, hyb⟩
  · cases t with
    | nil => exact Or.inl (by simp [hat])
    | cons d t =>
        simp only [List.cons_append, List.cons.injEq] at hyb
        exact absurd (by rw [hat, ← hyb.1]; simp) ha
  · cases t with
    | nil =>
        rw [List.append_nil] at hux
        exact Or.inl (by simp [← hux])
    | cons d t =>
        simp only [List.cons_append, List.cons.injEq] at hyb
        obtain ⟨rfl, rfl⟩ := hyb
        rcases List.eq_nil_or_concat t with rfl | ⟨t', z, rfl⟩
        · have hlast := congrArg List.getLast? hux
          simp only [List.getLast?_append, List.getLast?_singleton, Option.some_or,
            Option.some.injEq] at hlast
          exact absurd hlast hxy
        · have hlast := congrArg List.getLast? hux
          simp only [List.concat_eq_append, List.getLast?_append, List.getLast?_cons,
            Option.some_or, Option.some.injEq] at hlast
          refine Or.inr ⟨t', v, ?_⟩
          simp at hlast ⊢
          exact hlast

/-! ### Occurrences taken out -/

theorem length_replace_le {sub : Text} (hsub : sub ≠ []) (s : Text) :
    (replace s sub []).length ≤ s.length := by
  refine occurrence_induction hsub (P := fun s => (replace s sub []).length ≤ s.length)
    ?_ ?_ ?_ s
  · rw [replace_nil hsub]
  · intro s ih
    rw [replace_append_self hsub, List.nil_append, List.length_append]
    omega
  · intro c s h ih
    rw [replace_cons hsub h, List.length_cons, List.length_cons]
    omega

/-- A text stays as it is only if nothing occurs in it. -/
theorem replace_eq_self_iff {sub : Text} (hsub : sub ≠ []) (s : Text) :
    replace s sub [] = s ↔ ¬ sub <:+: s := by
  refine ⟨fun heq hin => ?_, fun h => replace_of_not_infix hsub h []⟩
  have hlt : (replace s sub []).length < s.length := by
    revert hin
    clear heq
    refine occurrence_induction hsub
      (P := fun s => sub <:+: s → (replace s sub []).length < s.length) ?_ ?_ ?_ s
    · intro hin
      exact absurd (List.infix_nil.mp hin) hsub
    · intro s _ _
      have hle := length_replace_le hsub s
      have hpos := List.length_pos_iff.mpr hsub
      rw [replace_append_self hsub, List.nil_append, List.length_append]
      omega
    · intro c s h ih hin
      have hlt := ih ((List.infix_cons_iff.mp hin).resolve_left h)
      rw [replace_cons hsub h, List.length_cons, List.length_cons]
      omega
  rw [heq] at hlt
  exact absurd hlt (Nat.lt_irrefl _)

/-- An occurrence at the end is replaced, and overlaps with nothing. -/
theorem replace_append_end {x : Char} {t : Text} (ht : x ∉ t) (s new : Text) :
    replace (s ++ x :: t) (x :: t) new = replace s (x :: t) new ++ new := by
  have hsub : x :: t ≠ [] := List.cons_ne_nil x t
  refine occurrence_induction hsub
    (P := fun s => replace (s ++ x :: t) (x :: t) new = replace s (x :: t) new ++ new) ?_ ?_ ?_ s
  · have h := replace_append_self hsub [] new
    rwa [List.append_nil, replace_nil hsub, List.append_nil] at h
  · intro s ih
    rw [List.append_assoc, replace_append_self hsub, replace_append_self hsub, ih,
      List.append_assoc]
  · intro c s h ih
    have hne : ¬ x :: t <+: c :: (s ++ x :: t) := by
      intro hpre
      have hpre' : x :: t <+: (c :: s) ++ x :: t := hpre
      rcases List.prefix_or_prefix_of_prefix hpre' (List.prefix_append (c :: s) (x :: t)) with
        hin | ⟨r, hr⟩
      · exact h hin
      · -- what is left of the delimiter would start with `x` again
        rw [← hr, List.prefix_append_right_inj, hr] at hpre'
        cases r with
        | nil => exact h (by rw [← hr, List.append_nil])
        | cons y r =>
            obtain ⟨rfl, -⟩ := List.cons_prefix_cons.mp hpre'
            have ht' := (List.cons.inj hr).2
            exact ht (by rw [← ht']; simp)
    rw [List.cons_append, replace_cons hsub hne, ih, replace_cons hsub h, List.cons_append]

/-! ### Splitting at a delimiter -/

/-- A text that never shows the first character of the delimiter stays in the first piece. -/
theorem split_skip {x : Char} {a : Text} (ha : x ∉ a) (t s : Text) :
    split (a ++ s) (x :: t) = (split s (x :: t)).modifyHead (a ++ ·) := by
  induction a with
  | nil =>
      obtain ⟨p, ps, h⟩ := List.exists_cons_of_ne_nil (split_ne_nil (List.cons_ne_nil x t) s)
      rw [List.nil_append, h]
      rfl
  | cons c cs ih =>
      have hne : ¬ (x :: t) <+: c :: (cs ++ s) := fun hpre =>
        ha (by simp [(List.cons_prefix_cons.mp hpre).1])
      obtain ⟨p, ps, h⟩ := List.exists_cons_of_ne_nil (split_ne_nil (List.cons_ne_nil x t) s)
      rw [List.cons_append, split_cons (List.cons_ne_nil x t) hne,
        ih fun hc => ha (List.mem_cons_of_mem c hc), h]
      rfl

/-- A text without the first character of the delimiter is one piece. -/
theorem split_without {s : Text} {x : Char} (h : x ∉ s) (t : Text) : split s (x :: t) = [s] := by
  have hskip := split_skip h t []
  rw [List.append_nil, split_nil (List.cons_ne_nil x t)] at hskip
  rw [hskip, List.modifyHead_cons, List.append_nil]

theorem split_of_not_mem {s : Text} {x : Char} (h : x ∉ s) : split s [x] = [s] :=
  split_without h []

/-- The text before the first delimiter is the first piece. -/
theorem split_append_delimiter {a : Text} {x : Char} (h : x ∉ a) (t s : Text) :
    split (a ++ ((x :: t) ++ s)) (x :: t) = a :: split s (x :: t) := by
  rw [split_skip h, split_append_self (List.cons_ne_nil x t), List.modifyHead_cons,
    List.append_nil]

theorem split_append_cons {a : Text} {x : Char} (h : x ∉ a) (s : Text) :
    split (a ++ x :: s) [x] = a :: split s [x] := split_append_delimiter h [] s

/-- Splitting a join gives the parts back. -/
theorem split_join_delimiter {ps : List Text} (hps : ps ≠ []) {x : Char}
    (h : ∀ p ∈ ps, x ∉ p) (t : Text) : split (join ps (x :: t)) (x :: t) = ps := by
  induction ps with
  | nil => exact absurd rfl hps
  | cons p ps ih =>
      by_cases hne : ps = []
      · subst hne
        rw [join_singleton, split_without (h p (by simp))]
      · rw [join_cons hne, List.append_assoc, split_append_delimiter (h p (by simp)),
          ih hne (fun q hq => h q (by simp [hq]))]

theorem split_join {ps : List Text} (hps : ps ≠ []) {x : Char} (h : ∀ p ∈ ps, x ∉ p) :
    split (join ps [x]) [x] = ps := split_join_delimiter hps h []

/-- The rest of a separator can be seen as part of what follows it. -/
theorem join_separator (p : Text) (ps : List Text) (x : Char) (sep : Text) :
    join (p :: ps) (x :: sep) = join (p :: ps.map (sep ++ ·)) [x] := by
  induction ps generalizing p with
  | nil => rfl
  | cons q qs ih =>
      have hhead : ∀ l : List Text, join ((sep ++ q) :: l) [x] = sep ++ join (q :: l) [x] := by
        intro l
        cases l with
        | nil => rw [join_singleton, join_singleton]
        | cons r rs =>
            rw [join_cons (List.cons_ne_nil r rs), join_cons (List.cons_ne_nil r rs),
              List.append_assoc, List.append_assoc, List.append_assoc]
      rw [join_cons (List.cons_ne_nil q qs), ih q, List.map_cons,
        join_cons (List.cons_ne_nil _ _), hhead]
      simp only [List.append_assoc, List.cons_append, List.nil_append]

/-- Replacing the separator of a join by another one. -/
theorem replace_join {ps : List Text} {x : Char} (h : ∀ p ∈ ps, x ∉ p) (new : Text) :
    replace (join ps [x]) [x] new = join ps new := by
  by_cases hps : ps = []
  · subst hps
    simp
  · rw [replace, split_join hps h]

/-- The cut at a delimiter splits the two sides on their own. -/
theorem split_append_delim (a : Text) (x : Char) (s : Text) :
    split (a ++ x :: s) [x] = split a [x] ++ split s [x] := by
  induction a with
  | nil =>
      rw [split_nil (by simp)]
      exact split_append_self (by simp) s
  | cons c cs ih =>
      by_cases hc : c = x
      · subst hc
        have h1 : split (c :: (cs ++ c :: s)) [c] = [] :: split (cs ++ c :: s) [c] :=
          split_append_self (by simp) _
        have h2 : split (c :: cs) [c] = [] :: split cs [c] :=
          split_append_self (by simp) _
        rw [List.cons_append, h1, h2, ih]
        rfl
      · have hne : ∀ t : Text, ¬ [x] <+: c :: t := by simpa using fun h => hc h.symm
        rw [List.cons_append, split_cons (by simp) (hne _), split_cons (by simp) (hne _), ih]
        obtain ⟨q, qs, hq⟩ := List.exists_cons_of_ne_nil (split_ne_nil (d := [x]) (by simp) cs)
        rw [hq]
        rfl

/-- What is appended without the delimiter goes to the last piece. -/
theorem split_append_last {x : Char} {b : Text} (hb : x ∉ b) (a : Text) :
    ∃ ps p, split (a ++ b) [x] = ps ++ [p ++ b] := by
  induction a with
  | nil => exact ⟨[], [], by simpa using split_of_not_mem hb⟩
  | cons c cs ih =>
      obtain ⟨ps, p, h⟩ := ih
      by_cases hc : c = x
      · subst hc
        have hself : split (c :: (cs ++ b)) [c] = [] :: split (cs ++ b) [c] :=
          split_append_self (by simp) _
        exact ⟨[] :: ps, p, by rw [List.cons_append, hself, h]; rfl⟩
      · have hne : ¬ [x] <+: c :: (cs ++ b) := by simpa using fun h => hc h.symm
        rw [List.cons_append, split_cons (by simp) hne, h]
        cases ps with
        | nil => exact ⟨[], c :: p, rfl⟩
        | cons q qs => exact ⟨(c :: q) :: qs, p, rfl⟩

/-- The first occurrence of a character splits a text in one way. -/
theorem append_cons_inj {a b : Text} {x : Char} (ha : x ∉ a) (hb : x ∉ b) {s t : Text}
    (h : a ++ x :: s = b ++ x :: t) : a = b ∧ s = t := by
  induction a generalizing b with
  | nil =>
      cases b with
      | nil => simpa using h
      | cons d b =>
          simp only [List.nil_append, List.cons_append, List.cons.injEq] at h
          exact absurd (by simp [h.1]) hb
  | cons c a ih =>
      cases b with
      | nil =>
          simp only [List.nil_append, List.cons_append, List.cons.injEq] at h
          exact absurd (by simp [h.1]) ha
      | cons d b =>
          simp only [List.cons_append, List.cons.injEq] at h
          obtain ⟨rfl, h⟩ := h
          obtain ⟨rfl, rfl⟩ := ih (fun hc => ha (by simp [hc])) (fun hc => hb (by simp [hc])) h
          exact ⟨rfl, rfl⟩

/-- The last occurrence of a character is a place the two sides can be told from, too. -/
theorem append_cons_inj_last {a b : Text} {x : Char} {s t : Text} (hs : x ∉ s) (ht : x ∉ t)
    (h : a ++ x :: s = b ++ x :: t) : a = b ∧ s = t := by
  have hrev := congrArg List.reverse h
  simp only [List.reverse_append, List.reverse_cons, List.append_assoc, List.singleton_append]
    at hrev
  obtain ⟨hst, hab⟩ := append_cons_inj (by simpa using hs) (by simpa using ht) hrev
  exact ⟨List.reverse_injective hab, List.reverse_injective hst⟩

/-- Joining the pieces of a split gives the text back. -/
theorem join_split {d : Text} (hd : d ≠ []) (s : Text) : join (split s d) d = s := by
  refine occurrence_induction hd (P := fun s => join (split s d) d = s) ?_ ?_ ?_ s
  · simp [split_nil hd]
  · intro s ih
    rw [split_append_self hd, join_cons (split_ne_nil hd s), ih]
    rfl
  · intro c s h ih
    rw [split_cons hd h, join_modifyHead (split_ne_nil hd s), ih]

/-- A piece holds no delimiter, and only characters of the text. -/
theorem mem_piece {x : Char} {s p : Text} (hp : p ∈ split s [x]) :
    x ∉ p ∧ ∀ c ∈ p, c ∈ s := by
  induction s generalizing p with
  | nil =>
      rw [split_nil (by simp), List.mem_singleton] at hp
      subst hp
      simp
  | cons a s ih =>
      by_cases ha : a = x
      · subst ha
        have hself : split (a :: s) [a] = [] :: split s [a] := split_append_self (by simp) _
        rw [hself] at hp
        rcases List.mem_cons.mp hp with rfl | hp
        · simp
        · exact ⟨(ih hp).1, fun c hc => by simp [(ih hp).2 c hc]⟩
      · have hne : ¬ [x] <+: a :: s := by simpa using fun h => ha h.symm
        rw [split_cons (by simp) hne] at hp
        obtain ⟨q, qs, hq⟩ := List.exists_cons_of_ne_nil (split_ne_nil (d := [x]) (by simp) s)
        rw [hq] at hp ih
        rcases List.mem_cons.mp hp with rfl | hp
        · obtain ⟨hx, hmem⟩ := ih (p := q) (by simp)
          refine ⟨by simpa using ⟨fun h => ha h.symm, hx⟩, fun c hc => ?_⟩
          rcases List.mem_cons.mp hc with rfl | hc
          · simp
          · simp [hmem c hc]
        · obtain ⟨hx, hmem⟩ := ih (p := p) (by simp [hp])
          exact ⟨hx, fun c hc => by simp [hmem c hc]⟩

/-! ### Joined parts -/

/-- Between the parts of a join a pair occurs only at the end of a part. -/
theorem not_infix_pair_join {x y : Char} (hxy : x ≠ y) {ps : List Text} {last : Text}
    (h : ∀ p ∈ ps, y ∉ p ∧ p.getLast? ≠ some x) (hlast : y ∉ last) :
    ¬ [x, y] <:+: join (ps ++ [last]) [y] := by
  induction ps with
  | nil =>
      intro hi
      rw [List.nil_append, join_singleton] at hi
      exact hlast (hi.subset (by simp))
  | cons p ps ih =>
      intro hi
      rw [List.cons_append, join_cons (by simp), List.append_assoc] at hi
      rcases infix_pair hxy (h p (by simp)).1 hi with hp | hi
      · exact (h p (by simp)).2 hp
      · exact ih (fun q hq => h q (by simp [hq])) hi

/-- The last part of a join and the separator before it occur only at its end, when no
other part can be taken for the last one. -/
theorem replace_join_last {x : Char} {ps : List Text} (hps : ps ≠ []) {n : Text}
    (hx : ∀ p ∈ ps, x ∉ p) (hn : ∀ p ∈ ps, ∀ s, ¬ n <+: p ++ x :: s) :
    replace (join (ps ++ [n]) [x]) (x :: n) [] = join ps [x] := by
  induction ps with
  | nil => exact absurd rfl hps
  | cons p ps ih =>
      rw [List.cons_append, join_cons (by simp), List.append_assoc]
      show replace (p ++ x :: join (ps ++ [n]) [x]) (x :: n) [] = _
      rw [replace_skip (hx p (by simp))]
      by_cases hne : ps = []
      · subst hne
        have hself : replace (x :: n ++ []) (x :: n) [] = [] := by
          rw [replace_append_self (by simp), replace_nil (by simp)]
          rfl
        rw [List.append_nil] at hself
        rw [List.nil_append, join_singleton, join_singleton, hself, List.append_nil]
      · obtain ⟨q, qs, rfl⟩ := List.exists_cons_of_ne_nil hne
        have hmiss : ¬ (x :: n) <+: x :: join (q :: qs ++ [n]) [x] := by
          intro hpre
          have hpre := (List.cons_prefix_cons.mp hpre).2
          rw [List.cons_append, join_cons (by simp), List.append_assoc] at hpre
          exact hn q (by simp) _ hpre
        rw [replace_cons (by simp) hmiss,
          ih hne (fun r hr => hx r (by simp [hr])) (fun r hr => hn r (by simp [hr])),
          join_cons hne]
        simp

/-! ### The first occurrence -/

/-- The position of the first occurrence of `sub`. -/
def find (s sub : Text) : Option Nat :=
  if sub.isPrefixOf s then some 0
  else
    match s with
    | [] => none
    | _ :: cs => (find cs sub).map (· + 1)

theorem find_front {s sub : Text} (h : sub <+: s) : find s sub = some 0 := by
  unfold find
  rw [if_pos (List.isPrefixOf_iff_prefix.mpr h)]

theorem find_cons {c : Char} {cs sub : Text} (h : ¬ sub <+: c :: cs) :
    find (c :: cs) sub = (find cs sub).map (· + 1) := by
  conv_lhs => unfold find
  rw [if_neg (fun hp => h (List.isPrefixOf_iff_prefix.mp hp))]

theorem find_eq_none_iff {s sub : Text} : find s sub = none ↔ ¬ sub <:+: s := by
  induction s with
  | nil =>
      unfold find
      rw [List.infix_nil]
      cases sub with
      | nil => simp
      | cons c cs => simp
  | cons c cs ih =>
      rw [List.infix_cons_iff, not_or]
      by_cases hp : sub <+: c :: cs
      · rw [find_front hp]
        exact ⟨nofun, fun h => absurd hp h.1⟩
      · rw [find_cons hp, Option.map_eq_none_iff, ih]
        exact ⟨fun h => ⟨hp, h⟩, fun h => h.2⟩

/-- An occurrence stands at the position found. -/
theorem split_at_find {s sub : Text} {pos : Nat} (h : find s sub = some pos) :
    s = s.take pos ++ (sub ++ s.drop (pos + sub.length)) := by
  induction s generalizing pos with
  | nil =>
      unfold find at h
      cases sub with
      | nil => simp
      | cons c cs => simp at h
  | cons c cs ih =>
      by_cases hp : sub <+: c :: cs
      · rw [find_front hp, Option.some.injEq] at h
        obtain ⟨rest, hrest⟩ := hp
        rw [← h, ← hrest, Nat.zero_add, List.drop_left]
        rfl
      · rw [find_cons hp, Option.map_eq_some_iff] at h
        obtain ⟨pos, hpos, rfl⟩ := h
        have hnext : pos + 1 + sub.length = pos + sub.length + 1 := by omega
        rw [List.take_succ_cons, List.cons_append, hnext, List.drop_succ_cons]
        exact congrArg (c :: ·) (ih hpos)

end Text
