/-
Joining and normalizing path texts, as `haxe.io.Path` does it.

`join` glues its parts with a separator chosen by the last separator already in
the text, and hands the result to `normalize`, which turns backslashes into
slashes, drops `.` and empty components, lets `..` cancel the component before
it, and finally squeezes runs of slashes with a small two-flag automaton (a slash
after a colon is kept, so that `http://` survives).

What a caller wants to know is that none of this touches the part of the path it
appended itself.  `join_append` says so: behind a first part of any shape, plain
names come out of `join` as they went in.
-/
import Wrenegade.Lib.Text

namespace HaxePath

open Text

/-- The index of the last `c` in `s`, or `-1`. -/
def lastIndexOf (s : Text) (c : Char) : Int :=
  match s.reverse.findIdx? (· == c) with
  | none => -1
  | some i => s.length - 1 - i

/-- Append the separator the path uses already, unless it ends with it. -/
def addTrailingSlash (path : Text) : Text :=
  if path = [] then "/"
  else
    let c1 := lastIndexOf path '/'
    let c2 := lastIndexOf path '\\'
    if c1 < c2 then (if c2 ≠ path.length - 1 then path ++ "\\" else path)
    else (if c1 ≠ path.length - 1 then path ++ "/" else path)

/-- One token of the path pushed on the components found so far. -/
def pushToken (absolute : Bool) (target : List Text) (token : Text) : List Text :=
  if token = ".." ∧ target ≠ [] ∧ target.getLast? ≠ some ".." then target.dropLast
  else if token = [] then
    (if target ≠ [] ∨ absolute then target ++ [token] else target)
  else if token ≠ "." then target ++ [token]
  else target

/-- The final pass over the joined components: `colon` is set right after a colon,
`slashes` while a slash is waiting to be written. -/
def squeeze : Bool → Bool → Text → Text
  | _, _, [] => []
  | colon, slashes, c :: cs =>
      if c = ':' then ':' :: squeeze true slashes cs
      else if c = '/' ∧ colon = false then squeeze colon true cs
      else (if slashes then ['/'] else []) ++ c :: squeeze false false cs

def normalize (path : Text) : Text :=
  let path := Text.join (split path "\\") "/"
  if path = "/" then "/"
  else
    let target := (split path "/").foldl (pushToken (path.head? = some '/')) []
    squeeze false false (Text.join target "/")

def join (paths : List Text) : Text :=
  match paths.filter (· ≠ []) with
  | [] => []
  | p :: ps => normalize (ps.foldl (fun path q => addTrailingSlash path ++ q) p)

/-! ### Plain names -/

/-- A component `normalize` has no reason to touch. -/
structure PlainName (p : Text) : Prop where
  ne_nil : p ≠ []
  ne_dot : p ≠ "."
  ne_dotdot : p ≠ ".."
  noSlash : '/' ∉ p
  noBackslash : '\\' ∉ p
  noColon : ':' ∉ p

theorem pushToken_plain {p : Text} (hp : PlainName p) (absolute : Bool) (target : List Text) :
    pushToken absolute target p = target ++ [p] := by
  rw [pushToken, if_neg (fun h => hp.ne_dotdot h.1), if_neg hp.ne_nil, if_pos hp.ne_dot]

theorem foldl_pushToken_plain {ps : List Text} (hps : ∀ p ∈ ps, PlainName p)
    (absolute : Bool) : ∀ target : List Text,
      ps.foldl (pushToken absolute) target = target ++ ps := by
  induction ps with
  | nil => intro target; simp
  | cons p ps ih =>
      intro target
      rw [List.foldl_cons, pushToken_plain (hps p (by simp)),
        ih (fun q hq => hps q (by simp [hq]))]
      simp

/-! ### The squeezing pass -/

/-- Any character but a colon or a slash puts the automaton back to its start. -/
theorem squeeze_append {c : Char} (hc : c ≠ ':') (hs : c ≠ '/') (a s : Text) :
    ∀ colon slashes : Bool,
      squeeze colon slashes (a ++ [c] ++ s)
        = squeeze colon slashes (a ++ [c]) ++ squeeze false false s := by
  induction a with
  | nil => intro colon slashes; simp [squeeze, hc, hs]
  | cons x xs ih =>
      intro colon slashes
      simp only [List.cons_append, squeeze]
      split
      · rw [ih]; rfl
      · split
        · exact ih _ _
        · rw [ih]; simp

theorem squeeze_plain {p : Text} (hp : PlainName p) (s : Text) (slashes : Bool) :
    squeeze false slashes (p ++ s)
      = (if slashes then ['/'] else []) ++ p ++ squeeze false false s := by
  have key : ∀ (q : Text), (∀ c ∈ q, c ≠ ':' ∧ c ≠ '/') →
      squeeze false false (q ++ s) = q ++ squeeze false false s := by
    intro q
    induction q with
    | nil => intro _; rfl
    | cons x xs ih =>
        intro h
        obtain ⟨hx, hx'⟩ := h x (by simp)
        simp [squeeze, hx, hx', ih (fun c hc => h c (by simp [hc]))]
  obtain ⟨x, xs, rfl⟩ := List.exists_cons_of_ne_nil hp.ne_nil
  have hall : ∀ c ∈ x :: xs, c ≠ ':' ∧ c ≠ '/' := fun c hc =>
    ⟨fun h => hp.noColon (h ▸ hc), fun h => hp.noSlash (h ▸ hc)⟩
  obtain ⟨hx, hx'⟩ := hall x (by simp)
  rw [List.cons_append, squeeze, if_neg hx, if_neg (fun h => hx' h.1),
    key xs (fun c hc => hall c (by simp [hc]))]
  simp

theorem squeeze_join {ps : List Text} (hps : ∀ p ∈ ps, PlainName p) (h : ps ≠ [])
    (slashes : Bool) :
    squeeze false slashes (Text.join ps "/")
      = (if slashes then ['/'] else []) ++ Text.join ps "/" := by
  induction ps generalizing slashes with
  | nil => exact absurd rfl h
  | cons p ps ih =>
      have hp := hps p (by simp)
      by_cases hne : ps = []
      · subst hne
        have := squeeze_plain hp [] slashes
        simpa [squeeze] using this
      · rw [join_cons hne, List.append_assoc, squeeze_plain hp]
        have hslash : squeeze false false ("/" ++ Text.join ps "/")
            = squeeze false true (Text.join ps "/") := by simp [squeeze]
        rw [hslash, ih (fun q hq => hps q (by simp [hq])) hne]
        simp

/-! ### What `join` does to what is appended -/

private theorem getLast?_plain {p : Text} (hp : PlainName p) (a : Text) :
    ∃ b c, a ++ p = b ++ [c] ∧ c ≠ '/' ∧ c ≠ '\\' ∧ c ≠ ':' := by
  refine ⟨a ++ p.dropLast, p.getLast hp.ne_nil, ?_, ?_, ?_, ?_⟩
  · rw [List.append_assoc, List.dropLast_append_getLast]
  · exact fun h => hp.noSlash (h ▸ List.getLast_mem hp.ne_nil)
  · exact fun h => hp.noBackslash (h ▸ List.getLast_mem hp.ne_nil)
  · exact fun h => hp.noColon (h ▸ List.getLast_mem hp.ne_nil)

private theorem lastIndexOf_ne_end {b : Text} {c d : Char} (h : c ≠ d) :
    lastIndexOf (b ++ [c]) d ≠ (b ++ [c]).length - 1 := by
  have hc : (c == d) = false := by simpa using h
  have hrev : (b ++ [c]).reverse.findIdx? (· == d)
      = (b.reverse.findIdx? (· == d)).map (· + 1) := by
    simp [List.findIdx?_cons, hc]
  rw [lastIndexOf, hrev]
  cases b.reverse.findIdx? (· == d) with
  | none => simp only [Option.map_none, List.length_append, List.length_singleton]; omega
  | some i => simp only [Option.map_some, List.length_append, List.length_singleton]; omega

private theorem ends_of_lastIndexOf {s : Text} {c : Char} (hs : s ≠ [])
    (h : lastIndexOf s c = s.length - 1) : ∃ b, s = b ++ [c] := by
  have hpos : 0 < s.length := List.length_pos_iff.mpr hs
  rw [lastIndexOf] at h
  cases hf : s.reverse.findIdx? (· == c) with
  | none => rw [hf] at h; simp only at h; omega
  | some i =>
      rw [hf] at h
      simp only at h
      have hi : i = 0 := by omega
      subst hi
      obtain ⟨hlt, hget, -⟩ := List.findIdx?_eq_some_iff_getElem.mp hf
      refine ⟨s.dropLast, ?_⟩
      have hlast : s.getLast hs = c := by
        rw [List.getElem_reverse] at hget
        simpa [List.getLast_eq_getElem] using hget
      rw [← hlast, List.dropLast_append_getLast]

/-- A separator is at the end afterwards. -/
private theorem addTrailingSlash_ends {path : Text} (h : path ≠ []) :
    ∃ b, addTrailingSlash path = b ++ "/" ∨ addTrailingSlash path = b ++ "\\" := by
  rw [addTrailingSlash, if_neg h]
  simp only
  split
  · split
    · exact ⟨path, Or.inr rfl⟩
    · rename_i hend
      obtain ⟨b, hb⟩ := ends_of_lastIndexOf h (not_not.mp hend)
      exact ⟨b, Or.inr hb⟩
  · split
    · exact ⟨path, Or.inl rfl⟩
    · rename_i hend
      obtain ⟨b, hb⟩ := ends_of_lastIndexOf h (not_not.mp hend)
      exact ⟨b, Or.inl hb⟩

/-- Behind a plain name a separator is added, whichever of the two it is. -/
theorem addTrailingSlash_plain {p : Text} (hp : PlainName p) (a : Text) :
    ∃ sep : Char, (sep = '/' ∨ sep = '\\') ∧ addTrailingSlash (a ++ p) = a ++ p ++ [sep] := by
  obtain ⟨b, c, hbc, hs, hb, -⟩ := getLast?_plain hp a
  rw [hbc, addTrailingSlash, if_neg (by simp)]
  simp only [lastIndexOf_ne_end hs, lastIndexOf_ne_end hb, ne_eq, not_false_eq_true, if_true]
  split
  · exact ⟨'\\', Or.inr rfl, rfl⟩
  · exact ⟨'/', Or.inl rfl, rfl⟩

private theorem slashed_plain {p : Text} (hp : PlainName p) : replace p "\\" "/" = p :=
  replace_of_not_mem (x := '\\') (by decide) hp.noBackslash _

private theorem slashed_append (a b : Text) :
    replace (a ++ b) "\\" "/" = replace a "\\" "/" ++ replace b "\\" "/" := by
  have h : ∀ s : Text, replace s "\\" "/" = s.map fun c => if c = '\\' then '/' else c :=
    fun s => replace_char_char s '\\' '/'
  rw [h, h, h, List.map_append]

private theorem slashed_join {ps : List Text} (hps : ∀ p ∈ ps, PlainName p) :
    replace (Text.join ps "/") "\\" "/" = Text.join ps "/" := by
  refine replace_of_not_mem (x := '\\') (by decide) (fun h => ?_) _
  rcases mem_join h with h | ⟨p, hp, h⟩
  · revert h; decide
  · exact (hps p hp).noBackslash h

/-- The components of a path that ends in a plain name. -/
private theorem foldl_pushToken_ends {a p : Text} (hp : PlainName p)
    (ha : a = [] ∨ ∃ b, a = b ++ "/") (absolute : Bool) :
    ∃ T, (split (a ++ p) "/").foldl (pushToken absolute) [] = T ++ [p] := by
  have hself : split p "/" = [p] := split_of_not_mem hp.noSlash
  rcases ha with rfl | ⟨b, rfl⟩
  · refine ⟨[], ?_⟩
    rw [List.nil_append, hself]
    exact pushToken_plain hp absolute []
  · refine ⟨(split b "/").foldl (pushToken absolute) [], ?_⟩
    have hsplit : split (b ++ "/" ++ p) "/" = split b "/" ++ split p "/" := by
      have := split_append_delim b '/' p
      simpa using this
    rw [hsplit, hself, List.foldl_append]
    exact pushToken_plain hp absolute _

/-- `normalize` in terms of `replace`. -/
private theorem normalize_eq (path : Text) :
    normalize path =
      if replace path "\\" "/" = "/" then ['/']
      else squeeze false false (Text.join ((split (replace path "\\" "/") "/").foldl
        (pushToken ((replace path "\\" "/").head? = some '/')) []) "/") := rfl

/-- The backslashes in front of a plain name turned into slashes. -/
private theorem slashed_ends {a p : Text} (hp : PlainName p)
    (ha : a = [] ∨ ∃ b, a = b ++ "/" ∨ a = b ++ "\\") :
    ∃ a', (a' = [] ∨ ∃ b, a' = b ++ ("/" : Text)) ∧ replace (a ++ p) "\\" "/" = a' ++ p := by
  refine ⟨replace a "\\" "/", ?_, by rw [slashed_append, slashed_plain hp]⟩
  rcases ha with rfl | ⟨b, rfl | rfl⟩
  · exact Or.inl (replace_nil (by simp) _)
  · exact Or.inr ⟨replace b "\\" "/", by rw [slashed_append]; congr 1⟩
  · exact Or.inr ⟨replace b "\\" "/", by rw [slashed_append]; congr 1⟩

private theorem plain_ne_slash {p : Text} (hp : PlainName p) (a s : Text) : a ++ p ++ s ≠ "/" := by
  intro h
  have hmem : ∀ c ∈ p, c = '/' := fun c hc => by
    have : c ∈ ("/" : Text) := by rw [← h]; simp [hc]
    simpa using this
  obtain ⟨y, ys, hy⟩ := List.exists_cons_of_ne_nil hp.ne_nil
  exact hp.noSlash (by rw [hy, ← hmem y (by simp [hy])]; simp)

/-- `normalize` leaves alone the plain names behind a plain name. -/
private theorem normalize_append {a p : Text} (hp : PlainName p)
    (ha : a = [] ∨ ∃ b, a = b ++ "/" ∨ a = b ++ "\\") {ps : List Text}
    (hps : ∀ q ∈ ps, PlainName q) (hne : ps ≠ []) {sep : Char} (hsep : sep = '/' ∨ sep = '\\') :
    normalize (a ++ p ++ [sep] ++ Text.join ps "/")
      = normalize (a ++ p) ++ "/" ++ Text.join ps "/" := by
  -- after the backslashes are gone, the path is `a' ++ p ++ "/" ++ names`
  obtain ⟨a', ha', hbase⟩ := slashed_ends hp ha
  have hsep' : replace [sep] "\\" "/" = "/" := by rcases hsep with rfl | rfl <;> decide
  have hfull : replace (a ++ p ++ [sep] ++ Text.join ps "/") "\\" "/"
      = a' ++ p ++ '/' :: Text.join ps "/" := by
    rw [slashed_append, slashed_append, hbase, hsep', slashed_join hps]
    simp
  obtain ⟨x, xs, hx⟩ := List.exists_cons_of_ne_nil
    (show a' ++ p ≠ [] by simp [hp.ne_nil])
  have hnot := plain_ne_slash hp a'
  have hhead : (a' ++ p ++ '/' :: Text.join ps "/").head? = (a' ++ p).head? := by
    rw [hx]; rfl
  obtain ⟨T, hT⟩ := foldl_pushToken_ends hp ha' ((a' ++ p).head? = some '/')
  have hsplit : split (a' ++ p ++ '/' :: Text.join ps "/") "/"
      = split (a' ++ p) "/" ++ ps := by
    have h1 := split_append_delim (a' ++ p) '/' (Text.join ps "/")
    have h2 := split_join hne (x := '/') (fun q hq => (hps q hq).noSlash)
    calc split (a' ++ p ++ '/' :: Text.join ps "/") "/"
        = split (a' ++ p) "/" ++ split (Text.join ps "/") "/" := h1
      _ = split (a' ++ p) "/" ++ ps := by rw [show split (Text.join ps "/") "/" = ps from h2]
  have e1 : normalize (a ++ p) = squeeze false false (Text.join (T ++ [p]) "/") := by
    rw [normalize_eq, hbase, if_neg (by simpa using hnot []), hT]
  have e2 : normalize (a ++ p ++ [sep] ++ Text.join ps "/")
      = squeeze false false (Text.join (T ++ [p] ++ ps) "/") := by
    rw [normalize_eq, hfull, if_neg (hnot _), hhead, hsplit, List.foldl_append, hT,
      foldl_pushToken_plain hps]
  have hjoin : Text.join (T ++ [p] ++ ps) "/"
      = Text.join (T ++ [p]) "/" ++ "/" ++ Text.join ps "/" := by
    clear e1 e2 hsplit hT
    induction T with
    | nil => simpa using join_cons hne "/"
    | cons t T ih =>
        rw [List.cons_append, List.cons_append, join_cons (by simp), ih, join_cons (by simp)]
        simp
  -- the joined components end in a character of `p`, where the automaton restarts
  obtain ⟨b, c, hbc, hs, -, hcolon⟩ : ∃ b c, Text.join (T ++ [p]) "/" = b ++ [c] ∧
      c ≠ '/' ∧ c ≠ '\\' ∧ c ≠ ':' := by
    by_cases hT0 : T = []
    · subst hT0
      simpa using getLast?_plain hp []
    · rw [join_concat hT0]
      exact getLast?_plain hp _
  have htail : squeeze false false ("/" ++ Text.join ps "/") = "/" ++ Text.join ps "/" := by
    have : squeeze false false ("/" ++ Text.join ps "/")
        = squeeze false true (Text.join ps "/") := by simp [squeeze]
    rw [this, squeeze_join hps hne]
    simp
  rw [e1, e2, hjoin, hbc, List.append_assoc, squeeze_append hcolon hs, htail]
  simp

/--
**Plain names come out of `join` as they went in**, whatever the first part is:
the last of them is only set apart by one slash.
-/
theorem join_append (dir : Text) {p : Text} (hp : PlainName p) {ps : List Text}
    (hps : ∀ q ∈ ps, PlainName q) (hne : ps ≠ []) :
    join [dir, p, Text.join ps "/"] = join [dir, p] ++ "/" ++ Text.join ps "/" := by
  have hj : Text.join ps "/" ≠ [] := by
    obtain ⟨q, qs, rfl⟩ := List.exists_cons_of_ne_nil hne
    have hq := (hps q (by simp)).ne_nil
    by_cases h : qs = []
    · subst h; simpa using hq
    · rw [join_cons h]; simp [hq]
  have hkeep : [p, Text.join ps "/"].filter (· ≠ []) = [p, Text.join ps "/"] := by
    rw [List.filter_cons_of_pos (by simpa using hp.ne_nil),
      List.filter_cons_of_pos (by simpa using hj)]
    rfl
  by_cases hdir : dir = []
  · subst hdir
    obtain ⟨sep, hsep, hadd⟩ := addTrailingSlash_plain hp []
    simp only [List.nil_append] at hadd
    have e1 : join [[], p, Text.join ps "/"]
        = normalize ([] ++ p ++ [sep] ++ Text.join ps "/") := by
      rw [join, List.filter_cons_of_neg (by simp), hkeep]
      simp only [List.foldl_cons, List.foldl_nil, hadd, List.nil_append]
    have e2 : join [[], p] = normalize ([] ++ p) := by simp [join, hp.ne_nil]
    rw [e1, e2]
    exact normalize_append hp (Or.inl rfl) hps hne hsep
  · obtain ⟨sep, hsep, hadd⟩ := addTrailingSlash_plain hp (addTrailingSlash dir)
    have e1 : join [dir, p, Text.join ps "/"]
        = normalize (addTrailingSlash dir ++ p ++ [sep] ++ Text.join ps "/") := by
      rw [join, List.filter_cons_of_pos (by simpa using hdir), hkeep]
      simp only [List.foldl_cons, List.foldl_nil, hadd]
    have e2 : join [dir, p] = normalize (addTrailingSlash dir ++ p) := by
      simp [join, hdir, hp.ne_nil]
    rw [e1, e2]
    exact normalize_append hp (Or.inr (addTrailingSlash_ends hdir)) hps hne hsep

/-! ### How a joined path ends -/

theorem squeeze_ends {p : Text} (hp : PlainName p) (a : Text) :
    ∀ colon slashes : Bool, ∃ b, squeeze colon slashes (a ++ p) = b ++ p := by
  induction a with
  | nil =>
      intro colon slashes
      refine ⟨if slashes then ['/'] else [], ?_⟩
      obtain ⟨x, xs, rfl⟩ := List.exists_cons_of_ne_nil hp.ne_nil
      have hx : x ≠ '/' := fun h => hp.noSlash (by simp [h])
      -- the first character of the name is no slash, so the colon flag is not looked at
      have hcolon : squeeze colon slashes (x :: xs) = squeeze false slashes (x :: xs) := by
        simp [squeeze, hx, show x ≠ ':' from fun h => hp.noColon (by simp [h])]
      rw [List.nil_append, hcolon]
      have h := squeeze_plain hp [] slashes
      rwa [List.append_nil, squeeze, List.append_nil] at h
  | cons x xs ih =>
      intro colon slashes
      rw [List.cons_append, squeeze]
      split
      · obtain ⟨b, hb⟩ := ih true slashes
        exact ⟨':' :: b, by rw [hb]; rfl⟩
      · split
        · exact ih colon true
        · obtain ⟨b, hb⟩ := ih false false
          exact ⟨(if slashes = true then ['/'] else []) ++ x :: b, by rw [hb]; simp⟩

/-- A path joined with a plain name ends in it. -/
theorem join_ends (dir : Text) {p : Text} (hp : PlainName p) : ∃ b, join [dir, p] = b ++ p := by
  obtain ⟨a, ha, hjoin⟩ : ∃ a, (a = [] ∨ ∃ b, a = b ++ ("/" : Text) ∨ a = b ++ ("\\" : Text)) ∧
      join [dir, p] = normalize (a ++ p) := by
    by_cases hdir : dir = []
    · exact ⟨[], Or.inl rfl, by simp [join, hdir, hp.ne_nil]⟩
    · exact ⟨addTrailingSlash dir, Or.inr (addTrailingSlash_ends hdir),
        by simp [join, hdir, hp.ne_nil]⟩
  obtain ⟨a', ha', hbase⟩ := slashed_ends hp ha
  obtain ⟨T, hT⟩ := foldl_pushToken_ends hp ha' ((a' ++ p).head? = some '/')
  have hne := plain_ne_slash hp a' []
  rw [List.append_nil] at hne
  obtain ⟨b, hb⟩ : ∃ b, Text.join (T ++ [p]) "/" = b ++ p := by
    by_cases hT0 : T = []
    · exact ⟨[], by simp [hT0]⟩
    · exact ⟨_, join_concat hT0 p "/"⟩
  rw [hjoin, normalize_eq, hbase, if_neg hne, hT, hb]
  exact squeeze_ends hp b false false

end HaxePath
