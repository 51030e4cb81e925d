/-
Self-synchronizing codes.

A code writes every symbol as a word.  The first unit of a word can be told from the others,
and no word begins another.  Then a sequence of words can be read from every unit that
begins a word, whatever stands around it: where one encoded sequence occurs in another, it
does so because the one sequence occurs in the other.

UTF-8 is such a code.
-/
import Mathlib

/-- Words that begin with a unit of their own, and do not begin each other. -/
structure Code (γ β : Type) where
  encode : γ → List β
  lead : β → Bool
  shape : ∀ c, ∃ b bs, encode c = b :: bs ∧ lead b = true ∧ ∀ x ∈ bs, lead x = false
  decodable : ∀ c d x y, encode c ++ x = encode d ++ y → c = d

namespace Code

variable {γ β : Type} (code : Code γ β)

/-- A sequence, word by word. -/
def text (l : List γ) : List β := l.flatMap code.encode

@[simp]
theorem text_nil : code.text [] = [] := rfl

@[simp]
theorem text_cons (c : γ) (l : List γ) : code.text (c :: l) = code.encode c ++ code.text l := rfl

@[simp]
theorem text_append (l m : List γ) : code.text (l ++ m) = code.text l ++ code.text m :=
  List.flatMap_append

theorem encode_ne_nil (c : γ) : code.encode c ≠ [] := by
  obtain ⟨b, bs, hword, -⟩ := code.shape c
  rw [hword]
  exact List.cons_ne_nil b bs

theorem encode_length_pos (c : γ) : 0 < (code.encode c).length :=
  List.length_pos_iff.mpr (code.encode_ne_nil c)

theorem length_le_text (l : List γ) : l.length ≤ (code.text l).length := by
  induction l with
  | nil => exact Nat.le_refl 0
  | cons c l ih =>
      have hpos := code.encode_length_pos c
      rw [text_cons, List.length_append, List.length_cons]
      omega

/-- Within a word only the first unit is a lead. -/
theorem lead_getElem_encode (c : γ) {i : Nat} (hi : i < (code.encode c).length) :
    code.lead (code.encode c)[i] = decide (i = 0) := by
  obtain ⟨b, bs, hword, hlead, htail⟩ := code.shape c
  simp only [hword] at hi ⊢
  cases i with
  | zero => simpa using hlead
  | succ i =>
      rw [List.getElem_cons_succ]
      have hmem := htail _ (List.getElem_mem (l := bs) (n := i) (by simpa using hi))
      simpa using hmem

/-! ### Reading -/

/-- A sequence is read word by word. -/
theorem text_begins {l m : List γ} {x : List β} (h : code.text l = code.text m ++ x) :
    ∃ k, l = m ++ k ∧ x = code.text k := by
  induction m generalizing l with
  | nil => exact ⟨l, rfl, h.symm⟩
  | cons c m ih =>
      cases l with
      | nil =>
          rw [text_nil, text_cons, List.append_assoc] at h
          exact absurd (List.append_eq_nil_iff.mp h.symm).1 (code.encode_ne_nil c)
      | cons d l =>
          rw [text_cons, text_cons, List.append_assoc] at h
          obtain rfl := code.decodable d c _ _ h
          obtain ⟨k, hl, hx⟩ := ih (List.append_cancel_left h)
          exact ⟨k, by rw [hl]; rfl, hx⟩

/-- **A lead is where a word begins.** -/
theorem text_split {l : List γ} {p q : List β} {b : β} (h : code.text l = p ++ b :: q)
    (hlead : code.lead b = true) : ∃ l₁ l₂, l = l₁ ++ l₂ ∧ p = code.text l₁ ∧
      b :: q = code.text l₂ := by
  induction l generalizing p with
  | nil => simp at h
  | cons c l ih =>
      rw [text_cons] at h
      by_cases hp : (code.encode c).length ≤ p.length
      · obtain ⟨r, hr⟩ : ∃ r, p = code.encode c ++ r := by
          refine ⟨p.drop (code.encode c).length, ?_⟩
          have htake := congrArg (List.take (code.encode c).length) h
          rw [List.take_left', List.take_append_of_le_length hp] at htake
          · conv_lhs => rw [← List.take_append_drop (code.encode c).length p]
            rw [← htake]
          · rfl
        rw [hr, List.append_assoc] at h
        obtain ⟨l₁, l₂, hl, hp', hq⟩ := ih (List.append_cancel_left h)
        exact ⟨c :: l₁, l₂, by rw [hl]; rfl, by rw [hr, hp', text_cons], hq⟩
      · -- the lead is within the first word, so it is its first unit
        have hlt : p.length < (code.encode c).length := by omega
        have hunit : (code.encode c)[p.length] = b := by
          have hget : (code.encode c ++ code.text l)[p.length]? = (p ++ b :: q)[p.length]? := by
            rw [h]
          rw [List.getElem?_append_left hlt, List.getElem?_append_right (Nat.le_refl _),
            Nat.sub_self, List.getElem?_eq_getElem hlt] at hget
          exact Option.some.inj hget
        have hzero := code.lead_getElem_encode c hlt
        rw [hunit, hlead] at hzero
        have hnil : p = [] := List.eq_nil_of_length_eq_zero (by simpa using hzero.symm)
        subst hnil
        exact ⟨[], c :: l, rfl, rfl, by rw [text_cons, h]; rfl⟩

/-- **Where a sequence occurs in the code, it occurs in what is encoded.** -/
theorem text_sync {l m : List γ} (hm : m ≠ []) {p q : List β}
    (h : code.text l = p ++ code.text m ++ q) :
    ∃ l₁ l₂, l = l₁ ++ m ++ l₂ ∧ p = code.text l₁ ∧ q = code.text l₂ := by
  obtain ⟨c, m, rfl⟩ := List.exists_cons_of_ne_nil hm
  obtain ⟨b, bs, hword, hlead, -⟩ := code.shape c
  have hsplit : code.text l = p ++ b :: (bs ++ code.text m ++ q) := by
    rw [h, text_cons, hword]
    simp
  obtain ⟨l₁, l₂, hl, hp, hq⟩ := code.text_split hsplit hlead
  have hrest : code.text l₂ = code.text (c :: m) ++ q := by
    rw [← hq, text_cons, hword]
    simp
  obtain ⟨k, hk, hq'⟩ := code.text_begins hrest
  exact ⟨l₁, k, by rw [hl, hk, List.append_assoc], hp, hq'⟩

end Code
