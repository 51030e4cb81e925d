/-
A registry that is filled entry by entry and read as a table of lines.

Every entry writes its signature at its key, the last one winning.  Most entries
are also declared: a `once` entry only when its key is not declared yet, an
`always` entry in any case.  A `reserve` entry claims its key for something else
and goes to a list of its own.  The lines of the table are the declared keys in
order, each with the signature its key has in the end.

Nothing stops two entries from sharing a key, and then one of them is shadowed or
declared twice.  `exact_iff_nodup` says that this is all that can go wrong: the
table has exactly one line for every signature, and no reserved key among them,
if and only if the keys of the entries are pairwise distinct.
-/
import Mathlib

namespace Registry

variable {κ σ : Type}

inductive Mode
  | once | always | reserve
deriving DecidableEq

structure Entry (κ σ : Type) where
  key : κ
  sig : σ
  mode : Mode
deriving DecidableEq

/-- The entry is declared, and not a reservation. -/
def Entry.published (e : Entry κ σ) : Bool := e.mode != .reserve

structure State (κ σ : Type) where
  decls : List κ
  reserved : List κ
  sigs : κ → Option σ

def State.empty : State κ σ := ⟨[], [], fun _ => none⟩

/-- Append a key unless it is there. -/
def pushNew [DecidableEq κ] (ks : List κ) (k : κ) : List κ := if k ∈ ks then ks else ks ++ [k]

def State.add [DecidableEq κ] (s : State κ σ) (e : Entry κ σ) : State κ σ where
  decls := match e.mode with
    | .once => pushNew s.decls e.key
    | .always => s.decls ++ [e.key]
    | .reserve => s.decls
  reserved := match e.mode with
    | .reserve => pushNew s.reserved e.key
    | _ => s.reserved
  sigs := Function.update s.sigs e.key (some e.sig)

def run [DecidableEq κ] (es : List (Entry κ σ)) : State κ σ := es.foldl State.add State.empty

/-- The lines of the table: the signature at a declared key, and the key. -/
def State.lines (s : State κ σ) : List (Option σ × κ) := s.decls.map fun k => (s.sigs k, k)

/-! ### One entry after the other -/

variable [DecidableEq κ]

@[simp] theorem run_nil : run ([] : List (Entry κ σ)) = State.empty := rfl

@[simp] theorem run_concat (es : List (Entry κ σ)) (e : Entry κ σ) :
    run (es ++ [e]) = (run es).add e := by
  simp [run]

theorem mem_pushNew {ks : List κ} {k x : κ} : x ∈ pushNew ks k ↔ x ∈ ks ∨ x = k := by
  rw [pushNew]
  split
  · refine ⟨Or.inl, fun h => ?_⟩
    rcases h with h | rfl
    · exact h
    · assumption
  · simp

/-- The declared keys are those of the published entries. -/
theorem mem_decls {es : List (Entry κ σ)} {k : κ} :
    k ∈ (run es).decls ↔ ∃ e ∈ es, e.published = true ∧ e.key = k := by
  induction es using List.reverseRecOn with
  | nil => simp [State.empty]
  | append_singleton es e ih =>
      have hadd : k ∈ ((run es).add e).decls ↔
          k ∈ (run es).decls ∨ (e.published = true ∧ e.key = k) := by
        cases hm : e.mode <;>
          simp [State.add, hm, Entry.published, mem_pushNew, @eq_comm _ k e.key]
      rw [run_concat, hadd, ih]
      simp only [List.mem_append, List.mem_singleton]
      constructor
      · rintro (⟨a, ha, h⟩ | h)
        · exact ⟨a, Or.inl ha, h⟩
        · exact ⟨e, Or.inr rfl, h⟩
      · rintro ⟨a, ha | rfl, h⟩
        · exact Or.inl ⟨a, ha, h⟩
        · exact Or.inr h

/-- The reserved keys are those of the other entries. -/
theorem mem_reserved {es : List (Entry κ σ)} {k : κ} :
    k ∈ (run es).reserved ↔ ∃ e ∈ es, e.published = false ∧ e.key = k := by
  induction es using List.reverseRecOn with
  | nil => simp [State.empty]
  | append_singleton es e ih =>
      have hadd : k ∈ ((run es).add e).reserved ↔
          k ∈ (run es).reserved ∨ (e.published = false ∧ e.key = k) := by
        cases hm : e.mode <;>
          simp [State.add, hm, Entry.published, mem_pushNew, @eq_comm _ k e.key]
      rw [run_concat, hadd, ih]
      simp only [List.mem_append, List.mem_singleton]
      constructor
      · rintro (⟨a, ha, h⟩ | h)
        · exact ⟨a, Or.inl ha, h⟩
        · exact ⟨e, Or.inr rfl, h⟩
      · rintro ⟨a, ha | rfl, h⟩
        · exact Or.inl ⟨a, ha, h⟩
        · exact Or.inr h

/-- A signature in the table was written by an entry. -/
theorem entry_of_sigs {es : List (Entry κ σ)} {k : κ} {g : σ}
    (h : (run es).sigs k = some g) : ∃ e ∈ es, e.key = k ∧ e.sig = g := by
  induction es using List.reverseRecOn with
  | nil => simp [State.empty] at h
  | append_singleton es e ih =>
      rw [run_concat] at h
      by_cases hk : k = e.key
      · subst hk
        exact ⟨e, by simp, rfl, by simpa [State.add] using h⟩
      · obtain ⟨a, ha, h⟩ := ih (by simpa [State.add, hk] using h)
        exact ⟨a, by simp [ha], h⟩

/-- An entry leaves a signature at its key, its own or a later one. -/
theorem sigs_of_mem {es : List (Entry κ σ)} {e : Entry κ σ} (he : e ∈ es) :
    ∃ g, (run es).sigs e.key = some g := by
  induction es using List.reverseRecOn with
  | nil => simp at he
  | append_singleton es a ih =>
      rw [run_concat]
      by_cases hk : e.key = a.key
      · exact ⟨a.sig, by simp [State.add, hk]⟩
      · have he : e ∈ es := by
          rcases List.mem_append.mp he with h | h
          · exact h
          · exact absurd (by rw [List.mem_singleton.mp h]) hk
        obtain ⟨g, hg⟩ := ih he
        exact ⟨g, by simpa [State.add, hk] using hg⟩

/-- An entry whose key comes in no later entry has its own signature in the table. -/
theorem sigs_of_unshadowed {es : List (Entry κ σ)} {P : Entry κ σ → Prop}
    (h : es.Pairwise fun a b => P a → a.key ≠ b.key) {e : Entry κ σ} (he : e ∈ es) (hP : P e) :
    (run es).sigs e.key = some e.sig := by
  induction es using List.reverseRecOn with
  | nil => simp at he
  | append_singleton es a ih =>
      obtain ⟨hes, -, hlast⟩ := List.pairwise_append.mp h
      rw [run_concat]
      rcases List.mem_append.mp he with he | he
      · have hne : e.key ≠ a.key := hlast e he a (by simp) hP
        simp [State.add, hne, ih hes he]
      · rw [List.mem_singleton.mp he]
        simp [State.add]

/-- Where the keys of the last entries are distinct, each of these has its own signature in the
table, whatever came before. -/
theorem sigs_of_nodup_append {es fs : List (Entry κ σ)} (h : (fs.map Entry.key).Nodup)
    {e : Entry κ σ} (he : e ∈ fs) : (run (es ++ fs)).sigs e.key = some e.sig := by
  induction fs using List.reverseRecOn with
  | nil => simp at he
  | append_singleton fs a ih =>
      rw [List.map_append, List.nodup_append] at h
      obtain ⟨hfs, -, hdisj⟩ := h
      rw [← List.append_assoc, run_concat]
      rcases List.mem_append.mp he with he | he
      · have hne : e.key ≠ a.key := hdisj e.key (List.mem_map_of_mem he) a.key (by simp)
        simp [State.add, hne, ih hfs he]
      · rw [List.mem_singleton.mp he]
        simp [State.add]

/-- Declarations stay. -/
theorem count_decls_add (s : State κ σ) (e : Entry κ σ) (k : κ) :
    s.decls.count k ≤ (s.add e).decls.count k := by
  cases hm : e.mode with
  | once =>
      simp only [State.add, hm, pushNew]
      split <;> simp
  | always => simp [State.add, hm]
  | reserve => simp [State.add, hm]

theorem count_decls_foldl (es : List (Entry κ σ)) (k : κ) : ∀ s : State κ σ,
    s.decls.count k ≤ (es.foldl State.add s).decls.count k := by
  induction es with
  | nil => intro s; exact le_refl _
  | cons e es ih => intro s; exact (count_decls_add s e k).trans (ih _)

/-- A key that is declared and declared again whatever is there is declared twice. -/
theorem two_le_count_decls {es fs : List (Entry κ σ)} {a b : Entry κ σ} (ha : a ∈ es)
    (hb : b ∈ fs) (hkey : a.key = b.key) (hpub : a.published = true) (hmode : b.mode = .always) :
    2 ≤ (run (es ++ fs)).decls.count b.key := by
  obtain ⟨gs, hs, rfl⟩ := List.append_of_mem hb
  have hmem : b.key ∈ (run (es ++ gs)).decls := mem_decls.mpr ⟨a, by simp [ha], hpub, hkey⟩
  have hone : 1 ≤ (run (es ++ gs)).decls.count b.key := List.count_pos_iff.mpr hmem
  have htwo : 2 ≤ (run (es ++ gs ++ [b])).decls.count b.key := by
    rw [run_concat]
    simp only [State.add, hmode, List.count_append, List.count_singleton, beq_self_eq_true,
      if_true]
    omega
  have hrun : run (es ++ (gs ++ b :: hs)) = hs.foldl State.add (run (es ++ gs ++ [b])) := by
    simp [run]
  rw [hrun]
  exact htwo.trans (count_decls_foldl hs b.key _)

/-! ### Distinct keys -/

/-- With distinct keys every entry has its own place in the table. -/
theorem run_of_nodup {es : List (Entry κ σ)} (h : (es.map Entry.key).Nodup) :
    (run es).decls = (es.filter Entry.published).map Entry.key ∧
      (run es).reserved = (es.filter fun e => !e.published).map Entry.key ∧
      ∀ e ∈ es, (run es).sigs e.key = some e.sig := by
  induction es using List.reverseRecOn with
  | nil => simp [State.empty]
  | append_singleton es e ih =>
      rw [List.map_append, List.nodup_append] at h
      obtain ⟨hes, -, hdisj⟩ := h
      have hne : ∀ a ∈ es, a.key ≠ e.key := fun a ha =>
        hdisj a.key (List.mem_map_of_mem ha) e.key (by simp)
      obtain ⟨hdecls, hres, hsigs⟩ := ih hes
      have hnd : e.key ∉ (run es).decls := by
        rw [mem_decls]
        rintro ⟨a, ha, -, hk⟩
        exact hne a ha hk
      have hnr : e.key ∉ (run es).reserved := by
        rw [mem_reserved]
        rintro ⟨a, ha, -, hk⟩
        exact hne a ha hk
      have hpd : pushNew (run es).decls e.key = (run es).decls ++ [e.key] := if_neg hnd
      have hpr : pushNew (run es).reserved e.key = (run es).reserved ++ [e.key] := if_neg hnr
      rw [run_concat]
      refine ⟨?_, ?_, ?_⟩
      · cases hm : e.mode <;>
          simp only [State.add, hm, hpd] <;>
          simp [hdecls, Entry.published, List.filter_append, hm]
      · cases hm : e.mode <;>
          simp only [State.add, hm, hpr] <;>
          simp [hres, Entry.published, List.filter_append, hm]
      · intro a ha
        rcases List.mem_append.mp ha with ha | ha
        · simp [State.add, hne a ha, hsigs a ha]
        · rw [List.mem_singleton.mp ha]
          simp [State.add]

theorem nodup_decls {es : List (Entry κ σ)} (h : (es.map Entry.key).Nodup) :
    (run es).decls.Nodup := by
  rw [(run_of_nodup h).1]
  exact (List.filter_sublist.map Entry.key).nodup h

/-! ### One line for every signature -/

/-- What may be said of the entries as they come: a signature determines its key, two
entries never carry one signature unless the second is declared in any case, and a
key is reserved once. -/
structure Coherent (es : List (Entry κ σ)) : Prop where
  key_of_sig : ∀ a ∈ es, ∀ b ∈ es, a.sig = b.sig → a.key = b.key
  again : es.Pairwise fun a b => a.sig = b.sig → a.published = true ∧ b.mode = .always
  reserved : es.Pairwise fun a b => a.key = b.key → a.published = true ∨ b.published = true

/-- Only the key of an entry has a line with its signature. -/
theorem key_of_line {es : List (Entry κ σ)} (hc : Coherent es) {e : Entry κ σ} (he : e ∈ es)
    {k : κ} (h : (run es).sigs k = some e.sig) : k = e.key := by
  obtain ⟨a, ha, rfl, hsig⟩ := entry_of_sigs h
  exact hc.key_of_sig a ha e he hsig

/-- Every published signature has exactly one line, under a key nobody reserved. -/
def Exact [DecidableEq σ] (es : List (Entry κ σ)) : Prop :=
  ∀ e ∈ es, e.published = true →
    (run es).lines.countP (fun l => l.1 = some e.sig) = 1 ∧ e.key ∉ (run es).reserved

variable [DecidableEq σ]

/-- The line of a signature stands under its own key. -/
theorem sigs_of_line {es : List (Entry κ σ)} (hc : Coherent es) {e : Entry κ σ} (he : e ∈ es)
    (h : (run es).lines.countP (fun l => l.1 = some e.sig) = 1) :
    (run es).sigs e.key = some e.sig := by
  have hpos : 0 < (run es).lines.countP (fun l => l.1 = some e.sig) := by omega
  obtain ⟨l, hl, hsig⟩ := List.countP_pos_iff.mp hpos
  obtain ⟨k, -, rfl⟩ := List.mem_map.mp hl
  have hk : (run es).sigs k = some e.sig := by simpa using hsig
  rwa [key_of_line hc he hk] at hk

/-- A signature is compared as often as its key is declared. -/
theorem countP_lines {es : List (Entry κ σ)} (hc : Coherent es) {e : Entry κ σ} (he : e ∈ es)
    (h : (run es).sigs e.key = some e.sig) :
    (run es).lines.countP (fun l => l.1 = some e.sig) = (run es).decls.count e.key := by
  rw [State.lines, List.countP_map, List.count]
  refine List.countP_congr fun k _ => ?_
  simp only [Function.comp_apply, decide_eq_true_eq, beq_iff_eq]
  exact ⟨key_of_line hc he, fun hk => by rw [hk, h]⟩

/-- **The table is exact if and only if no two entries share a key.** -/
theorem exact_iff_nodup {es : List (Entry κ σ)} (hc : Coherent es) :
    Exact es ↔ (es.map Entry.key).Nodup := by
  constructor
  · intro hex
    rw [List.Nodup, List.pairwise_map, List.pairwise_iff_forall_sublist]
    intro a b hab hkey
    have hagain := List.pairwise_iff_forall_sublist.mp hc.again hab
    have hres := List.pairwise_iff_forall_sublist.mp hc.reserved hab hkey
    obtain ⟨r₁, r₂, rfl, ha, hb⟩ := List.cons_sublist_iff.mp hab
    have hb : b ∈ r₂ := List.singleton_sublist.mp hb
    have ha' : a ∈ r₁ ++ r₂ := by simp [ha]
    have hb' : b ∈ r₁ ++ r₂ := by simp [hb]
    cases hpa : a.published with
    | false =>
        have hpb : b.published = true := by simpa [hpa] using hres
        exact (hex b hb' hpb).2 (mem_reserved.mpr ⟨a, ha', hpa, hkey⟩)
    | true =>
        cases hpb : b.published with
        | false => exact (hex a ha' hpa).2 (mem_reserved.mpr ⟨b, hb', hpb, hkey.symm⟩)
        | true =>
            have hsa := sigs_of_line hc ha' (hex a ha' hpa).1
            have hsb := sigs_of_line hc hb' (hex b hb' hpb).1
            have hsig : a.sig = b.sig := by
              rw [hkey, hsb, Option.some.injEq] at hsa
              exact hsa.symm
            -- the same signature again: its key is declared a second time
            have htwo := two_le_count_decls ha hb hkey hpa (hagain hsig).2
            rw [← countP_lines hc hb' hsb, (hex b hb' hpb).1] at htwo
            omega
  · intro hnd e he hpub
    obtain ⟨-, -, hsigs⟩ := run_of_nodup hnd
    constructor
    · rw [countP_lines hc he (hsigs e he)]
      exact List.count_eq_one_of_mem (nodup_decls hnd) (mem_decls.mpr ⟨e, he, hpub, rfl⟩)
    · rw [mem_reserved]
      rintro ⟨a, ha, hpa, hk⟩
      rw [List.inj_on_of_nodup_map hnd ha he hk, hpub] at hpa
      exact Bool.noConfusion hpa

end Registry
