/-
A hash table with open addressing.

The table is a list of slots.  A key is looked for from the slot its hash gives, one
slot after the other and around the end, until it is found or an empty slot is met.  A
key that is taken out leaves a tombstone, so that the search goes on behind it, and the
first tombstone on the way is where a new key goes.

What a table holds is the list of its entries.  The invariant is that every entry can be
reached from the slot of its hash without meeting an empty slot, and that no two entries
have equal keys.  Under it a table stands for an association list, and the operations of
the one are those of the other, up to the order of the entries.

Equality of keys is any equivalence; the hash has to respect it for the keys in the table.
-/
import Mathlib

namespace Probing

variable {κ β : Type}

inductive Slot (κ β : Type)
  | empty
  | tombstone
  | entry (key : κ) (value : β)
deriving DecidableEq

/-- What a search comes to. -/
inductive Probe
  | found (index : Nat)
  /-- The key is not there; this is where it goes. -/
  | absent (index : Nat)
  /-- It is not there, and there is no place for it. -/
  | full
deriving DecidableEq

def Slot.content : Slot κ β → Option (κ × β)
  | .entry key value => some (key, value)
  | _ => none

def Slot.setValue (value : β) : Slot κ β → Slot κ β
  | .entry key _ => .entry key value
  | slot => slot

abbrev Table (κ β : Type) := List (Slot κ β)

def contents (slots : Table κ β) : List (κ × β) := slots.filterMap Slot.content

section Operations

variable [BEq κ] (hash : κ → Nat)

/-- The search from a slot on; `tombstone` is the first one that was passed. -/
def walk (slots : Table κ β) (key : κ) : Nat → Nat → Option Nat → Probe
  | 0, _, tombstone => tombstone.elim .full .absent
  | n + 1, index, tombstone =>
      match slots[index]? with
      | some (.entry k _) =>
          if k == key then .found index
          else walk slots key n ((index + 1) % slots.length) tombstone
      | some .tombstone =>
          walk slots key n ((index + 1) % slots.length) (tombstone <|> some index)
      | _ => .absent (tombstone.getD index)

def find (slots : Table κ β) (key : κ) : Probe :=
  walk slots key slots.length (hash key % slots.length) none

/-- Put a new entry, or a new value behind an old key. -/
def put (slots : Table κ β) (key : κ) (value : β) : Option (Bool × Table κ β) :=
  match find hash slots key with
  | .found index =>
      some (false, slots.modify index (Slot.setValue value))
  | .absent index => some (true, slots.set index (.entry key value))
  | .full => none

/-- Put all entries into another table. -/
def refill (entries : List (κ × β)) (slots : Table κ β) : Option (Table κ β) :=
  entries.foldlM (fun slots e => (put hash slots e.1 e.2).map Prod.snd) slots

end Operations

theorem put_length [BEq κ] {hash : κ → Nat} {slots slots' : Table κ β} {key : κ} {value : β}
    {new : Bool} (h : put hash slots key value = some (new, slots')) :
    slots'.length = slots.length := by
  unfold put at h
  split at h
  · rw [Option.some.injEq, Prod.mk.injEq] at h
    rw [← h.2, List.length_modify]
  · rw [Option.some.injEq, Prod.mk.injEq] at h
    rw [← h.2, List.length_set]
  · simp at h

/-! ### The way of a key -/

/-- The slot a search comes to after some steps. -/
def place (slots : Table κ β) (h d : Nat) : Nat := (h + d) % slots.length

/-- None of the first slots is empty. -/
def Reaches (slots : Table κ β) (h d : Nat) : Prop :=
  ∀ e < d, slots[place slots h e]? ≠ some .empty

theorem place_lt {slots : Table κ β} (h d : Nat) (hlen : 0 < slots.length) :
    place slots h d < slots.length := Nat.mod_lt _ hlen

theorem place_succ (slots : Table κ β) (h d : Nat) :
    (place slots h d + 1) % slots.length = place slots h (d + 1) := by
  unfold place
  rw [Nat.mod_add_mod, Nat.add_assoc]

/-- Every slot is on the way. -/
theorem exists_place {slots : Table κ β} (h : Nat) {i : Nat} (hi : i < slots.length) :
    ∃ d < slots.length, place slots h d = i := by
  have hlen : 0 < slots.length := by omega
  have hh := Nat.mod_lt h hlen
  have hdiv := Nat.div_add_mod h slots.length
  refine ⟨(i + slots.length - h % slots.length) % slots.length, Nat.mod_lt _ hlen, ?_⟩
  have hsum : h + (i + slots.length - h % slots.length)
      = i + slots.length * (h / slots.length + 1) := by
    rw [Nat.mul_add]
    omega
  rw [place, Nat.add_mod_mod, hsum, Nat.add_mul_mod_self_left, Nat.mod_eq_of_lt hi]

theorem Reaches.mono {slots : Table κ β} {h d e : Nat} (hd : Reaches slots h d) (he : e ≤ d) :
    Reaches slots h e := fun i hi => hd i (by omega)

theorem Reaches.succ {slots : Table κ β} {h d : Nat} (hd : Reaches slots h d)
    (hne : slots[place slots h d]? ≠ some .empty) : Reaches slots h (d + 1) := by
  intro e he
  by_cases hed : e = d
  · rw [hed]
    exact hne
  · exact hd e (by omega)

/-- A slot that gets an entry or a tombstone blocks no way. -/
theorem Reaches.set {slots : Table κ β} {h d i : Nat} (hreach : Reaches slots h d) {s : Slot κ β}
    (hs : s ≠ .empty) : Reaches (slots.set i s) h d := by
  intro e he
  have hold := hreach e he
  unfold place at hold ⊢
  rw [List.length_set, List.getElem?_set]
  split
  · split
    · simpa using hs
    · simp
  · exact hold

section Find

variable [BEq κ] {hash : κ → Nat} {slots : Table κ β} {key : κ}

/-- The key is in no slot that is reached. -/
def Missing (slots : Table κ β) (key : κ) (h : Nat) : Prop :=
  ∀ d < slots.length, Reaches slots h d → ∀ k v, slots[place slots h d]? = some (.entry k v) →
    (k == key) = false

/-- What a search may say. -/
def Probe.Right (slots : Table κ β) (key : κ) (h : Nat) : Probe → Prop
  | .found i => ∃ k v, slots[i]? = some (.entry k v) ∧ (k == key) = true
  | .absent i => Missing slots key h ∧
      (slots[i]? = some .empty ∨ slots[i]? = some .tombstone) ∧
        ∃ d < slots.length, place slots h d = i ∧ Reaches slots h d
  | .full => Missing slots key h ∧ ∀ i, ∀ hi : i < slots.length, ∃ k v, slots[i] = .entry k v

/-- Where a search stands after some steps without having found anything. -/
structure Passed (slots : Table κ β) (key : κ) (h d : Nat) (t : Option Nat) : Prop where
  reaches : Reaches slots h d
  differs : ∀ e < d, ∀ k v, slots[place slots h e]? = some (.entry k v) → (k == key) = false
  first : ∀ i, t = some i → slots[i]? = some .tombstone ∧ ∃ e < d, place slots h e = i
  noTombstone : t = none → ∀ e < d, slots[place slots h e]? ≠ some .tombstone

theorem Passed.start (slots : Table κ β) (key : κ) (h : Nat) : Passed slots key h 0 none where
  reaches := fun e he => absurd he (Nat.not_lt_zero e)
  differs := fun e he => absurd he (Nat.not_lt_zero e)
  first := by simp
  noTombstone := fun _ e he => absurd he (Nat.not_lt_zero e)

theorem Passed.entry {h d : Nat} {t : Option Nat} (hp : Passed slots key h d t) {k : κ} {v : β}
    (hslot : slots[place slots h d]? = some (.entry k v)) (hk : (k == key) = false) :
    Passed slots key h (d + 1) t where
  reaches := hp.reaches.succ (by rw [hslot]; simp)
  differs := by
    intro e he k' v' hs
    by_cases hed : e = d
    · rw [hed, hslot, Option.some.injEq, Slot.entry.injEq] at hs
      rw [← hs.1]
      exact hk
    · exact hp.differs e (by omega) k' v' hs
  first := by
    intro i hi
    obtain ⟨hs, e, he, hplace⟩ := hp.first i hi
    exact ⟨hs, e, by omega, hplace⟩
  noTombstone := by
    intro ht e he
    by_cases hed : e = d
    · rw [hed, hslot]
      simp
    · exact hp.noTombstone ht e (by omega)

theorem Passed.tomb {h d : Nat} {t : Option Nat} (hp : Passed slots key h d t)
    (hslot : slots[place slots h d]? = some .tombstone) :
    Passed slots key h (d + 1) (t <|> some (place slots h d)) where
  reaches := hp.reaches.succ (by rw [hslot]; simp)
  differs := by
    intro e he k v hs
    by_cases hed : e = d
    · rw [hed, hslot] at hs
      simp at hs
    · exact hp.differs e (by omega) k v hs
  first := by
    intro i hi
    cases t with
    | none =>
        obtain rfl : place slots h d = i := by simpa using hi
        exact ⟨hslot, d, by omega, rfl⟩
    | some j =>
        obtain ⟨hs, e, he, hplace⟩ := hp.first i hi
        exact ⟨hs, e, by omega, hplace⟩
  noTombstone := by
    intro ht
    cases t with
    | none => simp at ht
    | some j => simp at ht

/-- The way of a key goes past the slots that were passed. -/
theorem Passed.missing {h d : Nat} {t : Option Nat} (hp : Passed slots key h d t)
    (hend : d = slots.length ∨ slots[place slots h d]? = some .empty) : Missing slots key h := by
  intro e he hreach k v hs
  by_cases hed : e < d
  · exact hp.differs e hed k v hs
  · rcases hend with hd | hempty
    · omega
    · by_cases heq : e = d
      · rw [heq, hempty] at hs
        simp at hs
      · exact absurd hempty (hreach d (by omega))

theorem walk_right (n d h : Nat) (t : Option Nat) (hlen : 0 < slots.length)
    (hn : d + n = slots.length) (hp : Passed slots key h d t) :
    (walk slots key n (place slots h d) t).Right slots key h := by
  induction n generalizing d t with
  | zero =>
      have hmissing := hp.missing (Or.inl (by omega))
      cases t with
      | some i =>
          obtain ⟨hs, e, he, hplace⟩ := hp.first i rfl
          exact ⟨hmissing, Or.inr hs, e, by omega, hplace, hp.reaches.mono (by omega)⟩
      | none =>
          refine ⟨hmissing, fun i hi => ?_⟩
          obtain ⟨e, he, hplace⟩ := exists_place h hi
          have hne := hp.reaches e (by omega)
          have hnt := hp.noTombstone rfl e (by omega)
          rw [hplace, List.getElem?_eq_getElem hi] at hne hnt
          cases hs : slots[i] with
          | empty => rw [hs] at hne; simp at hne
          | tombstone => rw [hs] at hnt; simp at hnt
          | entry k v => exact ⟨k, v, rfl⟩
  | succ n ih =>
      have hlt := place_lt h d hlen
      unfold walk
      cases hs : slots[place slots h d]? with
      | none => simp at hs; omega
      | some slot =>
          cases slot with
          | entry k v =>
              simp only
              by_cases hk : (k == key) = true
              · rw [if_pos hk]
                exact ⟨k, v, hs, hk⟩
              · rw [if_neg hk, place_succ]
                exact ih (d + 1) t (by omega) (hp.entry hs (by simpa using hk))
          | tombstone =>
              simp only
              rw [place_succ]
              exact ih (d + 1) _ (by omega) (hp.tomb hs)
          | empty =>
              simp only
              have hmissing := hp.missing (Or.inr hs)
              cases t with
              | none => exact ⟨hmissing, Or.inl hs, d, by omega, rfl, hp.reaches⟩
              | some i =>
                  obtain ⟨htomb, e, he, hplace⟩ := hp.first i rfl
                  exact ⟨hmissing, Or.inr htomb, e, by omega, hplace, hp.reaches.mono (by omega)⟩

/-- **What a search says is right.** -/
theorem find_right (hlen : 0 < slots.length) :
    (find hash slots key).Right slots key (hash key) :=
  walk_right slots.length 0 (hash key) none hlen (Nat.zero_add _) (Passed.start slots key _)

end Find

/-! ### Association lists -/

section Assoc

variable [BEq κ]

/-- No two entries have equal keys. -/
def Distinct (l : List (κ × β)) : Prop := l.Pairwise fun a b => (a.1 == b.1) = false

def assoc (l : List (κ × β)) (key : κ) : Option β :=
  (l.find? fun e => e.1 == key).map Prod.snd

/-- A new value for a key; the key that was there stays. -/
def assign (l : List (κ × β)) (key : κ) (value : β) : List (κ × β) :=
  if l.any fun e => e.1 == key then l.map fun e => if e.1 == key then (e.1, value) else e
  else l ++ [(key, value)]

def unassign (l : List (κ × β)) (key : κ) : List (κ × β) := l.filter fun e => !(e.1 == key)

variable {l l' : List (κ × β)} {key : κ}

theorem mem_of_mem_unassign {e : κ × β} (h : e ∈ unassign l key) : e ∈ l :=
  (List.mem_filter.mp h).1

theorem assoc_eq_none_iff : assoc l key = none ↔ ∀ e ∈ l, (e.1 == key) = false := by
  unfold assoc
  rw [Option.map_eq_none_iff, List.find?_eq_none]
  simp

theorem any_eq_isSome : (l.any fun e => e.1 == key) = (assoc l key).isSome := by
  cases hassoc : assoc l key with
  | none =>
      rw [assoc_eq_none_iff] at hassoc
      simpa using hassoc
  | some v =>
      unfold assoc at hassoc
      obtain ⟨e, he, -⟩ := Option.map_eq_some_iff.mp hassoc
      rw [Option.isSome_some, List.any_eq_true]
      exact ⟨e, List.mem_of_find?_eq_some he, by simpa using List.find?_some he⟩

theorem assign_of_none (h : assoc l key = none) (value : β) :
    assign l key value = l ++ [(key, value)] := by
  unfold assign
  rw [any_eq_isSome, h]
  rfl

theorem assign_perm (hp : l.Perm l') (value : β) :
    (assign l key value).Perm (assign l' key value) := by
  unfold assign
  rw [hp.any_eq]
  split
  · exact hp.map _
  · exact hp.append_right _

theorem unassign_perm (hp : l.Perm l') : (unassign l key).Perm (unassign l' key) := hp.filter _

theorem length_assign (value : β) : (assign l key value).length
    = if (assoc l key).isSome then l.length else l.length + 1 := by
  unfold assign
  rw [any_eq_isSome]
  by_cases h : (assoc l key).isSome = true
  · rw [if_pos h, if_pos h, List.length_map]
  · rw [if_neg h, if_neg h, List.length_append, List.length_singleton]

/-- The keys of an assignment are those there were, and the new one. -/
theorem exists_of_mem_assign {value : β} {e : κ × β} (h : e ∈ assign l key value) :
    e.1 = key ∨ ∃ e' ∈ l, e'.1 = e.1 := by
  unfold assign at h
  split at h
  · obtain ⟨e', he', rfl⟩ := List.mem_map.mp h
    exact Or.inr ⟨e', he', by split <;> rfl⟩
  · rcases List.mem_append.mp h with he | he
    · exact Or.inr ⟨e, he, rfl⟩
    · rw [List.mem_singleton.mp he]
      exact Or.inl rfl

theorem unassign_of_none (h : assoc l key = none) : unassign l key = l := by
  unfold unassign
  rw [List.filter_eq_self]
  intro e he
  rw [assoc_eq_none_iff.mp h e he]
  rfl

/-- A map that keeps the keys keeps what is looked up by them. -/
theorem assoc_map (f : κ × β → κ × β) (hf : ∀ e, (f e).1 = e.1) (l : List (κ × β)) (key : κ) :
    assoc (l.map f) key = (l.find? fun e => e.1 == key).map fun e => (f e).2 := by
  unfold assoc
  rw [List.find?_map]
  simp [Function.comp_def, hf]

variable [EquivBEq κ]

/-- Keys that equal the same key are equal. -/
theorem beq_of_beq {a b : κ} (ha : (a == key) = true) (hb : (b == key) = true) :
    (a == b) = true := BEq.trans ha (BEq.symm hb)

theorem Distinct.perm (h : Distinct l) (hp : l.Perm l') : Distinct l' :=
  hp.pairwise h fun {_ _} hab => BEq.symm_false hab

theorem assoc_eq_some_iff (h : Distinct l) {v : β} :
    assoc l key = some v ↔ ∃ k, (k, v) ∈ l ∧ (k == key) = true := by
  induction l with
  | nil => simp [assoc]
  | cons e l ih =>
      obtain ⟨hhead, htail⟩ := List.pairwise_cons.mp h
      unfold assoc at ih ⊢
      rw [List.find?_cons]
      by_cases hk : (e.1 == key) = true
      · simp only [hk]
        rw [Option.map_some, Option.some.injEq]
        constructor
        · intro hv
          exact ⟨e.1, by rw [← hv]; exact List.mem_cons_self, hk⟩
        · rintro ⟨k, hmem, hkk⟩
          rcases List.mem_cons.mp hmem with heq | hmem
          · rw [← heq]
          · have hne := hhead _ hmem
            rw [beq_of_beq hk hkk] at hne
            exact Bool.noConfusion hne
      · simp only [Bool.eq_false_of_not_eq_true hk]
        rw [ih htail]
        refine exists_congr fun k => and_congr_left fun hkk => ?_
        rw [List.mem_cons]
        refine (or_iff_right fun heq => hk ?_).symm
        rw [← heq]
        exact hkk

/-- One entry less, if there was one. -/
theorem length_unassign (h : Distinct l) (hassoc : (assoc l key).isSome) :
    (unassign l key).length + 1 = l.length := by
  induction l with
  | nil => simp [assoc] at hassoc
  | cons e l ih =>
      obtain ⟨hhead, htail⟩ := List.pairwise_cons.mp h
      unfold unassign at ih ⊢
      by_cases hk : (e.1 == key) = true
      · have hnone : assoc l key = none := by
          rw [assoc_eq_none_iff]
          intro e' he'
          refine Bool.eq_false_of_not_eq_true fun hek => ?_
          have hne := hhead e' he'
          rw [beq_of_beq hk hek] at hne
          exact Bool.noConfusion hne
        rw [List.filter_cons_of_neg (by simpa using hk), List.length_cons]
        exact congrArg (fun l => l.length + 1) (unassign_of_none hnone)
      · rw [List.filter_cons_of_pos (by simpa using hk), List.length_cons, List.length_cons]
        refine congrArg (· + 1) (ih htail ?_)
        unfold assoc at hassoc ⊢
        rwa [List.find?_cons_of_neg (by simpa using hk)] at hassoc

/-- The value of a key after an assignment. -/
theorem assoc_assign (value : β) (k : κ) :
    assoc (assign l key value) k = if (key == k) = true then some value else assoc l k := by
  unfold assign
  split
  · rename_i hany
    rw [assoc_map _ fun e => by split <;> rfl]
    by_cases hk : (key == k) = true
    · rw [if_pos hk]
      rw [any_eq_isSome] at hany
      obtain ⟨v, hv⟩ := Option.isSome_iff_exists.mp hany
      obtain ⟨e, he, -⟩ := Option.map_eq_some_iff.mp hv
      have hsame : (l.find? fun e => e.1 == k) = some e := by
        rw [← he]
        refine congrArg (fun p => l.find? p) (funext fun e => ?_)
        rw [Bool.eq_iff_iff]
        exact ⟨fun h => beq_of_beq h hk, fun h => BEq.trans h hk⟩
      have hkey : (e.1 == key) = true := by simpa using List.find?_some he
      rw [hsame, Option.map_some, if_pos hkey]
    · rw [if_neg hk]
      unfold assoc
      cases hfind : l.find? fun e => e.1 == k with
      | none => rfl
      | some e =>
          have hek : (e.1 == k) = true := by simpa using List.find?_some hfind
          have hne : ¬ (e.1 == key) = true := fun h => hk (BEq.trans (BEq.symm h) hek)
          rw [Option.map_some, Option.map_some, if_neg hne]
  · rename_i hany
    rw [any_eq_isSome, Option.not_isSome_iff_eq_none, assoc_eq_none_iff] at hany
    unfold assoc
    rw [List.find?_append]
    by_cases hk : (key == k) = true
    · have hnone : (l.find? fun e => e.1 == k) = none := by
        rw [List.find?_eq_none]
        intro e he hek
        have hne := hany e he
        rw [beq_of_beq hek hk] at hne
        exact Bool.noConfusion hne
      rw [hnone, if_pos hk]
      simp [hk]
    · rw [if_neg hk]
      simp [hk]

theorem assoc_unassign (k : κ) :
    assoc (unassign l key) k = if (key == k) = true then none else assoc l k := by
  unfold unassign
  by_cases hk : (key == k) = true
  · rw [if_pos hk, assoc_eq_none_iff]
    intro e he
    obtain ⟨-, hne⟩ := List.mem_filter.mp he
    refine Bool.eq_false_of_not_eq_true fun hek => ?_
    rw [beq_of_beq hek hk] at hne
    exact Bool.noConfusion hne
  · rw [if_neg hk]
    unfold assoc
    rw [List.find?_filter]
    refine congrArg (fun p => (l.find? p).map Prod.snd) (funext fun e => ?_)
    by_cases hek : (e.1 == k) = true
    · have hne : (e.1 == key) = false :=
        Bool.eq_false_of_not_eq_true fun h => hk (BEq.trans (BEq.symm h) hek)
      simp [hek, hne]
    · simp [hek]

end Assoc

/-! ### Tables -/

section Table

/-- Every entry is on the way of its key, and no two entries have equal keys. -/
structure WellPlaced [BEq κ] (hash : κ → Nat) (slots : Table κ β) : Prop where
  reach : ∀ (i : Nat) k v, slots[i]? = some (.entry k v) →
    ∃ d < slots.length, place slots (hash k) d = i ∧ Reaches slots (hash k) d
  distinct : ∀ (i j : Nat) k v k' v', slots[i]? = some (.entry k v) →
    slots[j]? = some (.entry k' v') → (k == k') = true → i = j

theorem content_eq_some {s : Slot κ β} {e : κ × β} (h : s.content = some e) :
    s = .entry e.1 e.2 := by
  cases s with
  | empty => simp [Slot.content] at h
  | tombstone => simp [Slot.content] at h
  | entry k v =>
      rw [Slot.content, Option.some.injEq] at h
      rw [← h]

theorem mem_contents {slots : Table κ β} {k : κ} {v : β} :
    (k, v) ∈ contents slots ↔ ∃ i : Nat, slots[i]? = some (.entry k v) := by
  unfold contents
  rw [List.mem_filterMap]
  constructor
  · rintro ⟨s, hs, hc⟩
    obtain ⟨i, hi⟩ := List.mem_iff_getElem?.mp hs
    exact ⟨i, by rw [hi, content_eq_some hc]⟩
  · rintro ⟨i, hi⟩
    exact ⟨_, List.mem_of_getElem? hi, rfl⟩

/-- The entries of the other slots. -/
def others (slots : Table κ β) (i : Nat) : List (κ × β) :=
  contents (slots.take i) ++ contents (slots.drop (i + 1))

theorem contents_split {slots : Table κ β} {i : Nat} {s : Slot κ β} (h : slots[i]? = some s) :
    (contents slots).Perm (s.content.toList ++ others slots i) := by
  obtain ⟨hi, hs⟩ := List.getElem?_eq_some_iff.mp h
  have hsplit : slots = slots.take i ++ (s :: slots.drop (i + 1)) := by
    rw [← hs, List.cons_getElem_drop_succ, List.take_append_drop]
  have hcons : contents (s :: slots.drop (i + 1))
      = s.content.toList ++ contents (slots.drop (i + 1)) := by
    unfold contents
    cases hc : s.content with
    | none => rw [List.filterMap_cons_none hc]; rfl
    | some e => rw [List.filterMap_cons_some hc]; rfl
  have hall : contents slots = contents (slots.take i) ++
      (s.content.toList ++ contents (slots.drop (i + 1))) := by
    rw [← hcons]
    conv_lhs => rw [hsplit]
    exact List.filterMap_append
  rw [hall, others, ← List.append_assoc, ← List.append_assoc]
  exact List.perm_append_comm.append_right _

theorem contents_set {slots : Table κ β} {i : Nat} (hi : i < slots.length) (s : Slot κ β) :
    (contents (slots.set i s)).Perm (s.content.toList ++ others slots i) := by
  have hget : (slots.set i s)[i]? = some s := by simp [hi]
  have hsplit := contents_split hget
  have hothers : others (slots.set i s) i = others slots i := by
    unfold others
    rw [List.take_set_of_le (Nat.le_refl i), List.drop_set_of_lt (Nat.lt_succ_self i)]
  rw [hothers] at hsplit
  exact hsplit

/-- A table of entries only has as many as slots. -/
theorem length_contents_of_full {slots : Table κ β}
    (h : ∀ i, ∀ hi : i < slots.length, ∃ k v, slots[i] = .entry k v) :
    (contents slots).length = slots.length := by
  refine List.filterMap_length_eq_length.mpr fun s hs => ?_
  obtain ⟨i, hi, rfl⟩ := List.mem_iff_getElem.mp hs
  obtain ⟨k, v, hkv⟩ := h i hi
  rw [hkv]
  rfl

variable [BEq κ] {hash : κ → Nat} {slots : Table κ β} {l : List (κ × β)} {key : κ}

theorem WellPlaced.distinct_contents (h : WellPlaced hash slots) : Distinct (contents slots) := by
  unfold Distinct contents
  rw [List.pairwise_filterMap, List.pairwise_iff_getElem]
  intro i j hi hj hij a ha b hb
  refine Bool.eq_false_of_not_eq_true fun hk => ?_
  have heq := h.distinct i j a.1 a.2 b.1 b.2
    (by rw [List.getElem?_eq_getElem hi, content_eq_some ha])
    (by rw [List.getElem?_eq_getElem hj, content_eq_some hb]) hk
  omega

/-- A key that is missing on its way is in no slot. -/
theorem WellPlaced.missing (h : WellPlaced hash slots) (hm : Missing slots key (hash key))
    (hhash : ∀ e ∈ contents slots, (e.1 == key) = true → hash e.1 = hash key) :
    ∀ e ∈ contents slots, (e.1 == key) = false := by
  intro e he
  obtain ⟨i, hi⟩ := mem_contents.mp he
  obtain ⟨d, hd, hplace, hreach⟩ := h.reach i e.1 e.2 hi
  refine Bool.eq_false_of_not_eq_true fun hk => ?_
  rw [hhash e he hk] at hplace hreach
  have hne := hm d hd hreach e.1 e.2 (by rw [hplace]; exact hi)
  rw [hk] at hne
  exact Bool.noConfusion hne

/-- Another value behind the same key. -/
theorem WellPlaced.setValue (h : WellPlaced hash slots) {i : Nat} {k : κ} {v : β}
    (hslot : slots[i]? = some (.entry k v)) (value : β) :
    WellPlaced hash (slots.set i (.entry k value)) := by
  -- an entry of the new table is at a place of the old one, with the same key
  have hold : ∀ (j : Nat) k' v', (slots.set i (.entry k value))[j]? = some (.entry k' v') →
      ∃ w, slots[j]? = some (.entry k' w) := by
    intro j k' v' hj
    rw [List.getElem?_set] at hj
    by_cases hij : i = j
    · subst hij
      rw [if_pos rfl] at hj
      split at hj
      · rw [Option.some.injEq, Slot.entry.injEq] at hj
        exact ⟨v, by rw [hslot, hj.1]⟩
      · simp at hj
    · rw [if_neg hij] at hj
      exact ⟨v', hj⟩
  constructor
  · intro j k' v' hj
    obtain ⟨w, hw⟩ := hold j k' v' hj
    obtain ⟨d, hd, hplace, hreach⟩ := h.reach j k' w hw
    exact ⟨d, by simpa using hd, by simpa [place] using hplace, hreach.set (by simp)⟩
  · intro j j' k₁ v₁ k₂ v₂ h₁ h₂ hk
    obtain ⟨w₁, hw₁⟩ := hold j k₁ v₁ h₁
    obtain ⟨w₂, hw₂⟩ := hold j' k₂ v₂ h₂
    exact h.distinct j j' k₁ w₁ k₂ w₂ hw₁ hw₂ hk

/-- An entry that is taken out. -/
theorem WellPlaced.setTombstone (h : WellPlaced hash slots) (i : Nat) :
    WellPlaced hash (slots.set i .tombstone) := by
  have hold : ∀ (j : Nat) k' v', (slots.set i .tombstone)[j]? = some (.entry k' v') →
      slots[j]? = some (.entry k' v') := by
    intro j k' v' hj
    rw [List.getElem?_set] at hj
    split at hj
    · split at hj <;> simp at hj
    · exact hj
  constructor
  · intro j k' v' hj
    obtain ⟨e, he, hplace, hreach⟩ := h.reach j k' v' (hold j k' v' hj)
    exact ⟨e, by simpa using he, by simpa [place] using hplace, hreach.set (by simp)⟩
  · intro j j' k₁ v₁ k₂ v₂ h₁ h₂ hk
    exact h.distinct j j' k₁ v₁ k₂ v₂ (hold j k₁ v₁ h₁) (hold j' k₂ v₂ h₂) hk

/-- The table stands for the list. -/
structure Represents (hash : κ → Nat) (slots : Table κ β) (l : List (κ × β)) : Prop where
  placed : WellPlaced hash slots
  perm : (contents slots).Perm l

theorem represents_empty (hash : κ → Nat) (n : Nat) :
    Represents hash (List.replicate n (Slot.empty : Slot κ β)) [] where
  placed := by
    have hget : ∀ (i : Nat) k v, (List.replicate n (Slot.empty : Slot κ β))[i]? ≠ some (.entry k v) := by
      intro i k v h
      rw [List.getElem?_replicate] at h
      split at h <;> simp at h
    exact ⟨fun i k v h => absurd h (hget i k v), fun i j k v k' v' h => absurd h (hget i k v)⟩
  perm := by
    rw [contents, List.filterMap_replicate]
    rfl

variable [EquivBEq κ]

theorem Represents.distinct (h : Represents hash slots l) : Distinct l :=
  h.placed.distinct_contents.perm h.perm

/-- A new entry on the way of its key. -/
theorem WellPlaced.setEntry (h : WellPlaced hash slots) {d i : Nat} (hd : d < slots.length)
    (hplace : place slots (hash key) d = i) (hreach : Reaches slots (hash key) d)
    (hnew : ∀ e ∈ contents slots, (e.1 == key) = false) (value : β) :
    WellPlaced hash (slots.set i (.entry key value)) := by
  have hold : ∀ (j : Nat) k' v', (slots.set i (.entry key value))[j]? = some (.entry k' v') →
      (j = i ∧ k' = key) ∨ slots[j]? = some (.entry k' v') := by
    intro j k' v' hj
    rw [List.getElem?_set] at hj
    by_cases hij : i = j
    · subst hij
      rw [if_pos rfl] at hj
      split at hj
      · rw [Option.some.injEq, Slot.entry.injEq] at hj
        exact Or.inl ⟨rfl, hj.1.symm⟩
      · simp at hj
    · rw [if_neg hij] at hj
      exact Or.inr hj
  have hdiffers : ∀ (j : Nat) k' v', slots[j]? = some (.entry k' v') → (k' == key) = false :=
    fun j k' v' hj => hnew (k', v') (mem_contents.mpr ⟨j, hj⟩)
  constructor
  · intro j k' v' hj
    rcases hold j k' v' hj with ⟨rfl, rfl⟩ | hj
    · exact ⟨d, by simpa using hd, by simpa [place] using hplace, hreach.set (by simp)⟩
    · obtain ⟨e, he, hplace', hreach'⟩ := h.reach j k' v' hj
      exact ⟨e, by simpa using he, by simpa [place] using hplace', hreach'.set (by simp)⟩
  · intro j j' k₁ v₁ k₂ v₂ h₁ h₂ hk
    rcases hold j k₁ v₁ h₁ with ⟨rfl, rfl⟩ | hfst
    · rcases hold j' k₂ v₂ h₂ with ⟨rfl, rfl⟩ | h₂
      · rfl
      · have hne := hdiffers j' k₂ v₂ h₂
        rw [BEq.symm hk] at hne
        exact Bool.noConfusion hne
    · rcases hold j' k₂ v₂ h₂ with ⟨rfl, rfl⟩ | h₂
      · have hne := hdiffers j k₁ v₁ hfst
        rw [hk] at hne
        exact Bool.noConfusion hne
      · exact h.distinct j j' k₁ v₁ k₂ v₂ hfst h₂ hk

/-! ### The operations -/

/-- **To take an entry out** of a table is to take it out of the list. -/
theorem Represents.remove (h : Represents hash slots l) {i : Nat} {k : κ} {v : β}
    (hslot : slots[i]? = some (.entry k v)) (hk : (k == key) = true) :
    Represents hash (slots.set i .tombstone) (unassign l key) := by
  obtain ⟨hi, -⟩ := List.getElem?_eq_some_iff.mp hslot
  refine ⟨h.placed.setTombstone i, ?_⟩
  have hsplit := contents_split hslot
  have hdistinct := h.placed.distinct_contents.perm hsplit
  have hothers : unassign ((k, v) :: others slots i) key = others slots i := by
    unfold unassign
    rw [List.filter_cons_of_neg (by simpa using hk), List.filter_eq_self]
    intro e he
    have hne := (List.pairwise_cons.mp hdistinct).1 e he
    rw [Bool.not_eq_true', ← Bool.not_eq_true]
    intro hek
    rw [beq_of_beq hk hek] at hne
    exact Bool.noConfusion hne
  have hperm : (unassign l key).Perm _ := unassign_perm (h.perm.symm.trans hsplit)
  rw [show (Slot.entry k v).content.toList ++ others slots i = (k, v) :: others slots i from rfl,
    hothers] at hperm
  exact (contents_set hi _).trans hperm.symm

/-- **What a search in a table finds** is what the list has. -/
theorem Represents.find (h : Represents hash slots l) (hlen : 0 < slots.length)
    (hhash : ∀ e ∈ l, (e.1 == key) = true → hash e.1 = hash key) :
    (∃ i k v, find hash slots key = .found i ∧ slots[i]? = some (.entry k v) ∧
      (k == key) = true ∧ assoc l key = some v) ∨
    (assoc l key = none ∧ ∃ i, find hash slots key = .absent i ∧
      (slots[i]? = some .empty ∨ slots[i]? = some .tombstone) ∧
        ∃ d < slots.length, place slots (hash key) d = i ∧ Reaches slots (hash key) d) ∨
    (assoc l key = none ∧ find hash slots key = .full ∧ l.length = slots.length) := by
  have hright : (Probing.find hash slots key).Right slots key (hash key) := find_right hlen
  have hnone : Missing slots key (hash key) → assoc l key = none := by
    intro hm
    rw [assoc_eq_none_iff]
    intro e he
    exact h.placed.missing hm (fun e he => hhash e (h.perm.mem_iff.mp he)) e
      (h.perm.mem_iff.mpr he)
  cases hfind : Probing.find hash slots key with
  | found i =>
      rw [hfind] at hright
      obtain ⟨k, v, hslot, hk⟩ := hright
      refine Or.inl ⟨i, k, v, rfl, hslot, hk, ?_⟩
      rw [assoc_eq_some_iff h.distinct]
      exact ⟨k, h.perm.mem_iff.mp (mem_contents.mpr ⟨i, hslot⟩), hk⟩
  | absent i =>
      rw [hfind] at hright
      exact Or.inr (Or.inl ⟨hnone hright.1, i, rfl, hright.2⟩)
  | full =>
      rw [hfind] at hright
      have hlength := length_contents_of_full hright.2
      rw [h.perm.length_eq] at hlength
      exact Or.inr (Or.inr ⟨hnone hright.1, rfl, hlength⟩)

/-- **To put an entry** into a table with room for it is to assign it in the list. -/
theorem Represents.put (h : Represents hash slots l) (hlen : 0 < slots.length)
    (hhash : ∀ e ∈ l, (e.1 == key) = true → hash e.1 = hash key)
    (hroom : l.length < slots.length ∨ (assoc l key).isSome) (value : β) :
    ∃ slots', put hash slots key value = some ((assoc l key).isNone, slots') ∧
      slots'.length = slots.length ∧ Represents hash slots' (assign l key value) := by
  unfold Probing.put
  rcases h.find hlen hhash with ⟨i, k, v, hfind, hslot, hk, hassoc⟩ |
    ⟨hassoc, i, hfind, hslot, d, hd, hplace, hreach⟩ | ⟨hassoc, hfind, hfull⟩
  · obtain ⟨hi, hget⟩ := List.getElem?_eq_some_iff.mp hslot
    have hset : slots.set i (.entry k value)
        = slots.modify i (Slot.setValue value) := by
      rw [List.modify_eq_set_getElem?, hslot]
      rfl
    rw [hfind, hassoc]
    refine ⟨slots.set i (.entry k value), by rw [hset]; rfl, List.length_set,
      h.placed.setValue hslot value, ?_⟩
    have hsplit := contents_split hslot
    have hdistinct := h.placed.distinct_contents.perm hsplit
    have hothers : ∀ e ∈ others slots i, (e.1 == key) = false := by
      intro e he
      have hne := (List.pairwise_cons.mp hdistinct).1 e he
      refine Bool.eq_false_of_not_eq_true fun hek => ?_
      rw [beq_of_beq hk hek] at hne
      exact Bool.noConfusion hne
    have hassign : assign ((k, v) :: others slots i) key value
        = (k, value) :: others slots i := by
      unfold assign
      rw [List.any_cons, hk, Bool.true_or, if_pos rfl, List.map_cons, if_pos hk]
      refine congrArg _ ?_
      conv_rhs => rw [← List.map_id (others slots i)]
      refine List.map_congr_left fun e he => ?_
      rw [hothers e he]
      rfl
    have hperm : (assign l key value).Perm _ := assign_perm (h.perm.symm.trans hsplit) value
    rw [show (Slot.entry k v).content.toList ++ others slots i = (k, v) :: others slots i from rfl,
      hassign] at hperm
    exact (contents_set hi _).trans hperm.symm
  · have hi : i < slots.length := hplace ▸ place_lt _ d hlen
    rw [hfind, hassoc]
    have hnew : ∀ e ∈ contents slots, (e.1 == key) = false := by
      intro e he
      exact assoc_eq_none_iff.mp hassoc e (h.perm.mem_iff.mp he)
    refine ⟨_, rfl, List.length_set, h.placed.setEntry hd hplace hreach hnew value, ?_⟩
    have hsplit : (contents slots).Perm (others slots i) := by
      rcases hslot with hslot | hslot
      · exact contents_split hslot
      · exact contents_split hslot
    rw [assign_of_none hassoc]
    refine (contents_set hi _).trans ?_
    exact ((hsplit.symm.trans h.perm).cons _).trans (List.perm_append_singleton _ _).symm
  · rw [hassoc] at hroom
    simp at hroom
    omega

/-- **A table with room takes all the entries** of another. -/
theorem Represents.refill {entries : List (κ × β)} (h : Represents hash slots l)
    (hlen : 0 < slots.length) (hdistinct : Distinct (l ++ entries))
    (hroom : (l ++ entries).length ≤ slots.length) :
    ∃ slots', refill hash entries slots = some slots' ∧ slots'.length = slots.length ∧
      Represents hash slots' (l ++ entries) := by
  induction entries generalizing slots l with
  | nil => exact ⟨slots, rfl, rfl, by simpa using h⟩
  | cons e entries ih =>
      have hne : ∀ a ∈ l, (a.1 == e.1) = false := by
        intro a ha
        exact (List.pairwise_append.mp hdistinct).2.2 a ha e List.mem_cons_self
      have hnone : assoc l e.1 = none := assoc_eq_none_iff.mpr hne
      rw [List.length_append, List.length_cons] at hroom
      obtain ⟨slots₁, hput, hlen₁, h₁⟩ :=
        h.put hlen (fun a ha hk => by rw [hne a ha] at hk; exact Bool.noConfusion hk)
          (Or.inl (by omega)) e.2
      rw [assign_of_none hnone] at h₁
      have hcons : l ++ e :: entries = (l ++ [(e.1, e.2)]) ++ entries := by simp
      rw [hcons] at hdistinct ⊢
      obtain ⟨slots', hrefill, hlen', h'⟩ := ih h₁ (by omega) hdistinct
        (by rw [List.length_append, List.length_append, List.length_singleton]; omega)
      refine ⟨slots', ?_, by omega, h'⟩
      unfold Probing.refill at hrefill ⊢
      rw [List.foldlM_cons, hput]
      exact hrefill

end Table

end Probing
