/-
A map of Wren is a finite map.

Under the calls of a program, in whatever order, it answers as an association list does, as
long as it never holds more than 25165824 keys: from there on the product that the load is
computed with does not fit into 32 bits.  Up to there at least a quarter of the slots is
free, so that every search ends and no assertion fails.

Equal keys must have equal hashes.  They do, but for ranges: `0..1` and `-0..1` are equal,
and their hashes are not.
-/
import Wrenegade.Model.ObjMap
import Wrenegade.Proofs.Primitive

namespace Wrenegade

namespace WrenVM

open Double Probing

variable {heap : Heap}

/-! ### Equality of keys -/

theorem ObjRange.equal_symm (a b : ObjRange) : a.equal b = b.equal a := by
  unfold ObjRange.equal
  rw [Double.equal_symm a.from_, Double.equal_symm a.to_, Bool.beq_comm]

theorem ObjRange.equal_trans {a b c : ObjRange} (hab : a.equal b = true) (hbc : b.equal c = true) :
    a.equal c = true := by
  unfold ObjRange.equal at hab hbc ⊢
  rw [Bool.and_eq_true, Bool.and_eq_true, beq_iff_eq] at hab hbc ⊢
  exact ⟨⟨Double.equal_trans hab.1.1 hbc.1.1, Double.equal_trans hab.1.2 hbc.1.2⟩,
    hab.2.trans hbc.2⟩

theorem Obj.equal_symm (a b : Obj) : a.equal b = b.equal a := by
  cases a <;> cases b <;> try rfl
  · exact ObjRange.equal_symm _ _
  · simp only [Obj.equal, eq_comm]

theorem Obj.equal_trans {a b c : Obj} (hab : a.equal b = true) (hbc : b.equal c = true) :
    a.equal c = true := by
  cases a <;> cases b <;> try simp [Obj.equal] at hab
  · cases c <;> try simp [Obj.equal] at hbc
    exact ObjRange.equal_trans hab hbc
  · subst hab
    exact hbc

theorem wrenValuesEqual_iff {a b : Value} : wrenValuesEqual heap a b = true ↔
    a = b ∨ ∃ i j, a = .obj i ∧ b = .obj j ∧ (heap i).equal (heap j) = true := by
  unfold wrenValuesEqual
  by_cases hab : a = b
  · simp [hab]
  · rw [if_neg hab]
    cases a <;> cases b <;> simp [hab]
    simp at hab

instance : EquivBEq (Key heap) where
  rfl {a} := wrenValuesEqual_iff.mpr (Or.inl rfl)
  symm {a b} hab := by
    rcases wrenValuesEqual_iff.mp hab with heq | ⟨i, j, ha, hb, hobj⟩
    · exact wrenValuesEqual_iff.mpr (Or.inl heq.symm)
    · rw [Obj.equal_symm] at hobj
      exact wrenValuesEqual_iff.mpr (Or.inr ⟨j, i, hb, ha, hobj⟩)
  trans {a b c} hab hbc := by
    rcases wrenValuesEqual_iff.mp hab with heq | ⟨i, j, ha, hb, hobj⟩
    · show wrenValuesEqual heap a.val c.val = true
      rw [heq]
      exact hbc
    · rcases wrenValuesEqual_iff.mp hbc with heq | ⟨j', k, hb', hc, hobj'⟩
      · show wrenValuesEqual heap a.val c.val = true
        rw [← heq]
        exact hab
      · obtain rfl : j = j' := by
          rw [hb] at hb'
          exact Value.obj.inj hb'
        exact wrenValuesEqual_iff.mpr (Or.inr ⟨i, k, ha, hc, Obj.equal_trans hobj hobj'⟩)

/-! ### Hashes of keys -/

/-- No range begins or ends at the negative zero. -/
def Obj.Regular : Obj → Prop
  | .range r => r.from_ ≠ negativeZero ∧ r.to_ ≠ negativeZero
  | _ => True

theorem hashObject_eq {char : CharKind} {a b : Obj} (h : a.equal b = true) (ha : a.Regular)
    (hb : b.Regular) : hashObject char a = hashObject char b := by
  cases a <;> cases b <;> try simp [Obj.equal] at h
  · rename_i r s
    unfold ObjRange.equal at h
    rw [Bool.and_eq_true, Bool.and_eq_true] at h
    simp only [hashObject]
    rw [eq_of_equal_of_ne h.1.1 ha.1 hb.1, eq_of_equal_of_ne h.1.2 ha.2 hb.2]
  · rw [h]

def Value.Regular (heap : Heap) : Value → Prop
  | .obj address => (heap address).Regular
  | _ => True

/-- **Equal keys have equal hashes**, if no zero has a sign. -/
theorem hash_eq {char : CharKind} {a b : Key heap} (h : (a == b) = true)
    (ha : a.val.Regular heap) (hb : b.val.Regular heap) : Key.hash char a = Key.hash char b := by
  unfold Key.hash
  refine congrArg BitVec.toNat ?_
  rcases wrenValuesEqual_iff.mp h with heq | ⟨i, j, hi, hj, hobj⟩
  · rw [heq]
  · rw [hi] at ha ⊢
    rw [hj] at hb ⊢
    exact hashObject_eq hobj ha hb

/-! ### What a map is for -/

abbrev Contents (heap : Heap) := List (Key heap × Value)

/-- A call with a key; a value that may be no key changes nothing. -/
def withKey (l : Contents heap) (arg : Value) (f : Key heap → MapAnswer × Contents heap) :
    Except Text MapAnswer × Contents heap :=
  if h : isKey heap arg = true then (.ok (f ⟨arg, h⟩).1, (f ⟨arg, h⟩).2)
  else (.error "Key must be a value type.", l)

/-- What a call answers, and what it does to the contents. -/
def MapCall.spec (l : Contents heap) : MapCall → Except Text MapAnswer × Contents heap
  | .subscript arg => withKey l arg fun key => (.value ((assoc l key).getD .null), l)
  | .subscriptSetter arg value => withKey l arg fun key => (.value value, assign l key value)
  | .addCore arg value => withKey l arg fun key => (.map, assign l key value)
  | .clear => (.ok (.value .null), [])
  | .containsKey arg => withKey l arg fun key => (.value (.bool (assoc l key).isSome), l)
  | .count => (.ok (.value (.num (ofNat l.length))), l)
  | .remove arg => withKey l arg fun key =>
      (.value ((assoc l key).getD .null), unassign l key)

def specMap (heap : Heap) (l : Contents heap) : List MapCall → List (Except Text MapAnswer) × Contents heap
  | [] => ([], l)
  | call :: calls =>
      ((call.spec l).1 :: (specMap heap (call.spec l).2 calls).1, (specMap heap (call.spec l).2 calls).2)

/-- The map holds these contents, and a quarter of its slots is free. -/
structure Fits (char : CharKind) (map : ObjMap heap) (l : Contents heap) : Prop where
  represents : Represents (Key.hash char) map.entries l
  count : map.count = l.length
  load : map.count ≤ map.capacity * MAP_LOAD_PERCENT / 100
  capacity : map.capacity = 0 ∨ ∃ k ≤ 21, map.capacity = MIN_CAPACITY * 2 ^ k
  regular : ∀ e ∈ l, e.1.val.Regular heap

/-- The most keys whose load is computed without an overflow. -/
def MAX_KEYS : Nat := 25165824

/-! ### The table -/

section Table

variable {char : CharKind} {map : ObjMap heap} {l : Contents heap} {key : Key heap}

theorem Fits.hash_eq (h : Fits char map l) (hkey : key.val.Regular heap) :
    ∀ e ∈ l, (e.1 == key) = true → Key.hash char e.1 = Key.hash char key :=
  fun e he heq => WrenVM.hash_eq heq (h.regular e he) hkey

theorem insertEntry_eq {entries : Table (Key heap) Value} {value : Value}
    (hlen : 0 < entries.length) {r : Bool × Table (Key heap) Value}
    (hput : put (Key.hash char) entries key value = some r) :
    insertEntry char entries key value = .ok r := by
  unfold insertEntry
  rw [if_neg (by omega), hput]
  rfl

theorem foldlM_insertEntry {es : Contents heap} {entries entries' : Table (Key heap) Value}
    (hlen : 0 < entries.length) (hrefill : refill (Key.hash char) es entries = some entries') :
    es.foldlM (fun entries e => Prod.snd <$> insertEntry char entries e.1 e.2) entries
      = .ok entries' := by
  induction es generalizing entries with
  | nil =>
      rw [refill, List.foldlM_nil] at hrefill
      rw [List.foldlM_nil, Option.some.inj hrefill]
      rfl
  | cons e es ih =>
      rw [refill, List.foldlM_cons] at hrefill
      cases hput : put (Key.hash char) entries e.1 e.2 with
      | none =>
          rw [hput] at hrefill
          simp at hrefill
      | some r =>
          rw [hput] at hrefill
          rw [List.foldlM_cons, insertEntry_eq hlen hput]
          exact ih (by rw [put_length hput]; exact hlen) hrefill

/-- **A table with room takes over all entries.** -/
theorem resizeMap_eq (h : Represents (Key.hash char) map.entries l) {n : Nat} (hn : 0 < n)
    (hroom : l.length ≤ n) : ∃ entries, resizeMap char map n = .ok { map with entries } ∧
      entries.length = n ∧ Represents (Key.hash char) entries l := by
  have hlength := h.perm.length_eq
  obtain ⟨entries, hrefill, hlen, hrep⟩ :=
    (represents_empty (Key.hash char) n).refill (by simpa using hn)
      (by simpa using h.placed.distinct_contents) (by simp; omega)
  refine ⟨entries, ?_, by simpa using hlen, hrep.placed, hrep.perm.trans (by simpa using h.perm)⟩
  unfold resizeMap
  rw [foldlM_insertEntry (by simpa using hn) hrefill]
  rfl

theorem Fits.capacity_pos (h : Fits char map l) (hne : l ≠ []) : 0 < map.capacity := by
  have hpos := List.length_pos_of_ne_nil hne
  have hcount := h.count
  have hload := h.load
  by_contra hzero
  rw [Nat.eq_zero_of_not_pos hzero] at hload
  omega

/-- What a lookup comes to, in a map of any contents. -/
theorem findEntry_eq (h : Fits char map l) (hkey : key.val.Regular heap) :
    (∃ i k v, findEntry char map.entries key = .ok (.found i) ∧
      map.entries[i]? = some (.entry k v) ∧ (k == key) = true ∧ assoc l key = some v) ∨
    (assoc l key = none ∧ ∃ probe, findEntry char map.entries key = .ok probe ∧
      ∀ i, probe ≠ .found i) := by
  unfold findEntry
  by_cases hlen : map.entries.length = 0
  · rw [if_pos hlen]
    have hl : l = [] := by
      by_contra hne
      exact absurd hlen (h.capacity_pos hne).ne'
    exact Or.inr ⟨by rw [hl]; rfl, .full, rfl, by simp⟩
  · rw [if_neg hlen]
    rcases h.represents.find (by omega) (h.hash_eq hkey) with
      ⟨i, k, v, hfind, hslot, hk, hassoc⟩ | ⟨hassoc, i, hfind, -⟩ | ⟨hassoc, hfind, hfull⟩
    · rw [hfind]
      exact Or.inl ⟨i, k, v, rfl, hslot, hk, hassoc⟩
    · rw [hfind]
      exact Or.inr ⟨hassoc, _, rfl, by simp⟩
    · -- a quarter of the slots is free
      have hcount := h.count
      have hload := h.load
      unfold ObjMap.capacity MAP_LOAD_PERCENT at hload
      omega

theorem wrenMapGet_eq (h : Fits char map l) (hkey : key.val.Regular heap) :
    wrenMapGet char map key = .ok (assoc l key) := by
  unfold wrenMapGet
  rcases findEntry_eq h hkey with ⟨i, k, v, hfind, hslot, -, hassoc⟩ | ⟨hassoc, probe, hfind, hne⟩
  · rw [hfind, hassoc]
    show (Except.ok ((map.entry i).map Prod.snd) : Result _) = _
    rw [ObjMap.entry, hslot]
    rfl
  · rw [hfind, hassoc]
    cases probe with
    | found i => exact absurd rfl (hne i)
    | absent i => rfl
    | full => rfl

/-- A capacity whose load is computed without an overflow. -/
theorem load_eq {n k : Nat} (hk : k ≤ 21) (hn : n = MIN_CAPACITY * 2 ^ k) :
    n * MAP_LOAD_PERCENT % 2 ^ 32 / 100 = n * MAP_LOAD_PERCENT / 100 := by
  have hpow : 2 ^ k ≤ 2 ^ 21 := Nat.pow_le_pow_right (by norm_num) hk
  unfold MIN_CAPACITY at hn
  unfold MAP_LOAD_PERCENT
  rw [Nat.mod_eq_of_lt (by omega)]

/-- Room is made before anything is inserted. -/
theorem makeRoom_eq (h : Fits char map l) (hsize : l.length < MAX_KEYS) :
    ∃ entries k, makeRoom char map = .ok { map with entries } ∧
      Represents (Key.hash char) entries l ∧ k ≤ 21 ∧ entries.length = MIN_CAPACITY * 2 ^ k ∧
      l.length + 1 ≤ entries.length * MAP_LOAD_PERCENT / 100 := by
  have hcount := h.count
  have hload := h.load
  unfold MAX_KEYS at hsize
  unfold makeRoom
  rw [Nat.mod_eq_of_lt (a := map.count + 1) (by omega)]
  rcases h.capacity with hzero | ⟨k, hk, hcap⟩
  · -- the first entry of a map
    rw [hzero] at hload ⊢
    rw [if_pos (by omega)]
    obtain ⟨entries, hresize, hlen, hrep⟩ := resizeMap_eq h.represents (n := MIN_CAPACITY)
      (by decide) (by omega)
    refine ⟨entries, 0, hresize, hrep, by omega, by simpa using hlen, ?_⟩
    rw [hlen]
    unfold MIN_CAPACITY MAP_LOAD_PERCENT
    omega
  · rw [load_eq hk hcap]
    by_cases hfull : map.count + 1 > map.capacity * MAP_LOAD_PERCENT / 100
    · rw [if_pos hfull]
      have hgrow : k ≤ 20 := by
        by_contra hlt
        obtain rfl : k = 21 := by omega
        unfold MIN_CAPACITY at hcap
        unfold MAP_LOAD_PERCENT at hfull
        omega
      have hpow : 2 ^ k ≤ 2 ^ 20 := Nat.pow_le_pow_right (by norm_num) hgrow
      have hpos := Nat.two_pow_pos k
      have hdouble : max (map.capacity * GROW_FACTOR % 2 ^ 32) MIN_CAPACITY
          = MIN_CAPACITY * 2 ^ (k + 1) := by
        rw [hcap, Nat.pow_succ]
        unfold MIN_CAPACITY GROW_FACTOR
        omega
      rw [hdouble]
      obtain ⟨entries, hresize, hlen, hrep⟩ := resizeMap_eq h.represents
        (n := MIN_CAPACITY * 2 ^ (k + 1)) (by rw [Nat.pow_succ]; unfold MIN_CAPACITY; omega)
        (by rw [Nat.pow_succ]; unfold MIN_CAPACITY MAP_LOAD_PERCENT at *; omega)
      refine ⟨entries, k + 1, hresize, hrep, by omega, hlen, ?_⟩
      rw [hlen, Nat.pow_succ]
      unfold MIN_CAPACITY MAP_LOAD_PERCENT at *
      omega
    · rw [if_neg hfull]
      exact ⟨map.entries, k, rfl, h.represents, hk, hcap, by unfold ObjMap.capacity at hfull; omega⟩

/-- **A value that is set** is the value of its key, and the other keys keep theirs. -/
theorem wrenMapSet_fits (h : Fits char map l) (hkey : key.val.Regular heap)
    (hsize : l.length < MAX_KEYS) (value : Value) :
    ∃ map', wrenMapSet char map key value = .ok map' ∧ Fits char map' (assign l key value) := by
  obtain ⟨entries, k, hroom, hrep, hk, hlen, hload⟩ := makeRoom_eq h hsize
  have hcount := h.count
  unfold MAX_KEYS at hsize
  have hpos : 0 < entries.length := by
    rw [hlen]
    exact Nat.mul_pos (by decide) (Nat.two_pow_pos k)
  obtain ⟨entries', hput, hlen', hrep'⟩ := hrep.put hpos (h.hash_eq hkey)
    (Or.inl (by unfold MAP_LOAD_PERCENT at hload; omega)) value
  have hlength : (assign l key value).length = _ := length_assign value
  refine ⟨⟨(assign l key value).length, entries'⟩, ?_, hrep', rfl, ?_, ?_, ?_⟩
  · unfold wrenMapSet
    rw [hroom]
    show (insertEntry char entries key value >>= fun r =>
      Except.ok (ObjMap.mk (if r.1 then (map.count + 1) % 2 ^ 32 else map.count) r.2)) = _
    rw [insertEntry_eq hpos hput]
    refine congrArg (fun n => Except.ok (ObjMap.mk n entries')) ?_
    rw [hlength, hcount, Nat.mod_eq_of_lt (a := l.length + 1) (by omega)]
    cases assoc l key <;> rfl
  · show (assign l key value).length ≤ entries'.length * MAP_LOAD_PERCENT / 100
    rw [hlen', hlength]
    split <;> omega
  · exact Or.inr ⟨k, hk, hlen'.trans hlen⟩
  · intro e he
    rcases exists_of_mem_assign he with heq | ⟨e', he', heq⟩
    · rw [heq]
      exact hkey
    · rw [← heq]
      exact h.regular e' he'

theorem fits_clear : Fits char (wrenMapClear : ObjMap heap) [] where
  represents := represents_empty _ 0
  count := rfl
  load := Nat.zero_le _
  capacity := Or.inl rfl
  regular := by simp

/-- **Room is freed** without an entry being lost. -/
theorem freeRoom_fits (hrep : Represents (Key.hash char) map.entries l)
    (hcount : map.count = l.length) (hload : map.count ≤ map.capacity * MAP_LOAD_PERCENT / 100)
    {k : Nat} (hk : k ≤ 21) (hcap : map.capacity = MIN_CAPACITY * 2 ^ k)
    (hreg : ∀ e ∈ l, e.1.val.Regular heap) :
    ∃ map', freeRoom char map = .ok map' ∧ Fits char map' l := by
  unfold freeRoom
  by_cases hzero : map.count = 0
  · obtain rfl : l = [] := List.eq_nil_of_length_eq_zero (by omega)
    rw [if_pos hzero]
    exact ⟨_, rfl, fits_clear⟩
  rw [if_neg hzero]
  by_cases hshrink : map.capacity > MIN_CAPACITY ∧
      map.count < map.capacity / GROW_FACTOR * MAP_LOAD_PERCENT % 2 ^ 32 / 100
  · rw [if_pos hshrink]
    obtain ⟨hmin, hless⟩ := hshrink
    obtain ⟨j, rfl⟩ : ∃ j, k = j + 1 := by
      refine Nat.exists_eq_succ_of_ne_zero fun h0 => ?_
      rw [h0] at hcap
      omega
    have hhalf : map.capacity / GROW_FACTOR = MIN_CAPACITY * 2 ^ j := by
      rw [hcap, Nat.pow_succ]
      unfold MIN_CAPACITY GROW_FACTOR
      omega
    have hpos := Nat.two_pow_pos j
    rw [load_eq (by omega) hhalf, hhalf] at hless
    have hmax : max (map.capacity / GROW_FACTOR) MIN_CAPACITY = MIN_CAPACITY * 2 ^ j := by
      rw [hhalf]
      unfold MIN_CAPACITY
      omega
    rw [hmax]
    obtain ⟨entries, hresize, hlen, hrep'⟩ := resizeMap_eq hrep
      (n := MIN_CAPACITY * 2 ^ j) (by unfold MIN_CAPACITY; omega)
      (by unfold MAP_LOAD_PERCENT at hless; omega)
    refine ⟨_, hresize, hrep', hcount, ?_, Or.inr ⟨j, by omega, hlen⟩, hreg⟩
    show map.count ≤ entries.length * MAP_LOAD_PERCENT / 100
    rw [hlen]
    omega
  · rw [if_neg hshrink]
    exact ⟨map, rfl, hrep, hcount, hload, Or.inr ⟨k, hk, hcap⟩, hreg⟩

/-- **A key that is removed** is gone, and the others keep their values. -/
theorem wrenMapRemoveKey_fits (h : Fits char map l) (hkey : key.val.Regular heap)
    (hsize : l.length < MAX_KEYS) :
    ∃ map', wrenMapRemoveKey char map key = .ok ((assoc l key).getD .null, map') ∧
      Fits char map' (unassign l key) := by
  unfold wrenMapRemoveKey
  rcases findEntry_eq h hkey with ⟨i, k, v, hfind, hslot, hk, hassoc⟩ | ⟨hassoc, probe, hfind, hne⟩
  · have hrep := h.represents.remove hslot hk
    have hlength := length_unassign h.represents.distinct (by rw [hassoc]; rfl)
    have hcount := h.count
    have hload := h.load
    unfold MAX_KEYS at hsize
    have hless : (map.count + (2 ^ 32 - 1)) % 2 ^ 32 = (unassign l key).length := by omega
    have hload' : (unassign l key).length
        ≤ (map.entries.set i .tombstone).length * MAP_LOAD_PERCENT / 100 := by
      rw [List.length_set]
      unfold ObjMap.capacity at hload
      omega
    have hcap : ∃ k ≤ 21, map.capacity = MIN_CAPACITY * 2 ^ k :=
      h.capacity.resolve_left fun h0 => by rw [h0] at hload; omega
    obtain ⟨j, hj, hcap⟩ := hcap
    have hcap' : (map.entries.set i .tombstone).length = MIN_CAPACITY * 2 ^ j := by
      rw [List.length_set]
      exact hcap
    obtain ⟨map', hfree, hfits⟩ := @freeRoom_fits heap char
      ⟨(unassign l key).length, map.entries.set i .tombstone⟩ _ hrep rfl hload' j hj hcap'
      fun e he => h.regular e (mem_of_mem_unassign he)
    refine ⟨map', ?_, hfits⟩
    have hvalue : (map.entry i).map Prod.snd = some v := by
      rw [ObjMap.entry, hslot]
      rfl
    rw [hfind, hassoc, hless]
    show (freeRoom char ⟨(unassign l key).length, map.entries.set i .tombstone⟩ >>= fun m =>
      Except.ok (((map.entry i).map Prod.snd).getD .null, m)) = _
    rw [hfree, hvalue]
    rfl
  · rw [hfind, hassoc, unassign_of_none hassoc]
    cases probe with
    | found i => exact absurd rfl (hne i)
    | absent i => exact ⟨map, rfl, h⟩
    | full => exact ⟨map, rfl, h⟩

end Table

/-! ### Runs -/

/-- The value a call takes for a key. -/
def MapCall.key? : MapCall → Option Value
  | .subscript key | .subscriptSetter key _ | .addCore key _ | .containsKey key | .remove key =>
      some key
  | .clear | .count => none

/-- What a call comes to, and what it was to come to. -/
def Agrees (char : CharKind) (r : Result (MapAnswer × ObjMap heap))
    (spec : Except Text MapAnswer × Contents heap) (l : Contents heap) : Prop :=
  (∃ answer map, r = .ok (answer, map) ∧ spec.1 = .ok answer ∧ Fits char map spec.2) ∨
  (∃ message, r = .error (.error message) ∧ spec.1 = .error message ∧ spec.2 = l)

/-- A call with a key checks the key first. -/
theorem withKey_agrees {char : CharKind} {l : Contents heap} {arg : Value}
    (f : Key heap → Result (MapAnswer × ObjMap heap)) (g : Key heap → MapAnswer × Contents heap)
    (harg : arg.Regular heap)
    (hf : ∀ key : Key heap, key.val.Regular heap →
      ∃ map, f key = .ok ((g key).1, map) ∧ Fits char map (g key).2) :
    Agrees char (validateKey heap arg >>= f) (withKey l arg g) l := by
  unfold validateKey withKey
  by_cases h : isKey heap arg = true
  · rw [dif_pos h, dif_pos h]
    obtain ⟨map, hok, hfits⟩ := hf ⟨arg, h⟩ harg
    exact Or.inl ⟨_, map, hok, rfl, hfits⟩
  · rw [dif_neg h, dif_neg h]
    exact Or.inr ⟨_, rfl, rfl, rfl⟩

/-- **One call** answers as the list does. -/
theorem perform_agrees {char : CharKind} {map : ObjMap heap} {l : Contents heap} {call : MapCall}
    (h : Fits char map l) (hkey : ∀ key, call.key? = some key → key.Regular heap)
    (hsize : l.length < MAX_KEYS) : Agrees char (call.perform char map) (call.spec l) l := by
  cases call with
  | subscript arg =>
      show Agrees char (map_subscript char map arg >>= fun answer => pure (answer, map)) _ l
      unfold map_subscript
      rw [bind_assoc]
      refine withKey_agrees _ _ (hkey arg rfl) fun key hreg => ⟨map, ?_, h⟩
      rw [wrenMapGet_eq h hreg]
      rfl
  | subscriptSetter arg value =>
      refine withKey_agrees _ _ (hkey arg rfl) fun key hreg => ?_
      obtain ⟨map', hset, hfits⟩ := wrenMapSet_fits h hreg hsize value
      exact ⟨map', by rw [hset]; rfl, hfits⟩
  | addCore arg value =>
      refine withKey_agrees _ _ (hkey arg rfl) fun key hreg => ?_
      obtain ⟨map', hset, hfits⟩ := wrenMapSet_fits h hreg hsize value
      exact ⟨map', by rw [hset]; rfl, hfits⟩
  | clear => exact Or.inl ⟨_, _, rfl, rfl, fits_clear⟩
  | containsKey arg =>
      show Agrees char (map_containsKey char map arg >>= fun answer => pure (answer, map)) _ l
      unfold map_containsKey
      rw [bind_assoc]
      refine withKey_agrees _ _ (hkey arg rfl) fun key hreg => ⟨map, ?_, h⟩
      rw [wrenMapGet_eq h hreg]
      rfl
  | count => exact Or.inl ⟨_, map, by rw [← h.count]; rfl, rfl, h⟩
  | remove arg =>
      refine withKey_agrees _ _ (hkey arg rfl) fun key hreg => ?_
      obtain ⟨map', hremove, hfits⟩ := wrenMapRemoveKey_fits h hreg hsize
      exact ⟨map', by rw [hremove]; rfl, hfits⟩

theorem runMap_fits {char : CharKind} {map : ObjMap heap} {l : Contents heap}
    {calls : List MapCall} (h : Fits char map l)
    (hkeys : ∀ call ∈ calls, ∀ key, call.key? = some key → key.Regular heap)
    (hsize : ∀ done, done <+: calls → (specMap heap l done).2.length < MAX_KEYS) :
    ∃ map', runMap char map calls = .ok ((specMap heap l calls).1, map') ∧
      Fits char map' (specMap heap l calls).2 := by
  induction calls generalizing map l with
  | nil => exact ⟨map, rfl, h⟩
  | cons call calls ih =>
      have hrest : ∀ done, done <+: calls →
          (specMap heap (call.spec l).2 done).2.length < MAX_KEYS :=
        fun done hdone => hsize (call :: done) (List.cons_prefix_cons.mpr ⟨rfl, hdone⟩)
      have hkeys' : ∀ c ∈ calls, ∀ key, c.key? = some key → key.Regular heap :=
        fun c hc => hkeys c (List.mem_cons_of_mem _ hc)
      unfold runMap specMap
      rcases perform_agrees h (hkeys call List.mem_cons_self) (hsize [] List.nil_prefix) with
        ⟨answer, map₁, hperform, hanswer, h₁⟩ | ⟨message, hperform, hanswer, hsame⟩
      · obtain ⟨map', hrun, h'⟩ := ih h₁ hkeys' hrest
        rw [hperform, hanswer]
        refine ⟨map', ?_, h'⟩
        show (runMap char map₁ calls >>= fun r => Except.ok (Except.ok answer :: r.1, r.2)) = _
        rw [hrun]
        rfl
      · rw [hsame] at hrest ⊢
        obtain ⟨map', hrun, h'⟩ := ih h hkeys' hrest
        rw [hperform, hanswer]
        refine ⟨map', ?_, h'⟩
        show (runMap char map calls >>= fun r => Except.ok (Except.error message :: r.1, r.2)) = _
        rw [hrun]
        rfl

/-- What a program does to a map, without negative zeros and with few enough keys. -/
structure Modest (heap : Heap) (calls : List MapCall) : Prop where
  keys : ∀ call ∈ calls, ∀ key, call.key? = some key → key.Regular heap
  size : ∀ done, done <+: calls → (specMap heap [] done).2.length < MAX_KEYS

/-- **A map is a finite map**: no assertion fails in a run, every answer is that of the
association list, and afterwards a quarter of the slots is free. -/
theorem runMap_new (char : CharKind) {calls : List MapCall} (h : Modest heap calls) :
    ∃ map, runMap char wrenNewMap calls = .ok ((specMap heap [] calls).1, map) ∧
      map.count = (specMap heap [] calls).2.length ∧
      map.count ≤ map.capacity * MAP_LOAD_PERCENT / 100 ∧
      ∀ key : Key heap, key.val.Regular heap →
        wrenMapGet char map key = .ok (assoc (specMap heap [] calls).2 key) := by
  obtain ⟨map, hrun, hfits⟩ := runMap_fits (@fits_clear heap char) h.keys h.size
  exact ⟨map, hrun, hfits.count, hfits.load, fun key hkey => wrenMapGet_eq hfits hkey⟩

/-- A key that is set twice and taken out, and a value that is no key. -/
def modestCalls : List MapCall :=
  [.subscriptSetter (.num 0) .null, .addCore (.num 0) (.bool true), .containsKey (.num 0),
    .subscript (.obj 0), .remove (.num 0), .count]

theorem modestCalls_modest : Modest (fun _ => .other) modestCalls where
  keys := by
    intro call hcall key hkey
    unfold modestCalls at hcall
    fin_cases hcall <;> simp only [MapCall.key?, Option.some.injEq, reduceCtorEq] at hkey <;>
      subst hkey <;> trivial
  size := by
    intro done hdone
    have hall : ∀ done ∈ modestCalls.inits,
        (specMap (fun _ => .other) [] done).2.length < MAX_KEYS := by decide
    exact hall done ((List.mem_inits _ _).mpr hdone)

theorem runMap_new_modest : ∃ map : ObjMap fun _ => .other,
    runMap .signed wrenNewMap modestCalls = .ok ([.ok (.value .null), .ok .map,
      .ok (.value (.bool true)), .error "Key must be a value type.", .ok (.value (.bool true)),
      .ok (.value (.num (ofNat 0)))], map) ∧ map.count = 0 := by
  obtain ⟨map, hrun, hcount, -⟩ := runMap_new .signed modestCalls_modest
  exact ⟨map, hrun, hcount⟩

/-! ### Iteration -/

section Iteration

variable {char : CharKind} {map : ObjMap heap} {l : Contents heap}

theorem usedEntry_of_used {i : Nat} (hi : i < map.capacity) (h : (map.entry i).isSome) :
    usedEntry map i = some i := by
  unfold usedEntry
  rw [range'_cons hi, List.find?_cons_of_pos (by simpa using h)]

theorem usedEntry_of_unused {i : Nat} (hi : i < map.capacity) (h : map.entry i = none) :
    usedEntry map i = usedEntry map (i + 1) := by
  unfold usedEntry
  rw [range'_cons hi, List.find?_cons_of_neg (by simp [h])]

theorem contents_drop {i : Nat} (hi : i < map.capacity) :
    contents (map.entries.drop i)
      = (map.entry i).toList ++ contents (map.entries.drop (i + 1)) := by
  have hslot : map.entries[i]? = some map.entries[i] := List.getElem?_eq_getElem hi
  have hentry : map.entry i = map.entries[i].content := by
    rw [ObjMap.entry, hslot]
    rfl
  rw [List.drop_eq_getElem_cons hi, hentry]
  unfold contents
  cases hc : map.entries[i].content with
  | none => rw [List.filterMap_cons_none hc]; rfl
  | some e => rw [List.filterMap_cons_some hc]; rfl

/-- The iterator that comes after an index. -/
theorem map_iterate_ofNat {i : Nat} (hcount : map.count ≠ 0) (hi : i < map.capacity)
    (hcap : map.capacity ≤ 2 ^ 25) :
    map_iterate map (.num (ofNat i)) = .ok (nextEntry map (i + 1)) := by
  have hzero := lt_finite_nat i 0
  have hlt := lt_finite_nat i (2 ^ 32)
  have htoNat := toNat_finite i
  rw [Nat.cast_zero] at hzero
  rw [Int.cast_natCast, Int.toNat_natCast] at htoNat
  unfold map_iterate
  rw [Nat.cast_pow, Nat.cast_ofNat] at hlt
  rw [if_neg hcount, validateInt_ofNat (by omega)]
  show (if (Datum.finite i).lt (.finite 0) = true then _
    else if ¬ (Datum.finite i).lt (.finite (2 ^ 32)) = true then _
    else if map.capacity ≤ (Datum.finite i).toNat then _
    else Except.ok (nextEntry map ((Datum.finite i).toNat + 1))) = _
  rw [hzero, hlt, htoNat, if_neg (by simp), if_neg (by simp; omega), if_neg (by omega)]

theorem map_keyIteratorValue_ofNat {i : Nat} {e : Key heap × Value} (hi : i < map.capacity)
    (hcap : map.capacity ≤ 2 ^ 25) (hentry : map.entry i = some e) :
    map_keyIteratorValue map (.num (ofNat i)) = .ok e.1.val := by
  unfold map_keyIteratorValue
  rw [validateIndex_ofNat hi (by omega)]
  simp only [Bind.bind, Except.bind, hentry]
  rfl

theorem map_valueIteratorValue_ofNat {i : Nat} {e : Key heap × Value} (hi : i < map.capacity)
    (hcap : map.capacity ≤ 2 ^ 25) (hentry : map.entry i = some e) :
    map_valueIteratorValue map (.num (ofNat i)) = .ok e.2 := by
  unfold map_valueIteratorValue
  rw [validateIndex_ofNat hi (by omega)]
  simp only [Bind.bind, Except.bind, hentry]
  rfl

/-- What the body of a loop gets of an iterator. -/
abbrev mapEntryAt (map : ObjMap heap) (iterator : Value) : Result (Value × Value) := do
  return (← map_keyIteratorValue map iterator, ← map_valueIteratorValue map iterator)

/-- From an index on, all used entries are met, one after the other. -/
theorem map_steps {n i : Nat} {iterator : Value} (hcount : map.count ≠ 0)
    (hcap : map.capacity ≤ 2 ^ 25) (hn : map.capacity - i = n)
    (hiterate : map_iterate map iterator = .ok (nextEntry map i)) :
    Steps (map_iterate map) (mapEntryAt map) iterator
      ((contents (map.entries.drop i)).map fun e => (e.1.val, e.2)) := by
  induction n generalizing i iterator with
  | zero =>
      have hnext : nextEntry map i = .bool false := by
        unfold nextEntry usedEntry
        rw [hn]
        rfl
      rw [hnext] at hiterate
      rw [List.drop_eq_nil_of_le (by unfold ObjMap.capacity at hn; omega)]
      exact Steps.done hiterate
  | succ n ih =>
      have hi : i < map.capacity := by omega
      rw [contents_drop hi]
      cases hentry : map.entry i with
      | none =>
          have hnext : nextEntry map i = nextEntry map (i + 1) := by
            unfold nextEntry
            rw [usedEntry_of_unused hi hentry]
          rw [hnext] at hiterate
          exact ih (by omega) hiterate
      | some e =>
          have hnext : nextEntry map i = .num (ofNat i) := by
            unfold nextEntry
            rw [usedEntry_of_used hi (by rw [hentry]; rfl)]
            rfl
          rw [hnext] at hiterate
          have hvalue : mapEntryAt map (.num (ofNat i)) = .ok (e.1.val, e.2) := by
            unfold mapEntryAt
            rw [map_keyIteratorValue_ofNat hi hcap hentry,
              map_valueIteratorValue_ofNat hi hcap hentry]
            rfl
          exact Steps.step hiterate hvalue (ih (by omega) (map_iterate_ofNat hcount hi hcap))

/-- **Iteration meets every entry once.** -/
theorem iterateMap_perm (h : Fits char map l) : ∃ entries, iterateMap map = .ok entries ∧
    entries.Perm (l.map fun e => (e.1.val, e.2)) := by
  have hcap : map.capacity ≤ 2 ^ 25 := by
    rcases h.capacity with h0 | ⟨k, hk, hk'⟩
    · omega
    · have hpow : 2 ^ k ≤ 2 ^ 21 := Nat.pow_le_pow_right (by norm_num) hk
      unfold MIN_CAPACITY at hk'
      omega
  have hlength := h.represents.perm.length_eq
  have hcount := h.count
  have hload := h.load
  unfold MAP_LOAD_PERCENT at hload
  refine ⟨(contents map.entries).map fun e => (e.1.val, e.2), ?_, h.represents.perm.map _⟩
  refine Steps.forLoop_eq ?_ (by rw [List.length_map]; omega)
  by_cases hzero : map.count = 0
  · have hnil : contents map.entries = [] := List.eq_nil_of_length_eq_zero (by omega)
    rw [hnil]
    refine Steps.done ?_
    unfold map_iterate
    rw [if_pos hzero]
    rfl
  · refine map_steps (i := 0) hzero hcap rfl ?_
    unfold map_iterate
    rw [if_neg hzero]
    rfl

/-- **After any run the entries are those of the association list**, each of them once. -/
theorem runMap_iterate (char : CharKind) {calls : List MapCall} (h : Modest heap calls) :
    ∃ answers map entries, runMap char (wrenNewMap : ObjMap heap) calls = .ok (answers, map) ∧
      iterateMap map = .ok entries ∧
      entries.Perm ((specMap heap [] calls).2.map fun e => (e.1.val, e.2)) ∧
      Distinct (specMap heap [] calls).2 := by
  obtain ⟨map, hrun, hfits⟩ := runMap_fits (@fits_clear heap char) h.keys h.size
  obtain ⟨entries, hiterate, hperm⟩ := iterateMap_perm hfits
  exact ⟨_, map, entries, hrun, hiterate, hperm, hfits.represents.distinct⟩

theorem runMap_iterate_modest : ∃ answers map entries,
    runMap .signed (wrenNewMap : ObjMap fun _ => .other) (modestCalls.take 4) = .ok (answers, map) ∧
      iterateMap map = .ok entries ∧ entries = [(.num 0, .bool true)] := by
  have hmodest : Modest (fun _ => .other) (modestCalls.take 4) :=
    ⟨fun call hcall => modestCalls_modest.keys call (List.mem_of_mem_take hcall),
      fun done hdone => modestCalls_modest.size done (hdone.trans (List.take_prefix _ _))⟩
  obtain ⟨answers, map, entries, hrun, hiterate, hperm, -⟩ := runMap_iterate .signed hmodest
  exact ⟨answers, map, entries, hrun, hiterate, List.perm_singleton.mp hperm⟩

end Iteration

end WrenVM

end Wrenegade
