/-
Searching strings.

The search finds the first occurrence, because the table says of every byte how far it rules
occurrences out.  The table has no place for the byte 255, which no well-formed string has.
-/
import Wrenegade.Lib.Search
import Wrenegade.Proofs.StringSlice

namespace Wrenegade

namespace WrenVM

open Double Cells Search

/-! ### The table -/

/-- The table says of each byte how far it skips. -/
structure Shifts (needle : ByteString) (n : Nat) (shift : Cells Nat) : Prop where
  length : shift.length = UINT8_MAX
  skips : ∀ c : Byte, c.toNat < UINT8_MAX → ∃ distance, shift.get c.toNat = some distance ∧
    Skips needle n c distance

theorem Shifts.put {needle : ByteString} {n : Nat} {shift : Cells Nat} {d : Byte}
    (h : Shifts needle n shift) (hn : n + 1 < needle.length) (hd : needle[n]? = some d)
    (hlt : d.toNat < UINT8_MAX) :
    ∃ shift', shift.put d.toNat (needle.length - 1 - n) = some shift' ∧
      Shifts needle (n + 1) shift' := by
  have hlen := h.length
  refine ⟨_, if_pos (by omega), by rw [List.length_set, hlen], fun c hc => ?_⟩
  obtain ⟨distance, hget, hskips⟩ := h.skips c hc
  refine ⟨_, ?_, hskips.succ hn hd⟩
  unfold Cells.get at hget ⊢
  by_cases hcd : c = d
  · rw [if_pos hcd, hcd, List.getElem?_set_self (by omega)]
    rfl
  · have hne : d.toNat ≠ c.toNat := fun heq => hcd (UInt8.toNat_inj.mp heq.symm)
    rw [if_neg hcd, List.getElem?_set_ne hne, hget]

theorem lt_UINT8_MAX {s : ByteString} (h : (255 : Byte) ∉ s) {c : Byte} (hc : c ∈ s) :
    c.toNat < UINT8_MAX := by
  have hbyte := c.toNat_lt
  have hne : c.toNat ≠ 255 := by
    intro heq
    rw [show c = 255 from UInt8.toNat_inj.mp heq] at hc
    exact h hc
  unfold UINT8_MAX
  omega

/-- **The table** is right for all of the needle but its last byte. -/
theorem shiftTable_eq {needle : ByteString} (hneedle : needle ≠ []) (h : (255 : Byte) ∉ needle) :
    ∃ shift, shiftTable needle = .ok shift ∧ Shifts needle (needle.length - 1) shift := by
  have hpos := List.length_pos_iff.mpr hneedle
  suffices hfold : ∀ n ≤ needle.length - 1, ∃ shift, (List.range n).foldlM
      (fun shift index => access (Cells.put shift (needle.getD index 0).toNat
        (needle.length - 1 - index)))
      (List.replicate UINT8_MAX (some needle.length)) = .ok shift ∧ Shifts needle n shift from
    hfold _ (Nat.le_refl _)
  intro n hn
  induction n with
  | zero =>
      refine ⟨_, rfl, List.length_replicate, fun c hc => ⟨needle.length, ?_, skips_zero hneedle c⟩⟩
      unfold Cells.get
      rw [List.getElem?_replicate, if_pos hc]
      rfl
  | succ n ih =>
      obtain ⟨shift, hshift, hshifts⟩ := ih (by omega)
      have hget : needle[n]? = some (needle.getD n 0) := by
        rw [List.getElem?_eq_getElem (by omega), List.getD_eq_getElem _ _ (by omega)]
      have hlt := lt_UINT8_MAX h (List.mem_of_getElem? hget)
      obtain ⟨shift', hput, hshifts'⟩ := hshifts.put (by omega) hget hlt
      refine ⟨shift', ?_, hshifts'⟩
      rw [List.range_succ, List.foldlM_append, hshift]
      show (access (Cells.put shift _ _) >>= _) = _
      rw [hput]
      rfl

/-! ### The loop -/

theorem take_succ_getD {l : ByteString} {n : Nat} (hn : n < l.length) :
    l.take (n + 1) = l.take n ++ [l.getD n 0] := by
  rw [List.getD_eq_getElem _ _ hn, List.take_append_getElem]

theorem matches_iff {haystack needle : ByteString} (hneedle : needle ≠ []) {i : Nat}
    (hi : i + needle.length ≤ haystack.length) :
    (needle.getD (needle.length - 1) 0 = haystack.getD (i + (needle.length - 1)) 0 ∧
      (haystack.drop i).take (needle.length - 1) = needle.take (needle.length - 1)) ↔
      OccursAt needle haystack i := by
  obtain ⟨n, hn⟩ := Nat.exists_eq_succ_of_ne_zero (List.length_pos_iff.mpr hneedle).ne'
  have hwindow := @take_succ_getD (haystack.drop i) n (by rw [List.length_drop]; omega)
  have hwhole := @take_succ_getD needle n (by omega)
  have hget : (haystack.drop i).getD n 0 = haystack.getD (i + n) 0 := by
    rw [List.getD_eq_getElem?_getD, List.getElem?_drop, List.getD_eq_getElem?_getD]
  rw [hget] at hwindow
  rw [List.take_of_length_le (by omega)] at hwhole
  rw [occursAt_iff, hn, Nat.succ_sub_one, Nat.succ_eq_add_one, hwindow]
  constructor
  · rintro ⟨hlast, hrest⟩
    rw [hrest, ← hlast]
    exact hwhole
  · intro h
    rw [hwhole] at h
    obtain ⟨hrest, hlast⟩ := List.append_inj' h rfl
    exact ⟨List.singleton_inj.mp hlast, hrest.symm⟩

theorem findLoop_eq {haystack needle : ByteString} {shift : Cells Nat} {start : Nat}
    (hneedle : needle ≠ []) (hshifts : Shifts needle (needle.length - 1) shift)
    (hle : needle.length ≤ haystack.length) (h : (255 : Byte) ∉ haystack) {fuel index : Nat}
    (hfuel : haystack.length + 1 ≤ fuel + index) (hstart : start ≤ index)
    (hnone : ∀ j, start ≤ j → j < index → ¬ OccursAt needle haystack j) :
    ∃ found, findLoop haystack needle shift (haystack.length - needle.length) fuel index
      = .ok found ∧ Finds needle haystack start found := by
  have hpos := List.length_pos_iff.mpr hneedle
  induction fuel generalizing index with
  | zero => exact ⟨none, rfl, absent_of_length_lt hneedle hnone (by omega)⟩
  | succ fuel ih =>
      unfold findLoop
      by_cases hindex : index ≤ haystack.length - needle.length
      · have hmatches := @matches_iff haystack needle hneedle index (by omega)
        rw [if_pos hindex]
        by_cases hoccurs : OccursAt needle haystack index
        · exact ⟨some index, if_pos (hmatches.mpr hoccurs), hstart, hoccurs, hnone⟩
        · have hlast : haystack[index + (needle.length - 1)]?
              = some (haystack.getD (index + (needle.length - 1)) 0) := by
            rw [List.getElem?_eq_getElem (by omega), List.getD_eq_getElem _ _ (by omega)]
          have hlt := lt_UINT8_MAX h (List.mem_of_getElem? hlast)
          obtain ⟨distance, hget, hskips⟩ := hshifts.skips _ hlt
          have hdistance := hskips.pos
          have hskipped : ∀ j, start ≤ j → j < index + distance →
              ¬ OccursAt needle haystack j := by
            intro j hj hjd hoccursj
            rcases Nat.lt_trichotomy j index with hji | rfl | hji
            · exact hnone j hj hji hoccursj
            · exact hoccurs hoccursj
            · obtain ⟨k, rfl⟩ := Nat.exists_eq_add_of_lt hji
              exact hskips.not_occursAt hlast (show 0 < k + 1 by omega) (by omega) hoccursj
          obtain ⟨found, hfound, hfinds⟩ := @ih (index + distance) (by omega) (by omega)
            hskipped
          refine ⟨found, ?_, hfinds⟩
          rw [if_neg (fun hm => hoccurs (hmatches.mp hm)), hget]
          exact hfound
      · rw [if_neg hindex]
        exact ⟨none, rfl, absent_of_length_lt hneedle hnone (by omega)⟩

/-- **The search finds the first occurrence**, if there is one. -/
theorem wrenStringFind_eq {haystack needle : ByteString} {start : Nat}
    (hhaystack : (255 : Byte) ∉ haystack) (hneedle : (255 : Byte) ∉ needle)
    (hsize : haystack.length < 2 ^ 31) (hsize' : needle.length < 2 ^ 31) (hstart : start < 2 ^ 31) :
    ∃ found, wrenStringFind haystack needle start = .ok found ∧
      Finds needle haystack start found := by
  unfold wrenStringFind
  by_cases hempty : needle.length = 0
  · have hnil := List.eq_nil_of_length_eq_zero hempty
    subst hnil
    refine ⟨some start, rfl, Nat.le_refl start, List.nil_prefix, fun j hj hlt => ?_⟩
    omega
  have hnil : needle ≠ [] := fun h => hempty (by rw [h]; rfl)
  rw [if_neg hempty]
  have habsent : haystack.length < start + needle.length → Absent needle haystack start :=
    absent_of_length_lt hnil fun j hj hlt => by omega
  by_cases hroom : (start + needle.length) % 2 ^ 32 > haystack.length
  · rw [if_pos hroom]
    exact ⟨none, rfl, habsent (by omega)⟩
  rw [if_neg hroom]
  by_cases hbehind : start ≥ haystack.length
  · rw [if_pos hbehind]
    exact ⟨none, rfl, habsent (by omega)⟩
  obtain ⟨shift, hshift, hshifts⟩ := shiftTable_eq hnil hneedle
  obtain ⟨found, hfound, hfinds⟩ := @findLoop_eq haystack needle shift start hnil hshifts
    (by omega) hhaystack (haystack.length + 1) start (by omega) (Nat.le_refl start)
    (fun j hj hlt => by omega)
  refine ⟨found, ?_, hfinds⟩
  have hrange : (haystack.length + 2 ^ 32 - needle.length) % 2 ^ 32
      = haystack.length - needle.length := by omega
  rw [if_neg hbehind, hshift]
  show findLoop haystack needle shift ((haystack.length + 2 ^ 32 - needle.length) % 2 ^ 32)
    (haystack.length + 1) start = _
  rw [hrange]
  exact hfound

theorem wrenStringFind_overlap : ∃ found,
    wrenStringFind [0x61, 0x61, 0x62, 0x61, 0x62] [0x61, 0x62] 2 = .ok found ∧
      Finds ([0x61, 0x62] : ByteString) [0x61, 0x61, 0x62, 0x61, 0x62] 2 found :=
  @wrenStringFind_eq [0x61, 0x61, 0x62, 0x61, 0x62] [0x61, 0x62] 2 (by decide) (by decide)
    (by decide) (by decide) (by decide)

end WrenVM

end Wrenegade
