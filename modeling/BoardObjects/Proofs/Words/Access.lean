/-
# Reading and writing a single bit

A bit is reached through two gates: its index has to be below the size, and the list has
to be long enough (`get_eq_none_iff`). Neither follows from the other, for the size need
not be that of the list. Behind them `Words.get` and `Words.set` are a lens: what has been
written is read back, the last write at an index wins, a bit written as it was changes
nothing, and writes at different indices do not see each other, be it in one word or in
two. Where a gate is closed nothing is written, and so the laws of two writes hold there
as well.

A write changes one summand of the count (`count_set`).
-/
import BoardObjects.Proofs.Words.Count

namespace BoardObjects

namespace Words

section

variable {n i j : ℕ} {ws : List Word} {u : Bool}

/-! ### The gates -/

theorem get_eq_none_iff : get n ws i = none ↔ n ≤ i ∨ ws.length ≤ i / 32 := by
  rw [get_eq, ite_eq_right_iff, imp_iff_not (Option.some_ne_none _), not_and_or, Nat.not_lt,
    Nat.not_lt]

theorem get_eq_some_iff :
    get n ws i = some u ↔ i < n ∧ i / 32 < ws.length ∧ bit ws i = u := by
  rw [get_eq, Option.ite_none_right_eq_some, Option.some_inj, and_assoc]

/-- The bit that is read is that of one word. -/
theorem get_of_getElem? {w : Word} (hi : i < n) (hw : ws[i / 32]? = some w) :
    get n ws i = some (w.getLsbD (i % 32)) := by
  obtain ⟨hl, -⟩ := List.getElem?_eq_some_iff.mp hw
  refine get_eq_some_iff.mpr ⟨hi, hl, ?_⟩
  rw [bit, List.getD_eq_getElem?_getD, hw, Option.getD_some]

/-- Where there is no bit to read, none is written. -/
theorem set_of_get_none (h : get n ws i = none) (v : Bool) : (set n ws i v).2 = ws := by
  have hgate := get_eq_none_iff.mp h
  refine ext_bit (length_set ..) fun k => ?_
  rw [bit_set, if_neg (by omega)]

/-- Where there is one, this bit is written and no other. -/
theorem bit_set_of_get (h : get n ws i = some u) (v : Bool) (k : ℕ) :
    bit (set n ws i v).2 k = if k = i then v else bit ws k := by
  obtain ⟨hi, hl, -⟩ := get_eq_some_iff.mp h
  simp only [bit_set, hi, hl, true_and]

/-! ### The laws -/

/-- A bit is read as it was written, and the others as they were. -/
theorem get_set (n : ℕ) (ws : List Word) (i j : ℕ) (v : Bool) :
    get n (set n ws i v).2 j = if j = i then (get n ws j).map fun _ => v else get n ws j := by
  rw [get_eq, get_eq, length_set, bit_set]
  by_cases hgate : j < n ∧ j / 32 < ws.length
  · by_cases hj : j = i
    · subst hj
      rw [if_pos hgate, if_pos hgate, if_pos rfl, if_pos ⟨hgate.1, hgate.2, rfl⟩, Option.map_some]
    · rw [if_pos hgate, if_neg fun h => hj h.2.2, if_neg hj, if_pos hgate]
  · rw [if_neg hgate, if_neg hgate, Option.map_none, ite_self]

theorem set_set (n : ℕ) (ws : List Word) (i : ℕ) (v w : Bool) :
    (set n (set n ws i v).2 i w).2 = (set n ws i w).2 := by
  refine ext_bit (by rw [length_set, length_set, length_set]) fun k => ?_
  rw [bit_set, bit_set, bit_set, length_set]
  by_cases hk : i < n ∧ i / 32 < ws.length ∧ k = i
  · rw [if_pos hk, if_pos hk]
  · rw [if_neg hk, if_neg hk, if_neg hk]

theorem set_get (h : get n ws i = some u) : (set n ws i u).2 = ws := by
  obtain ⟨-, -, hu⟩ := get_eq_some_iff.mp h
  refine ext_bit (length_set ..) fun k => ?_
  rw [bit_set_of_get h]
  by_cases hk : k = i
  · rw [if_pos hk, hk, hu]
  · rw [if_neg hk]

theorem set_comm (h : i ≠ j) (v w : Bool) :
    (set n (set n ws i v).2 j w).2 = (set n (set n ws j w).2 i v).2 := by
  refine ext_bit (by rw [length_set, length_set, length_set, length_set]) fun k => ?_
  rw [bit_set, bit_set, bit_set, bit_set, length_set, length_set]
  -- at most one of the two writes is one at `k`
  by_cases hi : i < n ∧ i / 32 < ws.length ∧ k = i
  · have hj : ¬(j < n ∧ j / 32 < ws.length ∧ k = j) := by omega
    rw [if_neg hj, if_pos hi, if_pos hi]
  · rw [if_neg hi, if_neg hi]

/-- The count gains the bit that is written and loses the one that was there. -/
theorem count_set (h : get n ws i = some u) (v : Bool) :
    count (set n ws i v).2 + u.toNat = count ws + v.toNat := by
  obtain ⟨-, -, hu⟩ := get_eq_some_iff.mp h
  have hrest : ∀ k, k ≠ i → bit (set n ws i v).2 k = bit ws k := fun k hk => by
    rw [bit_set_of_get h, if_neg hk]
  have hcount := count_add_bit hrest
  rwa [hu, bit_set_of_get h, if_pos rfl] at hcount

end

/-- **Single bits are read and written by the laws of a lens**, whatever the size and the
list. There is no bit to read exactly if the index is not below the size or the list is
too short. A write answers what was read before. Without a bit to read it leaves the list;
with one it changes this bit alone, so the value is read back, writing the answer again
restores the list, and the count changes by the difference of the two bits. The last of
two writes at an index wins, and writes at two indices may be exchanged. -/
theorem access_laws (n : ℕ) (ws : List Word) (i : ℕ) (v : Bool) :
    (get n ws i = none ↔ n ≤ i ∨ ws.length ≤ i / 32) ∧
    (∀ w, i < n → ws[i / 32]? = some w → get n ws i = some (w.getLsbD (i % 32))) ∧
    (set n ws i v).1 = get n ws i ∧
    (get n ws i = none → (set n ws i v).2 = ws) ∧
    (∀ u, get n ws i = some u →
      (set n ws i v).2.length = ws.length ∧
      (∀ k, bit (set n ws i v).2 k = if k = i then v else bit ws k) ∧
      get n (set n ws i v).2 i = some v ∧
      (set n (set n ws i v).2 i u).2 = ws ∧
      count (set n ws i v).2 + u.toNat = count ws + v.toNat) ∧
    (∀ w, (set n (set n ws i v).2 i w).2 = (set n ws i w).2) ∧
    ∀ j w, i ≠ j → get n (set n ws i v).2 j = get n ws j ∧
      (set n (set n ws i v).2 j w).1 = (set n ws j w).1 ∧
      (set n (set n ws i v).2 j w).2 = (set n (set n ws j w).2 i v).2 := by
  refine ⟨get_eq_none_iff, fun w => get_of_getElem?, set_fst n ws i v,
    fun h => set_of_get_none h v, fun u h => ?_, set_set n ws i v, fun j w h => ?_⟩
  · refine ⟨length_set n ws i v, bit_set_of_get h v, ?_, ?_, count_set h v⟩
    · rw [get_set, if_pos rfl, h, Option.map_some]
    · rw [set_set, set_get h]
  · have hread : get n (set n ws i v).2 j = get n ws j := by rw [get_set, if_neg h.symm]
    exact ⟨hread, by rw [set_fst, set_fst, hread], set_comm h v w⟩

/-- Two words with the bits 0 to 31, 33 and 63, for a size of 40. Bit 63 is above the size:
it is not read, not written, and stays when bit 33 of its word is cleared. Putting bit 33
back restores the list, and clearing it may be exchanged with writing bit 34 of the same
word. For a size of 100, index 64 is beyond the list. -/
theorem access_laws_high_bit :
    let ws : List Word := [0xffffffff#32, 0x80000002#32]
    get 40 ws 33 = some true ∧ get 40 ws 63 = none ∧ get 100 ws 64 = none ∧
      (set 40 ws 63 false).2 = ws ∧
      bit (set 40 ws 33 false).2 33 = false ∧ bit (set 40 ws 33 false).2 63 = true ∧
      (set 40 (set 40 ws 33 false).2 33 true).2 = ws ∧
      count (set 40 ws 33 false).2 + 1 = count ws ∧
      33 ≠ 34 ∧ (set 40 (set 40 ws 33 false).2 34 true).2 =
        (set 40 (set 40 ws 34 true).2 33 false).2 := by
  intro ws
  obtain ⟨-, hword, -, -, hwrite, -, hother⟩ := access_laws 40 ws 33 false
  obtain ⟨hnone, -, -, hkeep, -⟩ := access_laws 40 ws 63 false
  obtain ⟨hshort, -⟩ := access_laws 100 ws 64 false
  have hread : get 40 ws 33 = some true := hword 0x80000002#32 (by decide) rfl
  have hhigh : get 40 ws 63 = none := hnone.mpr (.inl (by decide))
  obtain ⟨-, hbit, -, hback, hcount⟩ := hwrite true hread
  exact ⟨hread, hhigh, hshort.mpr (.inr (by decide)), hkeep hhigh, hbit 33,
    (hbit 63).trans (by decide), hback, hcount, by decide, (hother 34 true (by decide)).2.2⟩

end Words

end BoardObjects
