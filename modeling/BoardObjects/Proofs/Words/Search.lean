/-
# What the searches for a set bit find

`Words.first?` answers with the least index of a set bit of the whole list,
`Words.next?` with the least one above a given index, provided that it is below
the size. Both are exact for every list: bits at or above the size, a size that
the list does not reach and an index beyond the end are all allowed.

The search from an index on works on the list without the words before that
index and with the bits before it cleared in its own word; `bit_skipLow_drop`
reads that list back as a part of the original one. It starts one above the given
index, and in machine integers there may be no such index (`nextUSize?_eq`).

`Words.last?` looks at the greatest index of a set bit, and answers with it if it
is below the size. So it is exact where no bit at or above the size is set
(`last?_eq_none_iff`); otherwise it answers nothing, whatever is set below.
-/
import BoardObjects.Words.Bits
import BoardObjects.Words.Search

namespace BoardObjects

namespace Words

/-! ### The whole list -/

theorem bit_of_first? : ∀ {ws : List Word} {i : Nat}, first? ws = some i →
    bit ws i = true ∧ ∀ j < i, bit ws j = false
  | [], i, h => by simp [first?] at h
  | w :: ws, i, h => by
    by_cases hw : w = 0#32
    · rw [first?, if_pos hw] at h
      obtain ⟨k, hk, rfl⟩ := Option.map_eq_some_iff.mp h
      obtain ⟨hset, hleast⟩ := bit_of_first? hk
      refine ⟨by rw [bit_cons_add]; exact hset, fun j hj => ?_⟩
      rcases Nat.lt_or_ge j 32 with hj32 | hj32
      · rw [bit_cons_of_lt _ _ _ hj32, hw, BitVec.getLsbD_zero]
      · obtain ⟨l, rfl⟩ := Nat.exists_eq_add_of_le' hj32
        rw [bit_cons_add]
        exact hleast l (by omega)
    · rw [first?, if_neg hw] at h
      obtain rfl := Option.some.inj h
      have hlt : w.ctz.toNat < 32 := BitVec.ctz_lt_iff_ne_zero.mpr hw
      refine ⟨?_, fun j hj => ?_⟩
      · rw [bit_cons_of_lt _ _ _ hlt]
        exact BitVec.getLsbD_true_ctz_of_ne_zero hw
      · rw [bit_cons_of_lt _ _ _ (by omega)]
        exact BitVec.getLsbD_false_of_lt_ctz hj

theorem bit_of_first?_none : ∀ {ws : List Word}, first? ws = none → ∀ i, bit ws i = false
  | [], _, i => bit_nil i
  | w :: ws, h, i => by
    by_cases hw : w = 0#32
    · rw [first?, if_pos hw, Option.map_eq_none_iff] at h
      rcases Nat.lt_or_ge i 32 with hi | hi
      · rw [bit_cons_of_lt _ _ _ hi, hw, BitVec.getLsbD_zero]
      · obtain ⟨l, rfl⟩ := Nat.exists_eq_add_of_le' hi
        rw [bit_cons_add]
        exact bit_of_first?_none h l
    · rw [first?, if_neg hw] at h
      cases h

theorem first?_eq_some_iff {ws : List Word} {i : Nat} :
    first? ws = some i ↔ bit ws i = true ∧ ∀ j < i, bit ws j = false := by
  refine ⟨bit_of_first?, fun ⟨hset, hleast⟩ => ?_⟩
  cases hf : first? ws with
  | none =>
    rw [bit_of_first?_none hf i] at hset
    cases hset
  | some k =>
    obtain ⟨hset', hleast'⟩ := bit_of_first? hf
    rcases Nat.lt_trichotomy k i with hki | rfl | hik
    · rw [hleast k hki] at hset'
      cases hset'
    · rfl
    · rw [hleast' i hik] at hset
      cases hset

theorem first?_eq_none_iff {ws : List Word} : first? ws = none ↔ ∀ i, bit ws i = false := by
  refine ⟨bit_of_first?_none, fun h => ?_⟩
  cases hf : first? ws with
  | none => rfl
  | some k =>
    have hset := (bit_of_first? hf).1
    rw [h k] at hset
    cases hset

/-! ### From an index on -/

theorem bit_drop (ws : List Word) (k i : Nat) : bit (ws.drop k) i = bit ws (i + 32 * k) := by
  have hq : (i + 32 * k) / 32 = k + i / 32 := by omega
  have hr : (i + 32 * k) % 32 = i % 32 := by omega
  rw [bit, bit, hq, hr]
  simp [List.getD_eq_getElem?_getD, List.getElem?_drop]

theorem bit_skipLow {k : Nat} (hk : k < 32) (ws : List Word) (i : Nat) :
    bit (skipLow k ws) i = (bit ws i && decide (k ≤ i)) := by
  cases ws with
  | nil => simp [skipLow, bit_nil]
  | cons w ws =>
    rw [skipLow]
    rcases Nat.lt_or_ge i 32 with hi | hi
    · rw [bit_cons_of_lt _ _ _ hi, bit_cons_of_lt _ _ _ hi, BitVec.getLsbD_and,
        BitVec.getLsbD_shiftLeft, BitVec.getLsbD_allOnes]
      by_cases hki : k ≤ i
      · have hsub : i - k < 32 := by omega
        simp [hi, hki, hsub]
      · simp [hki, Nat.lt_of_not_le hki]
    · obtain ⟨l, rfl⟩ := Nat.exists_eq_add_of_le' hi
      rw [bit_cons_add, bit_cons_add, decide_eq_true (by omega : k ≤ l + 32), Bool.and_true]

/-- The list that is searched from index `s` on has the bits from `s` on. -/
theorem bit_skipLow_drop (ws : List Word) (s i : Nat) :
    bit (skipLow (s % 32) (ws.drop (s / 32))) i =
      (bit ws (i + 32 * (s / 32)) && decide (s ≤ i + 32 * (s / 32))) := by
  have he : (s % 32 ≤ i) ↔ (s ≤ i + 32 * (s / 32)) := by omega
  rw [bit_skipLow (Nat.mod_lt _ (by decide)), bit_drop, decide_eq_decide.mpr he]

/-- `from?` answers with the least index of a set bit from `s` on, if that one is below
the size. -/
theorem from?_eq_some_iff {n : Nat} {ws : List Word} {s j : Nat} :
    from? n ws s = some j ↔
      s ≤ j ∧ j < n ∧ bit ws j = true ∧ ∀ k, s ≤ k → k < j → bit ws k = false := by
  unfold from?
  by_cases hn : s < n
  · -- the words in front of `s` are dropped, so an index found there is moved back by them
    rw [if_pos hn, Option.filter_eq_some_iff, Option.map_eq_some_iff]
    constructor
    · rintro ⟨⟨a, ha, rfl⟩, hlt⟩
      obtain ⟨hset, hleast⟩ := first?_eq_some_iff.mp ha
      rw [bit_skipLow_drop, Bool.and_eq_true, decide_eq_true_eq] at hset
      refine ⟨hset.2, by simpa using hlt, hset.1, fun k hsk hka => ?_⟩
      have hk := hleast (k - 32 * (s / 32)) (by omega)
      rw [bit_skipLow_drop, show k - 32 * (s / 32) + 32 * (s / 32) = k by omega,
        decide_eq_true hsk, Bool.and_true] at hk
      exact hk
    · rintro ⟨hsj, hjn, hset, hleast⟩
      refine ⟨⟨j - 32 * (s / 32), first?_eq_some_iff.mpr ⟨?_, fun k hk => ?_⟩, by omega⟩,
        by simpa using hjn⟩
      · rw [bit_skipLow_drop, show j - 32 * (s / 32) + 32 * (s / 32) = j by omega, hset,
          Bool.true_and, decide_eq_true hsj]
      · rw [bit_skipLow_drop]
        by_cases hs : s ≤ k + 32 * (s / 32)
        · rw [hleast _ hs (by omega), Bool.false_and]
        · rw [decide_eq_false hs, Bool.and_false]
  · rw [if_neg hn]
    constructor
    · intro h
      cases h
    · rintro ⟨hsj, hjn, -⟩
      omega

theorem next?_eq_some_iff {n : Nat} {ws : List Word} {i j : Nat} :
    next? n ws i = some j ↔
      i < j ∧ j < n ∧ bit ws j = true ∧ ∀ k, i < k → k < j → bit ws k = false :=
  from?_eq_some_iff

/-- Where the index behind `i` is no machine integer, no size is above it either. -/
theorem nextUSize?_eq (n : USize) (ws : List Word) (i : USize) :
    nextUSize? n ws i = next? n.toNat ws i.toNat := by
  unfold nextUSize? next?
  by_cases hi : i.toNat + 1 < USize.size
  · have hadd : (i + 1).toNat = i.toNat + 1 := by
      rw [USize.toNat_add, USize.toNat_one]
      exact Nat.mod_eq_of_lt hi
    rw [if_pos hi, hadd]
  · have hn : ¬ i.toNat + 1 < n.toNat := fun h => hi (Nat.lt_trans h n.toNat_lt_size)
    rw [if_neg hi, from?, if_neg hn]

theorem next?_eq_none_iff {n : Nat} {ws : List Word} {i : Nat} :
    next? n ws i = none ↔ ∀ j, i < j → j < n → bit ws j = false := by
  constructor
  · -- the least counterexample is what `next?` would have answered with
    intro h j
    induction j using Nat.strongRecOn with
    | _ j ih =>
      intro hij hjn
      rw [← Bool.not_eq_true]
      intro hset
      have hsome : next? n ws i = some j :=
        next?_eq_some_iff.mpr ⟨hij, hjn, hset, fun k hik hkj => ih k hkj hik (by omega)⟩
      rw [h] at hsome
      cases hsome
  · intro h
    cases hx : next? n ws i with
    | none => rfl
    | some j =>
      obtain ⟨hij, hjn, hset, -⟩ := next?_eq_some_iff.mp hx
      rw [h j hij hjn] at hset
      cases hset

/-! ### From the end -/

/-- The leading zeros of a word stand above its greatest set bit. -/
theorem getLsbD_above_clz {w : Word} {j : Nat} (h : 31 - w.clz.toNat < j) : w.getLsbD j = false := by
  have hlt : w.toNat < 2 ^ (32 - w.clz.toNat) := BitVec.toNat_lt_two_pow_sub_clz
  have hle : 2 ^ (32 - w.clz.toNat) ≤ 2 ^ j := Nat.pow_le_pow_right (by decide) (by omega)
  exact Nat.testBit_lt_two_pow (Nat.lt_of_lt_of_le hlt hle)

theorem bit_of_highest?_none : ∀ {ws : List Word}, highest? ws = none → ∀ i, bit ws i = false
  | [], _, i => bit_nil i
  | w :: ws, h, i => by
    cases hr : highest? ws with
    | some k =>
      rw [highest?, hr] at h
      cases h
    | none =>
      simp only [highest?, hr, ite_eq_left_iff, reduceCtorEq, imp_false, Decidable.not_not] at h
      rcases Nat.lt_or_ge i 32 with hi | hi
      · rw [bit_cons_of_lt _ _ _ hi, h, BitVec.getLsbD_zero]
      · obtain ⟨l, rfl⟩ := Nat.exists_eq_add_of_le' hi
        rw [bit_cons_add]
        exact bit_of_highest?_none hr l

theorem bit_of_highest? : ∀ {ws : List Word} {i : Nat}, highest? ws = some i →
    bit ws i = true ∧ ∀ j, i < j → bit ws j = false
  | [], i, h => by cases h
  | w :: ws, i, h => by
    cases hr : highest? ws with
    | some k =>
      obtain ⟨hset, habove⟩ := bit_of_highest? hr
      rw [highest?, hr] at h
      obtain rfl := Option.some.inj h
      refine ⟨by rw [bit_cons_add]; exact hset, fun j hj => ?_⟩
      obtain ⟨l, rfl⟩ := Nat.exists_eq_add_of_le' (by omega : 32 ≤ j)
      rw [bit_cons_add]
      exact habove l (by omega)
    | none =>
      by_cases hw : w = 0#32
      · simp only [highest?, hr, hw, if_true] at h
        cases h
      · simp only [highest?, hr, hw, if_false] at h
        obtain rfl := Option.some.inj h
        refine ⟨?_, fun j hj => ?_⟩
        · rw [bit_cons_of_lt _ _ _ (by omega)]
          exact BitVec.getLsbD_true_clz_of_ne_zero (by decide) hw
        · rcases Nat.lt_or_ge j 32 with hj32 | hj32
          · rw [bit_cons_of_lt _ _ _ hj32]
            exact getLsbD_above_clz hj
          · obtain ⟨l, rfl⟩ := Nat.exists_eq_add_of_le' hj32
            rw [bit_cons_add]
            exact bit_of_highest?_none hr l

theorem highest?_eq_some_iff {ws : List Word} {i : Nat} :
    highest? ws = some i ↔ bit ws i = true ∧ ∀ j, i < j → bit ws j = false := by
  refine ⟨bit_of_highest?, fun ⟨hset, habove⟩ => ?_⟩
  cases hf : highest? ws with
  | none =>
    rw [bit_of_highest?_none hf i] at hset
    cases hset
  | some k =>
    obtain ⟨hset', habove'⟩ := bit_of_highest? hf
    rcases Nat.lt_trichotomy k i with hki | rfl | hik
    · rw [habove' i hki] at hset
      cases hset
    · rfl
    · rw [habove k hik] at hset'
      cases hset'

/-- `last?` answers with the greatest index of a set bit, if that one is below the
size. -/
theorem last?_eq_some_iff {n : Nat} {ws : List Word} {i : Nat} :
    last? n ws = some i ↔ i < n ∧ bit ws i = true ∧ ∀ j, i < j → bit ws j = false := by
  rw [last?, Option.filter_eq_some_iff, highest?_eq_some_iff, decide_eq_true_eq, and_comm]

/-- Where no bit at or above the size is set, `last?` answers nothing only for want of
a set bit. -/
theorem last?_eq_none_iff {n : Nat} {ws : List Word} (h : ∀ i, n ≤ i → bit ws i = false) :
    last? n ws = none ↔ ∀ i, bit ws i = false := by
  constructor
  · intro hl
    cases hh : highest? ws with
    | none => exact bit_of_highest?_none hh
    | some i =>
      obtain ⟨hset, habove⟩ := bit_of_highest? hh
      have hi : i < n := by
        rcases Nat.lt_or_ge i n with hi | hi
        · exact hi
        · rw [h i hi] at hset
          cases hset
      rw [last?_eq_some_iff.mpr ⟨hi, hset, habove⟩] at hl
      cases hl
  · intro hclear
    cases hl : last? n ws with
    | none => rfl
    | some i =>
      have hset := (last?_eq_some_iff.mp hl).2.1
      rw [hclear i] at hset
      cases hset

end Words

end BoardObjects
