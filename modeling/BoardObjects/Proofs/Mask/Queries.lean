/-
# Every query of a mask is exact

A mask answers with bytes what is told by its members. Nothing is cut off on the
way: a count is below 256, and every index that a search finds is below the
capacity, so it is a byte and not `noIndex` (`noIndex_notMem`). The least index and
the number of members are in `lowest?_eq_some_iff` and `toNat_count`; the greatest
index and the full mask follow here.

Only the search from the end needs that no bit lies at or above the capacity for
more than a comparison: such a bit would be the one that it finds, and hide the
members below.
-/
import BoardObjects.Proofs.Mask.Counting
import Mathlib.Order.Bounds.Defs

namespace BoardObjects

namespace Mask

variable {m : Mask}

/-! ### The greatest member -/

theorem highest?_eq_some_iff (hm : m.Bounded) {j : UInt8} :
    m.highest? = some j ↔ j.toNat ∈ m.members ∧ ∀ k ∈ m.members, k ≤ j.toNat := by
  rw [highest?, Option.map_eq_some_iff]
  constructor
  · rintro ⟨a, ha, rfl⟩
    obtain ⟨hlt, hset, habove⟩ := Words.last?_eq_some_iff.mp ha
    rw [toNat_ofNat_of_lt hlt]
    refine ⟨mem_members.mpr ⟨hlt, hset⟩, fun k hk => Nat.le_of_not_lt fun hak => ?_⟩
    exact (notMem_members_iff (mem_members.mp hk).1).mpr (habove k hak) hk
  · rintro ⟨hmem, hgreatest⟩
    obtain ⟨hj, hset⟩ := mem_members.mp hmem
    refine ⟨j.toNat, Words.last?_eq_some_iff.mpr ⟨hj, hset, fun k hjk => ?_⟩, UInt8.ofNat_toNat⟩
    rw [← Bool.not_eq_true]
    exact fun hk => absurd (hgreatest k (hm.mem_members.mpr hk)) (Nat.not_le.mpr hjk)

theorem highest?_eq_none_iff (hm : m.Bounded) : m.highest? = none ↔ m.members = ∅ := by
  rw [highest?, Option.map_eq_none_iff, Words.last?_eq_none_iff hm.bit, hm.members_eq_empty_iff]

/-! ### An index that no object has -/

theorem noIndex_notMem (m : Mask) : noIndex.toNat ∉ m.members := fun h =>
  absurd (mem_members.mp h).1 (Nat.not_lt.mpr (Nat.le_of_lt_succ m.size_lt))

/-- A search that finds members only is not mistaken for one that finds nothing. -/
theorem getD_noIndex_eq_iff {o : Option UInt8} (ho : ∀ j, o = some j → j.toNat ∈ m.members) :
    o.getD noIndex = noIndex ↔ o = none := by
  cases o with
  | none => exact iff_of_true rfl rfl
  | some j =>
    refine iff_of_false (fun hj => m.noIndex_notMem ?_) (fun h => by cases h)
    rw [← show j = noIndex from hj]
    exact ho j rfl

theorem lowest_eq_noIndex_iff (hm : m.Bounded) : m.lowest = noIndex ↔ m.members = ∅ :=
  (getD_noIndex_eq_iff fun _ hj => ((lowest?_eq_some_iff hm).mp hj).1).trans
    (lowest?_eq_none_iff hm)

theorem highest_eq_noIndex_iff (hm : m.Bounded) : m.highest = noIndex ↔ m.members = ∅ :=
  (getD_noIndex_eq_iff fun _ hj => ((highest?_eq_some_iff hm).mp hj).1).trans
    (highest?_eq_none_iff hm)

theorem isLeast_lowest (hm : m.Bounded) (hne : m.members.Nonempty) :
    IsLeast (m.members : Set ℕ) m.lowest.toNat := by
  cases hl : m.lowest? with
  | none => exact absurd ((lowest?_eq_none_iff hm).mp hl) hne.ne_empty
  | some j =>
    rw [lowest, hl]
    exact (lowest?_eq_some_iff hm).mp hl

theorem isGreatest_highest (hm : m.Bounded) (hne : m.members.Nonempty) :
    IsGreatest (m.members : Set ℕ) m.highest.toNat := by
  cases hh : m.highest? with
  | none => exact absurd ((highest?_eq_none_iff hm).mp hh) hne.ne_empty
  | some j =>
    rw [highest, hh]
    exact (highest?_eq_some_iff hm).mp hh

/-! ### The full mask -/

theorem members_subset_range (m : Mask) : m.members ⊆ Finset.range m.size :=
  Finset.filter_subset _ _

/-- A mask is full if its members are all indices below the capacity. -/
theorem isFull_iff (hm : m.Bounded) : m.isFull = true ↔ m.members = Finset.range m.size := by
  have hne : m.words ≠ [] := List.length_pos_iff.mp (hm.formed.length_words ▸ hm.formed.wordCount_pos)
  have hbits : ∀ i, Words.bit (Words.setAll m.tailFilter m.words true) i = decide (i < m.size) := by
    rw [hm.formed.tailFilter]
    exact fun i => (Words.bit_setAll_tailFilter _ _ hm.formed.length_words_size true i).trans (Bool.true_and _)
  rw [isFull, Words.isFull_iff, and_iff_right hne]
  constructor
  · intro hfilled
    ext i
    rw [hm.mem_members, Finset.mem_range, bit, ← hfilled, hbits, decide_eq_true_eq]
  · intro hall
    refine Words.ext_bit (Words.length_setAll ..) fun i => ?_
    rw [hbits, Bool.eq_iff_iff, decide_eq_true_eq, ← Finset.mem_range, ← hall]
    exact hm.mem_members

theorem isFull_iff_count (hm : m.Bounded) : m.isFull = true ↔ m.count = m.bits := by
  rw [isFull_iff hm, ← UInt8.toNat_inj, toNat_count hm]
  constructor
  · intro hall
    rw [hall]
    exact Finset.card_range _
  · intro hcard
    refine Finset.eq_of_subset_of_card_le m.members_subset_range ?_
    rw [Finset.card_range]
    exact hcard.ge

/-! ### All queries -/

/-- **Queries are exact.** For a reachable mask the count is the number of its members; the
least and the greatest index are their minimum and maximum, and `noIndex`, which is no
member, stands in for them only if there is none; the next index above any byte is the
least member above it; `get` answers false at and above the capacity; and the mask is zero
or full exactly if its members are none or all. -/
theorem queries_exact {m : Mask} (hm : m.Reachable) :
    (∀ k, k ∈ m.members ↔ k < m.bits.toNat ∧ m.get (UInt8.ofNat k) = true) ∧
    m.count.toNat = m.members.card ∧
    (∀ j, m.lowest? = some j ↔ IsLeast (m.members : Set ℕ) j.toNat) ∧
    (∀ j, m.highest? = some j ↔ IsGreatest (m.members : Set ℕ) j.toNat) ∧
    (m.lowest? = none ↔ m.members = ∅) ∧
    (m.highest? = none ↔ m.members = ∅) ∧
    noIndex.toNat ∉ m.members ∧
    (m.lowest = noIndex ↔ m.members = ∅) ∧
    (m.highest = noIndex ↔ m.members = ∅) ∧
    (m.members.Nonempty → IsLeast (m.members : Set ℕ) m.lowest.toNat ∧
      IsGreatest (m.members : Set ℕ) m.highest.toNat) ∧
    (∀ i j, m.next? i = some j ↔ IsLeast {k | k ∈ m.members ∧ i.toNat < k} j.toNat) ∧
    (∀ i, m.next? i = none ↔ ∀ k ∈ m.members, k ≤ i.toNat) ∧
    (∀ i, m.bits ≤ i → m.get i = false) ∧
    (m.isZero = true ↔ m.members = ∅) ∧
    (m.isFull = true ↔ m.members = Finset.range m.bits.toNat) ∧
    (m.isFull = true ↔ m.count = m.bits) := by
  have hb : m.Bounded := (reachable_iff_clean.mp hm).bounded
  refine ⟨fun k => ?_, toNat_count hb, fun j => lowest?_eq_some_iff hb,
    fun j => highest?_eq_some_iff hb, lowest?_eq_none_iff hb, highest?_eq_none_iff hb,
    m.noIndex_notMem, lowest_eq_noIndex_iff hb, highest_eq_noIndex_iff hb,
    fun hne => ⟨isLeast_lowest hb hne, isGreatest_highest hb hne⟩, fun i j => ?_,
    fun i => next?_eq_none_iff, fun i hi => ?_, isZero_iff hb, isFull_iff hb, isFull_iff_count hb⟩
  · rw [members, Finset.mem_filter, Finset.mem_range]
    rfl
  · rw [next?_eq_some_iff, ← and_assoc]
    exact and_congr_right fun _ => ⟨fun h k hk => h k hk.1 hk.2, fun h k hk hik => h ⟨hk, hik⟩⟩
  · have hn : ¬ i.toNat < m.size := Nat.not_lt.mpr (UInt8.le_iff_toNat_le.mp hi)
    rw [get_eq, decide_eq_false hn, Bool.false_and]

/-- A full mask of 255 indices: all of them are counted, the greatest is 254, nothing
is above it, and the last bit of the last word is not one of its bits. -/
theorem queries_exact_full :
    let m := (empty .large).fill
    m.Reachable ∧ m.count = 255 ∧ m.highest? = some 254 ∧ m.highest ≠ noIndex ∧
      m.next? 254 = none ∧ m.get 255 = false := by
  intro m
  have hm : m.Reachable := reachable_iff_clean.mpr (clean_sweep (clean_empty .large) .fill)
  obtain ⟨-, -, -, hhigh, -, -, -, -, hnoIndex, -, -, hnext, hget, -, hfull, hcount⟩ :=
    queries_exact hm
  have hisFull : m.isFull = true := by decide +kernel
  have hall : m.members = Finset.range 255 := hfull.mp hisFull
  refine ⟨hm, hcount.mp hisFull, (hhigh 254).mpr ?_, fun h => ?_, (hnext 254).mpr fun k hk => ?_,
    hget 255 (by decide)⟩
  · rw [hall]
    exact ⟨by simp, fun k hk => Nat.le_of_lt_succ (Finset.mem_range.mp hk)⟩
  · have hempty := hnoIndex.mp h
    rw [hall] at hempty
    exact absurd hempty (by decide)
  · rw [hall] at hk
    exact Nat.le_of_lt_succ (Finset.mem_range.mp hk)

end Mask

end BoardObjects
