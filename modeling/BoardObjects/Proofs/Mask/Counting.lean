/-
# A mask counts its members

The count of a mask is the number of its members: a count is a byte, and a mask
has fewer than 256 indices, so no count is cut off (`toNat_count`). A mask is zero
exactly if it has no member. Both need no more than that no bit lies at or above
the capacity.
-/
import BoardObjects.Proofs.Words.Count
import BoardObjects.Proofs.Mask.Enumeration

namespace BoardObjects

namespace Mask

variable {m : Mask}

/-- The words in use have a set bit for each member and no other. -/
theorem count_words (hm : m.Bounded) : Words.count m.words = m.members.card := by
  have hle : m.size ≤ 32 * m.words.length := hm.formed.length_words.symm ▸ hm.formed.size_le
  rw [Words.count_eq, Nat.count_eq_card_filter_range]
  refine congrArg Finset.card (Finset.ext fun i => ?_)
  rw [Finset.mem_filter, Finset.mem_range, hm.mem_members, bit, and_iff_right_iff_imp]
  exact fun hbit => (hm.lt_size hbit).trans_le hle

/-- The count is the number of members, none of them lost in the byte. -/
theorem toNat_count (hm : m.Bounded) : m.count.toNat = m.members.card := by
  have hlt : Words.count m.words < 256 := by
    rw [count_words hm]
    exact m.card_members_le.trans_lt m.size_lt
  rw [count, UInt8.toNat_ofNat_of_lt' hlt, count_words hm]

theorem isZero_iff (hm : m.Bounded) : m.isZero = true ↔ m.members = ∅ := by
  rw [isZero, Words.isEmpty_iff, hm.members_eq_empty_iff]

end Mask

end BoardObjects
