/-
# The count of a list of words is a count of indices

A word is counted bit by bit, a list word by word. Both are `Nat.count`: the
number of indices below a bound at which a bit is set, the bound being where the
word or the list ends.

Read as a sum over indices (`count_eq_sum`), counts of several lists are compared
index by index: they balance if the bits do at each index (`count_add_count`), and
lists that differ at one index only have counts that differ by that bit
(`count_add_bit`).
-/
import BoardObjects.Words.Bits
import Mathlib.Algebra.BigOperators.Group.Finset.Piecewise
import Mathlib.Data.Nat.Count

namespace BoardObjects

namespace Words

theorem cpopNatRec_eq_count (w : Word) (n : ℕ) :
    w.cpopNatRec n 0 = Nat.count (fun i => w.getLsbD i = true) n := by
  induction n with
  | zero => rfl
  | succ n ih =>
    have hbit : (w.getLsbD n).toNat = if w.getLsbD n = true then 1 else 0 := by
      cases w.getLsbD n <;> rfl
    rw [BitVec.cpopNatRec_succ, BitVec.cpopNatRec_eq, ih, Nat.count_succ, Nat.zero_add, hbit]

theorem popCount_eq (w : Word) : w.popCount = Nat.count (fun i => w.getLsbD i = true) 32 := by
  rw [Word.popCount, BitVec.toNat_cpop, cpopNatRec_eq_count]

theorem count_eq : ∀ ws : List Word, count ws = Nat.count (fun i => bit ws i = true) (32 * ws.length)
  | [] => rfl
  | w :: ws => by
    have hlen : 32 * (w :: ws).length = 32 + 32 * ws.length := by
      rw [List.length_cons]
      omega
    have hword : w.popCount = Nat.count (fun i => bit (w :: ws) i = true) 32 := by
      rw [popCount_eq, Nat.count_eq_card_filter_range, Nat.count_eq_card_filter_range]
      refine congrArg Finset.card (Finset.filter_congr fun i hi => ?_)
      rw [bit_cons_of_lt _ _ _ (Finset.mem_range.mp hi)]
    have hrest : count ws = Nat.count (fun i => bit (w :: ws) (32 + i) = true) (32 * ws.length) := by
      simp only [Nat.add_comm 32, bit_cons_add]
      exact count_eq ws
    rw [hlen, Nat.count_add, ← hword, ← hrest, count]

/-- A set bit is a one in the sum and a clear bit a zero. No bit is set beyond the list, so
the sum may run over more indices than the list has. -/
theorem count_eq_sum (ws : List Word) {n : ℕ} (h : 32 * ws.length ≤ n) :
    count ws = ∑ i ∈ Finset.range n, (bit ws i).toNat := by
  have hbit : ∀ i, (if bit ws i = true then 1 else 0) = (bit ws i).toNat := fun i => by
    cases bit ws i <;> rfl
  calc count ws = ∑ i ∈ Finset.range (32 * ws.length), (bit ws i).toNat := by
        rw [count_eq, Nat.count_eq_card_filter_range, Finset.card_filter]
        exact Finset.sum_congr rfl fun i _ => hbit i
    _ = ∑ i ∈ Finset.range n, (bit ws i).toNat := by
        refine Finset.sum_subset (Finset.range_mono h) fun i _ hi => ?_
        rw [bit_of_length_le ws i (Nat.le_of_not_lt (mt Finset.mem_range.mpr hi))]
        rfl

/-- Counts balance if at each index both sides have as many set bits. -/
theorem count_add_count {a b c d : List Word}
    (h : ∀ i, (bit a i).toNat + (bit b i).toNat = (bit c i).toNat + (bit d i).toNat) :
    count a + count b = count c + count d := by
  -- a range that reaches beyond all four lists
  obtain ⟨n, ha, hb, hc, hd⟩ : ∃ n, 32 * a.length ≤ n ∧ 32 * b.length ≤ n ∧
      32 * c.length ≤ n ∧ 32 * d.length ≤ n :=
    ⟨32 * (a.length + b.length + c.length + d.length), by omega, by omega, by omega, by omega⟩
  rw [count_eq_sum a ha, count_eq_sum b hb, count_eq_sum c hc, count_eq_sum d hd,
    ← Finset.sum_add_distrib, ← Finset.sum_add_distrib]
  exact Finset.sum_congr rfl fun i _ => h i

/-- Lists with the same bits except at `i` count the same, the bits at `i` apart. -/
theorem count_add_bit {a b : List Word} {i : ℕ} (h : ∀ k, k ≠ i → bit a k = bit b k) :
    count a + (bit b i).toNat = count b + (bit a i).toNat := by
  obtain ⟨n, ha, hb, hi⟩ : ∃ n, 32 * a.length ≤ n ∧ 32 * b.length ≤ n ∧ i < n :=
    ⟨32 * a.length + 32 * b.length + (i + 1), by omega, by omega, by omega⟩
  have hmem : i ∈ Finset.range n := Finset.mem_range.mpr hi
  have hrest : ∑ k ∈ (Finset.range n).erase i, (bit a k).toNat =
      ∑ k ∈ (Finset.range n).erase i, (bit b k).toNat :=
    Finset.sum_congr rfl fun k hk => by rw [h k (Finset.ne_of_mem_erase hk)]
  rw [count_eq_sum a ha, count_eq_sum b hb, ← Finset.add_sum_erase _ _ hmem,
    ← Finset.add_sum_erase _ (fun k => (bit b k).toNat) hmem, hrest]
  omega

theorem count_eq_zero_iff {ws : List Word} : count ws = 0 ↔ ∀ i, bit ws i = false := by
  rw [count_eq, Nat.count_iff_forall_not]
  constructor
  · intro h i
    rcases Nat.lt_or_ge i (32 * ws.length) with hi | hi
    · exact Bool.eq_false_of_not_eq_true (h i hi)
    · exact bit_of_length_le ws i hi
  · intro h i _
    rw [h i]
    exact Bool.false_ne_true

theorem isEmpty_iff : ∀ {ws : List Word}, isEmpty ws = true ↔ ∀ i, bit ws i = false
  | [] => ⟨fun _ => bit_nil, fun _ => rfl⟩
  | w :: ws => by
    have hcons : isEmpty (w :: ws) = (w == 0#32 && isEmpty ws) := rfl
    rw [hcons, Bool.and_eq_true, beq_iff_eq, isEmpty_iff]
    constructor
    · rintro ⟨rfl, hrest⟩ i
      rcases Nat.lt_or_ge i 32 with hi | hi
      · rw [bit_cons_of_lt _ _ _ hi, BitVec.getLsbD_zero]
      · obtain ⟨j, rfl⟩ := Nat.exists_eq_add_of_le' hi
        rw [bit_cons_add]
        exact hrest j
    · intro h
      refine ⟨BitVec.eq_of_getLsbD_eq fun j hj => ?_, fun i => ?_⟩
      · rw [← bit_cons_of_lt w ws j hj, h, BitVec.getLsbD_zero]
      · rw [← bit_cons_add w]
        exact h _

end Words

end BoardObjects
