/-
# A cursor that is called to the end

A cursor gives an index with each call and moves on. `Cursor.after` is the cursor that
a number of calls leaves behind, and `Cursor.answer` what the next call on that one
gives, so the calls are numbered from zero. After `k` calls a cursor stands before the
members that are left when the first `k` are dropped (`Cursor.rest_after`); so call `k`
gives member number `k` in ascending order, or nothing when there are no more than `k`
(`Cursor.toNat_answer`). A cursor that has given nothing stays where it is, and gives
nothing from then on (`Cursor.answer_eq_none_of_le`).

That the list of all indices is read in no more steps than the capacity has indices is
no restriction: every call gives what stands in that list (`answer_cursor`).
-/
import BoardObjects.Proofs.Mask.Queries
import BoardObjects.Proofs.Words.Visit
import Mathlib.Data.Nat.Nth

namespace BoardObjects

namespace Mask

/-! ### One call after the other -/

namespace Cursor

def after (c : Cursor) : ℕ → Cursor
  | 0 => c
  | k + 1 => (c.after k).next.2

/-- What call number `k` gives. -/
def answer (c : Cursor) (k : ℕ) : Option UInt8 := (c.after k).next.1

theorem next_of_none {c : Cursor} (h : c.next.1 = none) : c.next.2 = c := by
  obtain ⟨m, up⟩ := c
  cases up with
  | none => rfl
  | some i => cases h

theorem answer_eq_none_of_le {c : Cursor} {j k : ℕ} (hjk : j ≤ k) (h : c.answer j = none) :
    c.answer k = none := by
  induction hjk with
  | refl => exact h
  | @step k hjk ih =>
    show (c.after k).next.2.next.1 = none
    rw [next_of_none ih]
    exact ih

/-- After `k` calls the first `k` members are given and the others are left. -/
theorem rest_after {c : Cursor} (hc : c.Valid) (k : ℕ) :
    (c.after k).Valid ∧ (c.after k).rest = c.rest.drop k := by
  induction k with
  | zero => exact ⟨hc, rfl⟩
  | succ k ih =>
    obtain ⟨hvalid, hrest⟩ := ih
    obtain ⟨-, htail, hvalid', -⟩ := next_eq hvalid
    refine ⟨hvalid', ?_⟩
    calc (c.after (k + 1)).rest = (c.after k).rest.tail := htail
      _ = (c.rest.drop k).tail := by rw [hrest]
      _ = c.rest.drop (k + 1) := List.tail_drop

theorem toNat_answer {c : Cursor} (hc : c.Valid) (k : ℕ) :
    (c.answer k).map UInt8.toNat = c.rest[k]? := by
  obtain ⟨hvalid, hrest⟩ := rest_after hc k
  obtain ⟨hhead, -⟩ := next_eq hvalid
  rw [answer, hhead, hrest, List.head?_drop]

end Cursor

/-! ### The calls and the list of all indices -/

variable {m : Mask}

theorem answer_cursor (hm : m.Bounded) (k : ℕ) : m.cursor.answer k = m.indices[k]? := by
  have hmap : (m.cursor.answer k).map UInt8.toNat = (m.indices[k]?).map UInt8.toNat := by
    rw [Cursor.toNat_answer (valid_cursor hm), rest_cursor hm, ← toNat_indices hm, List.getElem?_map]
  exact Option.map_injective (fun _ _ => UInt8.toNat_inj.mp) hmap

theorem length_indices (hm : m.Bounded) : m.indices.length = m.count.toNat := by
  rw [toNat_count hm, ← Finset.length_sort (· ≤ ·), ← toNat_indices hm, List.length_map]

/-- The index at `k` is the member that has `k` members below it. -/
theorem toNat_eq_nth_of_getElem?_indices (hm : m.Bounded) {k : ℕ} {i : UInt8}
    (hi : m.indices[k]? = some i) : i.toNat = Nat.nth (· ∈ m.members) k := by
  have hfin : (Set.ofPred (· ∈ m.members)).Finite := m.members.finite_toSet
  have hset : hfin.toFinset = m.members := by
    ext
    rw [Set.Finite.mem_toFinset]
    rfl
  rw [Nat.nth_eq_getD_sort hfin, hset, ← toNat_indices hm, List.getD_eq_getElem?_getD,
    List.getElem?_map, hi, Option.map_some, Option.getD_some]

theorem head?_indices (hm : m.Bounded) : m.indices.head? = m.lowest? := by
  have hfirst : m.cursor.answer 0 = m.lowest? := by
    show m.cursor.next.1 = m.lowest?
    rw [cursor, Cursor.next]
    cases m.lowest? <;> rfl
  rw [List.head?_eq_getElem?, ← answer_cursor hm, hfirst]

theorem getLast?_indices (hm : m.Bounded) : m.indices.getLast? = m.highest? := by
  ext j
  have hnumber : m.indices.getLast? = some j ↔ m.members.sort.getLast? = some j.toNat := by
    rw [← toNat_indices hm, List.getLast?_map, Option.map_eq_some_iff]
    constructor
    · exact fun h => ⟨j, h, rfl⟩
    · rintro ⟨i, hi, hij⟩
      rwa [← UInt8.toNat_inj.mp hij]
  have hset : {b | b ∈ m.members.sort} = (m.members : Set ℕ) :=
    Set.ext fun _ => Finset.mem_sort (· ≤ ·)
  rw [hnumber, Words.getLast?_eq_some_iff (Finset.sortedLT_sort m.members).pairwise, hset,
    highest?_eq_some_iff hm]
  rfl

/-- **Iteration is exact.** Whatever program has made a mask, the calls on its cursor give
its indices and then nothing: the list of them is strictly ascending and has exactly the
indices below the capacity at which `get` answers true; call `k` gives the element at `k`,
which is the `k`-th smallest member; there are as many as the count says, the first being
the least index and the last the greatest one; and after a call that has given nothing no
call gives anything. -/
theorem iteration_exact {m : Mask} (hm : m.Reachable) :
    (∀ k, m.cursor.answer k = m.indices[k]?) ∧
    m.indices.Pairwise (· < ·) ∧
    (∀ i, i ∈ m.indices ↔ i < m.bits ∧ m.get i = true) ∧
    (∀ k i, m.cursor.answer k = some i → i.toNat = Nat.nth (· ∈ m.members) k) ∧
    m.indices.length = m.count.toNat ∧
    (∀ k, m.cursor.answer k = none ↔ m.count.toNat ≤ k) ∧
    m.indices.head? = m.lowest? ∧ m.indices.getLast? = m.highest? ∧
    (m.lowest? = none ↔ m.indices = []) ∧ (m.highest? = none ↔ m.indices = []) ∧
    ∀ j k, j ≤ k → m.cursor.answer j = none → m.cursor.answer k = none := by
  have hb : m.Bounded := (reachable_iff_clean.mp hm).bounded
  have hanswer : ∀ k, m.cursor.answer k = m.indices[k]? := answer_cursor hb
  refine ⟨hanswer, pairwise_indices hb, fun i => ?_, fun k i hi => ?_, length_indices hb,
    fun k => ?_, head?_indices hb, getLast?_indices hb, ?_, ?_,
    fun j k => Cursor.answer_eq_none_of_le⟩
  · rw [mem_indices hb, iff_and_self]
    exact fun hi => lt_bits_iff.mpr (mem_members.mp (toNat_mem_members.mpr hi)).1
  · exact toNat_eq_nth_of_getElem?_indices hb ((hanswer k).symm.trans hi)
  · rw [hanswer, List.getElem?_eq_none_iff, length_indices hb]
  · rw [← head?_indices hb, List.head?_eq_none_iff]
  · rw [← getLast?_indices hb, List.getLast?_eq_none_iff]

/-- The four indices of a mask of 255, the last of them in front of the capacity, and two
at the border of two words with empty words behind it. -/
theorem iteration_exact_borders :
    let m := (empty .large).load
      (.ofWords [0x80000001#32, 1#32, 0#32, 0#32, 0#32, 0#32, 0#32, 0xc0000000#32])
    m.Reachable ∧ m.cursor.answer 0 = some 0 ∧ m.cursor.answer 1 = some 31 ∧
      m.cursor.answer 2 = some 32 ∧ m.cursor.answer 3 = some 254 ∧
      Nat.nth (· ∈ m.members) 3 = 254 ∧ m.highest? = some 254 ∧
      ∀ k, 4 ≤ k → m.cursor.answer k = none := by
  intro m
  have hm : m.Reachable := reachable_iff_clean.mpr (clean_load (clean_empty .large) _)
  obtain ⟨hanswer, -, -, hnth, -, hend, -, hlast, -⟩ := iteration_exact hm
  have hlist : m.indices = [0, 31, 32, 254] := by decide +kernel
  have hcount : m.count = 4 := by decide +kernel
  have hfour : m.cursor.answer 3 = some 254 := (hanswer 3).trans (by rw [hlist]; rfl)
  refine ⟨hm, (hanswer 0).trans ?_, (hanswer 1).trans ?_, (hanswer 2).trans ?_, hfour,
    (hnth 3 254 hfour).symm, ?_, fun k hk => (hend k).mpr ?_⟩
  · rw [hlist]
    rfl
  · rw [hlist]
    rfl
  · rw [hlist]
    rfl
  · rw [← hlast, hlist]
    rfl
  · rw [hcount]
    exact hk

end Mask

end BoardObjects
