/-
# A mask lists its indices in ascending order

The least index and the next one are the least member and the least member above
(`lowest?_eq_some_iff`, `next?_eq_some_iff`). A cursor stands before the members
that it has not given yet (`Cursor.rest`); one step gives the first of them and
stands before the others (`Cursor.next_eq`). So the indices of a mask are its
members, each once and in ascending order (`toNat_indices`).
-/
import BoardObjects.Proofs.Words.Search
import BoardObjects.Proofs.Mask.IndexSet
import Mathlib.Data.Finset.Sort

namespace BoardObjects

namespace Mask

/-! ### The least and the next member -/

theorem toNat_ofNat_of_lt {m : Mask} {k : ℕ} (h : k < m.size) : (UInt8.ofNat k).toNat = k :=
  UInt8.toNat_ofNat_of_lt' (h.trans m.size_lt)

/-- Every index is a byte, so the members are known by the bytes that are members. -/
theorem members_eq_of_get {m : Mask} {s : Finset ℕ} (hs : ∀ k ∈ s, k < m.size)
    (hget : ∀ i : UInt8, m.get i = true ↔ i.toNat ∈ s) : m.members = s := by
  ext k
  rcases Nat.lt_or_ge k m.size with hk | hk
  · rw [← toNat_ofNat_of_lt hk, toNat_mem_members]
    exact hget _
  · exact iff_of_false (fun h => Nat.not_lt.mpr hk (mem_members.mp h).1)
      fun h => Nat.not_lt.mpr hk (hs k h)

theorem members_subset_iff {a b : Mask} :
    a.members ⊆ b.members ↔ ∀ i : UInt8, a.get i = true → b.get i = true := by
  constructor
  · intro h i hi
    exact toNat_mem_members.mp (h (toNat_mem_members.mpr hi))
  · intro h k hk
    obtain ⟨hsize, -⟩ := mem_members.mp hk
    rw [← toNat_ofNat_of_lt hsize] at hk ⊢
    exact toNat_mem_members.mpr (h _ (toNat_mem_members.mp hk))

theorem notMem_members_iff {m : Mask} {k : ℕ} (hk : k < m.size) :
    k ∉ m.members ↔ Words.bit m.words k = false := by
  rw [mem_members, not_and, ← Bool.not_eq_true]
  exact ⟨fun h => h hk, fun h _ => h⟩

/-- `lowest?` answers with the least member of a bounded mask. -/
theorem lowest?_eq_some_iff {m : Mask} (hm : m.Bounded) {j : UInt8} :
    m.lowest? = some j ↔ j.toNat ∈ m.members ∧ ∀ k ∈ m.members, j.toNat ≤ k := by
  rw [lowest?, Option.map_eq_some_iff]
  constructor
  · rintro ⟨a, ha, rfl⟩
    obtain ⟨hset, hleast⟩ := Words.first?_eq_some_iff.mp ha
    have hlt : a < m.size := hm.lt_size hset
    rw [toNat_ofNat_of_lt hlt]
    refine ⟨mem_members.mpr ⟨hlt, hset⟩, fun k hk => Nat.le_of_not_lt fun hka => ?_⟩
    exact (notMem_members_iff (hka.trans hlt)).mpr (hleast k hka) hk
  · rintro ⟨hmem, hleast⟩
    obtain ⟨hj, hset⟩ := mem_members.mp hmem
    refine ⟨j.toNat, Words.first?_eq_some_iff.mpr ⟨hset, fun k hk => ?_⟩, UInt8.ofNat_toNat⟩
    exact (notMem_members_iff (hk.trans hj)).mp fun h => absurd (hleast k h) (Nat.not_le.mpr hk)

theorem lowest?_eq_none_iff {m : Mask} (hm : m.Bounded) :
    m.lowest? = none ↔ m.members = ∅ := by
  rw [lowest?, Option.map_eq_none_iff, Words.first?_eq_none_iff, hm.members_eq_empty_iff]

/-- `next?` answers with the least member above `i`. -/
theorem next?_eq_some_iff {m : Mask} {i j : UInt8} :
    m.next? i = some j ↔
      j.toNat ∈ m.members ∧ i.toNat < j.toNat ∧ ∀ k ∈ m.members, i.toNat < k → j.toNat ≤ k := by
  rw [next?, Option.map_eq_some_iff]
  constructor
  · rintro ⟨a, ha, rfl⟩
    obtain ⟨hia, han, hset, hleast⟩ := Words.next?_eq_some_iff.mp ha
    rw [toNat_ofNat_of_lt han]
    refine ⟨mem_members.mpr ⟨han, hset⟩, hia, fun k hk hik => Nat.le_of_not_lt fun hka => ?_⟩
    exact (notMem_members_iff (hka.trans han)).mpr (hleast k hik hka) hk
  · rintro ⟨hmem, hij, hleast⟩
    obtain ⟨hj, hset⟩ := mem_members.mp hmem
    refine ⟨j.toNat, Words.next?_eq_some_iff.mpr ⟨hij, hj, hset, fun k hik hkj => ?_⟩,
      UInt8.ofNat_toNat⟩
    exact (notMem_members_iff (hkj.trans hj)).mp fun h =>
      absurd (hleast k h hik) (Nat.not_le.mpr hkj)

theorem next?_eq_none_iff {m : Mask} {i : UInt8} :
    m.next? i = none ↔ ∀ k ∈ m.members, k ≤ i.toNat := by
  rw [next?, Option.map_eq_none_iff, Words.next?_eq_none_iff]
  constructor
  · intro h k hk
    have hlt := (mem_members.mp hk).1
    refine Nat.le_of_not_lt fun hki => ?_
    exact (notMem_members_iff hlt).mpr (h k hki hlt) hk
  · intro h j hij hj
    exact (notMem_members_iff hj).mp fun hmem => absurd (h j hmem) (Nat.not_le.mpr hij)

/-! ### Cursors -/

namespace Cursor

/-- The members that a cursor has not given yet, ascending. -/
def rest (c : Cursor) : List ℕ :=
  match c.upcoming with
  | none => []
  | some i => (c.mask.members.filter (i.toNat ≤ ·)).sort

/-- The index that a cursor gives next is one of the mask. -/
def Valid (c : Cursor) : Prop := ∀ i, c.upcoming = some i → i.toNat ∈ c.mask.members

theorem rest_of_some {c : Cursor} {i : UInt8} (h : c.upcoming = some i) :
    c.rest = (c.mask.members.filter (i.toNat ≤ ·)).sort := by
  rw [rest, h]

/-- The members from `i` on are `i` and the members above it. -/
theorem sort_filter_le {s : Finset ℕ} {i : ℕ} (hi : i ∈ s) :
    (s.filter (i ≤ ·)).sort = i :: (s.filter (i < ·)).sort := by
  have hins : s.filter (i ≤ ·) = insert i (s.filter (i < ·)) := by
    ext k
    rw [Finset.mem_insert, Finset.mem_filter, Finset.mem_filter, le_iff_eq_or_lt]
    constructor
    · rintro ⟨hk, rfl | hik⟩
      · exact .inl rfl
      · exact .inr ⟨hk, hik⟩
    · rintro (rfl | ⟨hk, hik⟩)
      · exact ⟨hi, .inl rfl⟩
      · exact ⟨hk, .inr hik⟩
  rw [hins]
  refine Finset.sort_insert _ (fun k hk => ?_) ?_
  · exact Nat.le_of_lt (Finset.mem_filter.mp hk).2
  · simp

/-- The members above a member are those that a cursor gives once it has moved on. -/
theorem rest_moved (m : Mask) (i : UInt8) :
    (⟨m, m.next? i⟩ : Cursor).rest = (m.members.filter (i.toNat < ·)).sort := by
  cases hn : m.next? i with
  | none =>
    have hnone : m.members.filter (i.toNat < ·) = ∅ := by
      rw [Finset.filter_eq_empty_iff]
      intro k hk
      exact Nat.not_lt.mpr (next?_eq_none_iff.mp hn k hk)
    rw [hnone, Finset.sort_empty]
    rfl
  | some j =>
    obtain ⟨-, hij, hleast⟩ := next?_eq_some_iff.mp hn
    have hsame : m.members.filter (i.toNat < ·) = m.members.filter (j.toNat ≤ ·) :=
      Finset.filter_congr fun k hk => ⟨hleast k hk, fun hjk => hij.trans_le hjk⟩
    rw [hsame]
    exact rest_of_some rfl

/-- A step gives the first member that is left and stands before the others. -/
theorem next_eq {c : Cursor} (hc : c.Valid) :
    c.next.1.map UInt8.toNat = c.rest.head? ∧ c.next.2.rest = c.rest.tail ∧
      c.next.2.Valid ∧ c.next.2.mask = c.mask := by
  obtain ⟨m, up⟩ := c
  cases up with
  | none => exact ⟨rfl, rfl, hc, rfl⟩
  | some i =>
    have hrest : (⟨m, some i⟩ : Cursor).rest = i.toNat :: (m.members.filter (i.toNat < ·)).sort :=
      sort_filter_le (hc i rfl)
    rw [hrest]
    refine ⟨rfl, rest_moved m i, fun j hj => ?_, rfl⟩
    exact (next?_eq_some_iff.mp hj).1

/-- What a cursor gives in `k` steps are the first `k` members that are left. -/
theorem toNat_take : ∀ (k : ℕ) {c : Cursor}, c.Valid →
    (c.take k).map UInt8.toNat = c.rest.take k
  | 0, _, _ => by rw [List.take_zero, take, List.map_nil]
  | k + 1, c, hc => by
    obtain ⟨hhead, htail, hvalid, -⟩ := next_eq hc
    rw [take]
    split
    · rename_i c' hn
      rw [hn] at hhead
      rw [List.map_nil, List.head?_eq_none_iff.mp hhead.symm, List.take_nil]
    · rename_i i c' hn
      rw [hn] at hhead htail hvalid
      obtain ⟨is, his⟩ : ∃ is, c.rest = i.toNat :: is := List.head?_eq_some_iff.mp hhead.symm
      rw [List.map_cons, toNat_take k hvalid, htail, his, List.tail_cons, List.take_succ_cons]

end Cursor

/-! ### All indices -/

theorem valid_cursor {m : Mask} (hm : m.Bounded) : m.cursor.Valid :=
  fun _ hi => ((lowest?_eq_some_iff hm).mp hi).1

theorem rest_cursor {m : Mask} (hm : m.Bounded) :
    m.cursor.rest = m.members.sort := by
  cases hl : m.lowest? with
  | none =>
    rw [(lowest?_eq_none_iff hm).mp hl, Finset.sort_empty, Cursor.rest, cursor, hl]
  | some i =>
    have hall : m.members.filter (i.toNat ≤ ·) = m.members :=
      Finset.filter_true_of_mem ((lowest?_eq_some_iff hm).mp hl).2
    rw [Cursor.rest_of_some hl]
    exact congrArg Finset.sort hall

theorem card_members_le (m : Mask) : m.members.card ≤ m.size :=
  (Finset.card_le_card (Finset.filter_subset _ _)).trans (Finset.card_range _).le

theorem length_sort_members_le (m : Mask) : m.members.sort.length ≤ m.size := by
  rw [Finset.length_sort]
  exact m.card_members_le

/-- The indices of a bounded mask are its members, ascending and each once. -/
theorem toNat_indices {m : Mask} (hm : m.Bounded) :
    m.indices.map UInt8.toNat = m.members.sort := by
  rw [indices, Cursor.toNat_take _ (valid_cursor hm), rest_cursor hm,
    List.take_of_length_le m.length_sort_members_le]

theorem pairwise_indices {m : Mask} (hm : m.Bounded) :
    m.indices.Pairwise (· < ·) := by
  have hsort : (m.indices.map UInt8.toNat).Pairwise (· < ·) := by
    rw [toNat_indices hm]
    exact (Finset.sortedLT_sort m.members).pairwise
  exact (List.pairwise_map.mp hsort).imp UInt8.lt_iff_toNat_lt.mpr

theorem exists_mem_indices {m : Mask} (hm : m.Bounded) {k : ℕ}
    (hk : k ∈ m.members) : ∃ i ∈ m.indices, i.toNat = k := by
  rwa [← Finset.mem_sort (· ≤ ·), ← toNat_indices hm, List.mem_map] at hk

theorem toNat_mem_of_mem_indices {m : Mask} (hm : m.Bounded) {i : UInt8}
    (hi : i ∈ m.indices) : i.toNat ∈ m.members := by
  rw [← Finset.mem_sort (· ≤ ·), ← toNat_indices hm]
  exact List.mem_map_of_mem hi

theorem indices_congr {a b : Mask} (ha : a.Bounded) (hb : b.Bounded) (h : a.members = b.members) :
    a.indices = b.indices := by
  have hmap : a.indices.map UInt8.toNat = b.indices.map UInt8.toNat := by
    rw [toNat_indices ha, toNat_indices hb, h]
  exact List.map_injective_iff.mpr (fun _ _ => UInt8.toNat_inj.mp) hmap

theorem mem_indices {m : Mask} (hm : m.Bounded) {i : UInt8} :
    i ∈ m.indices ↔ m.get i = true := by
  rw [← toNat_mem_members]
  constructor
  · exact toNat_mem_of_mem_indices hm
  · intro hi
    obtain ⟨j, hj, hji⟩ := exists_mem_indices hm hi
    rwa [← UInt8.toNat_inj.mp hji]

/-- The indices of a mask cut down by another are cut from its list in order. -/
theorem indices_filter {a m w : Mask} (ha : a.Bounded) (hm : m.Bounded)
    (hget : ∀ i, a.get i = (m.get i && w.get i)) : a.indices = m.indices.filter w.get := by
  refine (pairwise_indices ha).eq_of_mem_iff ((pairwise_indices hm).filter _) fun i => ?_
  rw [List.mem_filter, mem_indices ha, mem_indices hm, hget, Bool.and_eq_true]

end Mask

end BoardObjects
