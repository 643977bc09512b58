/-
# The searches visit every set bit

The set bits of a list of words have ascending positions (`Words.positions`). A search
from the start and one from each index that has been found (`Words.visit`) go through
them one by one (`visit_eq_getElem?`), provided that no bit at or above the size is set,
and the search from the end finds the position where they stop
(`getLast?_positions`).

For this the results of the searches are put as extremal elements: what `Words.first?`
finds is the least set bit, `Words.next?` finds the least one between its index and the
size, whatever is set elsewhere. In an ascending list the element behind another one is
the least of those above it, so the two agree at each step.
-/
import BoardObjects.Proofs.Words.Search
import Mathlib.Order.Bounds.Basic

namespace BoardObjects

namespace Words

/-! ### Ascending lists -/

section

variable {l : List ℕ}

theorem head?_eq_some_iff (hl : l.Pairwise (· < ·)) {a : ℕ} :
    l.head? = some a ↔ IsLeast {b | b ∈ l} a := by
  constructor
  · intro h
    obtain ⟨xs, rfl⟩ := List.head?_eq_some_iff.mp h
    refine ⟨List.mem_cons_self, fun b hb => ?_⟩
    rcases List.mem_cons.mp hb with rfl | hb
    · exact le_rfl
    · exact (List.rel_of_pairwise_cons hl hb).le
  · rintro ⟨hmem, hleast⟩
    cases l with
    | nil => exact absurd hmem List.not_mem_nil
    | cons x xs =>
      have hxa : x ≤ a := by
        rcases List.mem_cons.mp hmem with rfl | ha
        · exact le_rfl
        · exact (List.rel_of_pairwise_cons hl ha).le
      rw [List.head?_cons, hxa.antisymm (hleast List.mem_cons_self)]

theorem getLast?_eq_some_iff (hl : l.Pairwise (· < ·)) {a : ℕ} :
    l.getLast? = some a ↔ IsGreatest {b | b ∈ l} a := by
  have hgreatest : ∀ {b}, l.getLast? = some b → IsGreatest {b | b ∈ l} b := fun {b} h => by
    obtain ⟨xs, rfl⟩ := List.getLast?_eq_some_iff.mp h
    refine ⟨List.mem_append_right _ List.mem_cons_self, fun c hc => ?_⟩
    rcases List.mem_append.mp hc with hc | hc
    · exact ((List.pairwise_append.mp hl).2.2 c hc b List.mem_cons_self).le
    · exact (List.mem_singleton.mp hc).le
  refine ⟨hgreatest, fun h => ?_⟩
  cases hb : l.getLast? with
  | none => exact absurd h.1 (List.getLast?_eq_none_iff.mp hb ▸ List.not_mem_nil)
  | some b => rw [(hgreatest hb).unique h]

/-- The element behind `a` is the least one above it. -/
theorem getElem?_succ_eq_some_iff (hl : l.Pairwise (· < ·)) {k a b : ℕ} (ha : l[k]? = some a) :
    l[k + 1]? = some b ↔ IsLeast {c | c ∈ l ∧ a < c} b := by
  induction l generalizing k with
  | nil => cases ha
  | cons x xs ih =>
    obtain ⟨hx, hxs⟩ := List.pairwise_cons.mp hl
    rw [List.getElem?_cons_succ]
    have hset : a ∈ xs → {c | c ∈ x :: xs ∧ a < c} = {c | c ∈ xs ∧ a < c} := fun hmem => by
      ext c
      refine and_congr_left fun hac => ?_
      rw [List.mem_cons, or_iff_right]
      rintro rfl
      exact absurd (hx a hmem) hac.not_gt
    cases k with
    | zero =>
      obtain rfl : x = a := Option.some.inj ha
      have habove : {c | c ∈ x :: xs ∧ x < c} = {c | c ∈ xs} := by
        ext c
        refine ⟨fun hc => ?_, fun hc => ⟨List.mem_cons_of_mem _ hc, hx c hc⟩⟩
        exact (List.mem_cons.mp hc.1).resolve_left hc.2.ne'
      rw [← List.head?_eq_getElem?, head?_eq_some_iff hxs, habove]
    | succ k =>
      rw [List.getElem?_cons_succ] at ha
      rw [hset (List.mem_of_getElem? ha)]
      exact ih hxs ha

end

/-! ### Searches as extremal elements -/

variable {n : ℕ} {ws : List Word}

theorem first?_eq_some_iff_isLeast {i : ℕ} :
    first? ws = some i ↔ IsLeast {j | bit ws j = true} i := by
  rw [first?_eq_some_iff]
  refine and_congr_right fun _ => ⟨fun h j hj => ?_, fun h j hji => ?_⟩
  · by_contra hji
    rw [Set.mem_ofPred_eq, h j (Nat.lt_of_not_le hji)] at hj
    cases hj
  · rw [← Bool.not_eq_true]
    exact fun hj => absurd (h hj) (Nat.not_le.mpr hji)

theorem next?_eq_some_iff_isLeast {i j : ℕ} :
    next? n ws i = some j ↔ IsLeast {k | i < k ∧ k < n ∧ bit ws k = true} j := by
  rw [next?_eq_some_iff]
  constructor
  · rintro ⟨hij, hjn, hset, hleast⟩
    refine ⟨⟨hij, hjn, hset⟩, fun k hk => ?_⟩
    by_contra hkj
    have hclear := hleast k hk.1 (Nat.lt_of_not_le hkj)
    rw [hk.2.2] at hclear
    cases hclear
  · rintro ⟨⟨hij, hjn, hset⟩, hleast⟩
    refine ⟨hij, hjn, hset, fun k hik hkj => ?_⟩
    rw [← Bool.not_eq_true]
    exact fun hk => absurd (hleast ⟨hik, hkj.trans hjn, hk⟩) (Nat.not_le.mpr hkj)

/-- Where no bit at or above the size is set, `last?` answers with the greatest index of
a set bit. -/
theorem last?_eq_some_iff_isGreatest (h : ∀ i, n ≤ i → bit ws i = false) {i : ℕ} :
    last? n ws = some i ↔ IsGreatest {j | bit ws j = true} i := by
  rw [last?_eq_some_iff]
  constructor
  · rintro ⟨-, hset, habove⟩
    refine ⟨hset, fun j hj => ?_⟩
    by_contra hij
    rw [Set.mem_ofPred_eq, habove j (Nat.lt_of_not_le hij)] at hj
    cases hj
  · rintro ⟨hset, hgreatest⟩
    refine ⟨lt_of_bit h hset, hset, fun j hij => ?_⟩
    rw [← Bool.not_eq_true]
    exact fun hj => absurd (hgreatest hj) (Nat.not_le.mpr hij)

/-! ### One search after the other -/

/-- The indices of the set bits, ascending. -/
def positions (ws : List Word) : List ℕ := (List.range (32 * ws.length)).filter (bit ws)

/-- What the search from the start finds, and after it the search from each index that
has been found. -/
def visit (n : ℕ) (ws : List Word) : ℕ → Option ℕ
  | 0 => first? ws
  | k + 1 => (visit n ws k).bind (next? n ws)

theorem mem_positions {i : ℕ} : i ∈ positions ws ↔ bit ws i = true := by
  rw [positions, List.mem_filter, List.mem_range, and_iff_right_iff_imp]
  exact lt_of_bit (bit_of_length_le ws)

theorem pairwise_positions (ws : List Word) : (positions ws).Pairwise (· < ·) :=
  List.pairwise_lt_range.filter _

theorem setOf_mem_positions (ws : List Word) : {i | i ∈ positions ws} = {i | bit ws i = true} :=
  Set.ext fun _ => mem_positions

theorem head?_positions (ws : List Word) : (positions ws).head? = first? ws := by
  ext i
  rw [head?_eq_some_iff (pairwise_positions ws), setOf_mem_positions, first?_eq_some_iff_isLeast]

theorem getLast?_positions (h : ∀ i, n ≤ i → bit ws i = false) :
    (positions ws).getLast? = last? n ws := by
  ext i
  rw [getLast?_eq_some_iff (pairwise_positions ws), setOf_mem_positions,
    last?_eq_some_iff_isGreatest h]

theorem next?_of_getElem?_positions (h : ∀ i, n ≤ i → bit ws i = false) {k i : ℕ}
    (hi : (positions ws)[k]? = some i) : next? n ws i = (positions ws)[k + 1]? := by
  have hset : {j | i < j ∧ j < n ∧ bit ws j = true} = {j | j ∈ positions ws ∧ i < j} := by
    ext j
    rw [Set.mem_ofPred_eq, Set.mem_ofPred_eq, mem_positions, and_comm, and_congr_left_iff]
    exact fun _ => and_iff_right_iff_imp.mpr (lt_of_bit h)
  ext j
  rw [next?_eq_some_iff_isLeast, getElem?_succ_eq_some_iff (pairwise_positions ws) hi, hset]

/-- The searches visit the positions in their order, and then find nothing. -/
theorem visit_eq_getElem? (h : ∀ i, n ≤ i → bit ws i = false) (k : ℕ) :
    visit n ws k = (positions ws)[k]? := by
  induction k with
  | zero => rw [visit, ← head?_positions, List.head?_eq_getElem?]
  | succ k ih =>
    rw [visit, ih]
    cases hk : (positions ws)[k]? with
    | none =>
      have hlen : (positions ws).length ≤ k := List.getElem?_eq_none_iff.mp hk
      rw [List.getElem?_eq_none (hlen.trans k.le_succ)]
      rfl
    | some i => exact next?_of_getElem?_positions h hk

/-- **Searches in any list of words are exact**, whatever the size and the list. The search
from the start finds the least set bit; the one from an index on the least above it and
below the size, in machine integers as well; the one from the end the greatest of the whole
list, if that is below the size. Where no bit at or above the size is set, the searches
from the start and on from each index that has been found visit all set bits in ascending
order, and the last one is that of the search from the end. -/
theorem searches_exact (n : ℕ) (ws : List Word) :
    (∀ i, first? ws = some i ↔ IsLeast {j | bit ws j = true} i) ∧
    (first? ws = none ↔ ∀ i, bit ws i = false) ∧
    (∀ i j, next? n ws i = some j ↔ IsLeast {k | i < k ∧ k < n ∧ bit ws k = true} j) ∧
    (∀ i, next? n ws i = none ↔ ∀ j, i < j → j < n → bit ws j = false) ∧
    (∀ m i : USize, m.toNat = n → nextUSize? m ws i = next? n ws i.toNat) ∧
    (∀ i, last? n ws = some i ↔ i < n ∧ bit ws i = true ∧ ∀ j, i < j → bit ws j = false) ∧
    ((∀ i, n ≤ i → bit ws i = false) →
      (∀ i, last? n ws = some i ↔ IsGreatest {j | bit ws j = true} i) ∧
      (last? n ws = none ↔ ∀ i, bit ws i = false) ∧
      ∃ is : List ℕ, is.Pairwise (· < ·) ∧ (∀ i, i ∈ is ↔ bit ws i = true) ∧
        (∀ k, visit n ws k = is[k]?) ∧ is.getLast? = last? n ws) := by
  refine ⟨fun i => first?_eq_some_iff_isLeast, first?_eq_none_iff,
    fun i j => next?_eq_some_iff_isLeast, fun i => next?_eq_none_iff,
    fun m i hm => hm ▸ nextUSize?_eq m ws i, fun i => last?_eq_some_iff,
    fun h => ⟨fun i => last?_eq_some_iff_isGreatest h, last?_eq_none_iff h, positions ws,
      pairwise_positions ws, fun i => mem_positions, visit_eq_getElem? h, getLast?_positions h⟩⟩

/-- Three words with the bits 32, 63 and 68. For a size of 64 the last of them is too
high, and hides the others from the search from the end; for a size of 96 all three are
visited. Nothing is above the greatest 64-bit number. -/
theorem searches_exact_too_high :
    let ws : List Word := [0#32, 0x80000001#32, 0x10#32]
    IsLeast {j | bit ws j = true} 32 ∧ IsLeast {k | 32 < k ∧ k < 64 ∧ bit ws k = true} 63 ∧
      next? 64 ws 63 = none ∧ next? 64 ws 0xffffffffffffffff = none ∧
      bit ws 63 = true ∧ bit ws 68 = true ∧ last? 64 ws ≠ some 63 ∧
      (∀ i, 96 ≤ i → bit ws i = false) ∧ IsGreatest {j | bit ws j = true} 68 ∧
      ∃ is : List ℕ, is[2]? = some 68 ∧ is[3]? = none ∧ is.getLast? = some 68 ∧ 63 ∈ is := by
  intro ws
  have hend : ∀ i, 96 ≤ i → bit ws i = false := fun i hi => bit_of_length_le ws i hi
  have hhigh : bit ws 68 = true := by decide
  obtain ⟨hfirst, -, hnext, hnone, -, hlast, -⟩ := searches_exact 64 ws
  obtain ⟨-, -, -, -, -, -, hclean⟩ := searches_exact 96 ws
  obtain ⟨hgreatest, -, is, -, hmem, hvisit, hgetLast⟩ := hclean hend
  have hgreat : last? 96 ws = some 68 := by decide +kernel
  refine ⟨(hfirst 32).mp (by decide +kernel), (hnext 32 63).mp (by decide +kernel),
    (hnone 63).mpr ?_, (hnone _).mpr ?_, by decide, hhigh, fun h => ?_, hend,
    (hgreatest 68).mp hgreat, is, (hvisit 2).symm.trans (by decide +kernel),
    (hvisit 3).symm.trans (by decide +kernel), hgetLast.trans hgreat, (hmem 63).mpr (by decide)⟩
  · intro j h63 h64
    omega
  · intro j hmax h64
    omega
  · obtain ⟨-, -, habove⟩ := (hlast 63).mp h
    rw [habove 68 (by decide)] at hhigh
    cases hhigh

end Words

end BoardObjects
