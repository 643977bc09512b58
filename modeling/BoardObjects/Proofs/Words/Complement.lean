/-
# Filling and complement under any filter

`Words.normalize`, `Words.invert` and `Words.setAll` treat the last word unlike the others:
there the filter decides which bits stay. The filter may be any word, with gaps or with no
bit at all, and the list may have set bits that the filter leaves out. So the three are told
by one notion, the indices in use (`Words.inUse`): they differ in the bit that they put at
such an index, and clear all others (`bit_normalize_inUse`, `bit_invert_inUse`,
`bit_setAll_inUse`). Each law is then one of a bit and of "in use".

Taking the complement twice is therefore not the identity: it is `normalize`. At an index
in use either the list or its complement has a set bit, and at the others neither, so their
counts make up that of the filled list (`count_invert_add_count_normalize`), which is 32
for each word before the last one and the bits of the filter for that one
(`count_setAll_true`).
-/
import BoardObjects.Proofs.Words.Count
import BoardObjects.Proofs.Words.Search

namespace BoardObjects

namespace Words

/-- The indices in use of a list of `len` words: those that it reaches, in the last word
those of the filter. -/
def inUse (filter : Word) (len i : ℕ) : Bool :=
  decide (i / 32 < len) && (decide (i / 32 + 1 ≠ len) || filter.getLsbD (i % 32))

section

variable (filter : Word) (ws : List Word)

/-! ### One index -/

theorem bit_normalize_inUse (i : ℕ) :
    bit (normalize filter ws) i = (bit ws i && inUse filter ws.length i) := by
  rw [bit_normalize, inUse]
  rcases Nat.lt_or_ge (i / 32) ws.length with hl | hl
  · rw [decide_eq_true hl, Bool.true_and]
  · rw [bit_of_length_le ws i (by omega), Bool.false_and, Bool.false_and]

theorem bit_invert_inUse (i : ℕ) :
    bit (invert filter ws) i = (!bit ws i && inUse filter ws.length i) := by
  rw [bit_invert, Bool.and_assoc]
  rfl

theorem bit_setAll_inUse (v : Bool) (i : ℕ) :
    bit (setAll filter ws v) i = (v && inUse filter ws.length i) := by
  rw [bit_setAll, Bool.and_assoc]
  rfl

/-! ### One after the other -/

theorem normalize_normalize : normalize filter (normalize filter ws) = normalize filter ws := by
  refine ext_bit (length_normalize ..) fun i => ?_
  rw [bit_normalize_inUse, bit_normalize_inUse, length_normalize, Bool.and_assoc, Bool.and_self]

/-- Of the bits that two complements give back, those not in use are missing. -/
theorem invert_invert : invert filter (invert filter ws) = normalize filter ws := by
  refine ext_bit (by rw [length_invert, length_invert, length_normalize]) fun i => ?_
  rw [bit_invert_inUse, bit_invert_inUse, bit_normalize_inUse, length_invert]
  cases bit ws i <;> cases inUse filter ws.length i <;> rfl

theorem invert_setAll (v : Bool) : invert filter (setAll filter ws v) = setAll filter ws (!v) := by
  refine ext_bit (by rw [length_invert, length_setAll, length_setAll]) fun i => ?_
  rw [bit_invert_inUse, bit_setAll_inUse, bit_setAll_inUse, length_setAll]
  cases v <;> cases inUse filter ws.length i <;> rfl

/-! ### Counts -/

theorem count_setAll_true : ∀ {ws : List Word}, ws ≠ [] →
    count (setAll filter ws true) = 32 * (ws.length - 1) + filter.popCount
  | [], h => absurd rfl h
  | [w], _ => by
    have hlast : setAll filter [w] true = [filter] := congrArg (fun u => [u]) BitVec.allOnes_and
    rw [hlast, count, count, List.length_singleton]
    omega
  | w :: v :: ws, _ => by
    have hfirst : setAll filter (w :: v :: ws) true =
        BitVec.allOnes 32 :: setAll filter (v :: ws) true := rfl
    have ih := count_setAll_true (List.cons_ne_nil v ws)
    rw [hfirst, count, Word.popCount_allOnes, ih]
    simp only [List.length_cons]
    omega

/-- An index in use is counted once, by the list or by its complement. -/
theorem count_invert_add_count_normalize :
    count (invert filter ws) + count (normalize filter ws) = count (setAll filter ws true) := by
  refine count_add_count (d := []) fun i => ?_
  rw [bit_invert_inUse, bit_normalize_inUse, bit_setAll_inUse, bit_nil]
  cases bit ws i <;> cases inUse filter ws.length i <;> rfl

end

/-- **Filling and complement under any filter**, which need not be that of a size. Two
complements are one normalization, and a second one changes nothing. The complement of the
list filled with ones is the list filled with zeros. A list is full exactly if it
has a word and is what filling it gives, and empty exactly if it counts no bit or the
search from the start finds none. A normalization and its complement together count the
bits of all words but the last and those of the filter. -/
theorem complement_laws (filter : Word) (ws : List Word) :
    invert filter (invert filter ws) = normalize filter ws ∧
    normalize filter (normalize filter ws) = normalize filter ws ∧
    invert filter (setAll filter ws true) = setAll filter ws false ∧
    (isFull filter ws = true ↔ ws ≠ [] ∧ ws = setAll filter ws true) ∧
    (isEmpty ws = true ↔ count ws = 0) ∧ (count ws = 0 ↔ first? ws = none) ∧
    (ws ≠ [] → count (invert filter ws) + count (normalize filter ws) =
      32 * (ws.length - 1) + filter.popCount) := by
  refine ⟨invert_invert filter ws, normalize_normalize filter ws, invert_setAll filter ws true, ?_,
    isEmpty_iff.trans count_eq_zero_iff.symm,
    count_eq_zero_iff.trans first?_eq_none_iff.symm, fun h => ?_⟩
  · rw [isFull_iff, @eq_comm _ ws]
  · rw [count_invert_add_count_normalize, count_setAll_true filter h]

/-- A filter with the bits 0, 2 and 31 only, and a last word whose bits 1 and 3 it leaves
out: two complements clear these, and the counts make up 32 and 3. -/
theorem complement_laws_gaps :
    let ws : List Word := [0xffff0000#32, 0xf#32]
    ws ≠ [] ∧ invert 0x80000005#32 (invert 0x80000005#32 ws) = [0xffff0000#32, 5#32] ∧
      count (invert 0x80000005#32 ws) + count (normalize 0x80000005#32 ws) = 32 + 3 := by
  intro ws
  obtain ⟨htwice, -, -, -, -, -, hcount⟩ := complement_laws 0x80000005#32 ws
  have hne : ws ≠ [] := List.cons_ne_nil _ _
  exact ⟨hne, htwice.trans (by decide), (hcount hne).trans (by decide +kernel)⟩

end Words

end BoardObjects
