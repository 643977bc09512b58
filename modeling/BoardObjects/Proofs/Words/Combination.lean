/-
# Joining and comparing lists of any lengths

`Words.combine` and `Words.isSubset` go through their lists side by side and stop at the end
of the shortest one. So a word is written where all three lists have one, and elsewhere the
destination keeps what it had (`getElem?_combine_of_lt`, `getElem?_combine_of_le`); and two
lists are compared as far as both reach (`isSubset_iff_common`), which is to say that
nothing is left of the first one, that far, without the second (`isEmpty_combine_without`).

For lists of one length the destination is overwritten as a whole, and a function that works
on each bit alone gives the bits of the operands joined. The counting laws are then laws of
two bits (`count_or_add_count_and`, `count_xor_add_count_and`, `count_without_add_count_and`).
-/
import BoardObjects.Proofs.Words.Count

namespace BoardObjects

namespace Words

/-! ### Lists of any lengths -/

section

variable {f : Word → Word → Word} {dst a b : List Word} {k : ℕ}

/-- Where all three lists have a word, that of the destination is overwritten. -/
theorem getElem?_combine_of_lt (hd : k < dst.length) (ha : k < a.length) (hb : k < b.length) :
    (combine f dst a b)[k]? = some (f a[k] b[k]) := by
  rw [getElem?_combine, List.getElem?_eq_getElem hd, List.getElem?_eq_getElem ha,
    List.getElem?_eq_getElem hb, Option.map_some]

/-- Where one of them has ended, the destination keeps what it had. -/
theorem getElem?_combine_of_le (h : min dst.length (min a.length b.length) ≤ k) :
    (combine f dst a b)[k]? = dst[k]? := by
  rw [getElem?_combine]
  rcases Nat.lt_or_ge k a.length with ha | ha
  · rcases Nat.lt_or_ge k b.length with hb | hb
    · rw [List.getElem?_eq_none (show dst.length ≤ k by omega), Option.map_none]
    · rw [List.getElem?_eq_none hb]
      cases a[k]? <;> exact Option.map_id_apply
  · rw [List.getElem?_eq_none ha]
    exact Option.map_id_apply

theorem bit_take (ws : List Word) (k i : ℕ) :
    bit (ws.take k) i = (decide (i < 32 * k) && bit ws i) := by
  simp only [bit, List.getD_eq_getElem?_getD, List.getElem?_take]
  by_cases hi : i / 32 < k
  · rw [if_pos hi, decide_eq_true (show i < 32 * k by omega), Bool.true_and]
  · rw [if_neg hi, decide_eq_false (show ¬i < 32 * k by omega), Bool.false_and, Option.getD_none,
      BitVec.getLsbD_zero]

/-- Two lists are compared as far as both reach. -/
theorem isSubset_iff_common :
    isSubset a b = true ↔
      ∀ i, i < 32 * min a.length b.length → bit a i = true → bit b i = true := by
  -- cut where the shorter list ends, both have one length and the comparison is the same
  have htake : isSubset a b =
      isSubset (a.take (min a.length b.length)) (b.take (min a.length b.length)) := by
    rw [isSubset, List.zip_eq_zip_take_min]
    rfl
  have hlen : (a.take (min a.length b.length)).length = (b.take (min a.length b.length)).length := by
    rw [List.length_take, List.length_take]
    omega
  rw [htake, isSubset_iff hlen]
  refine forall_congr' fun i => ?_
  rw [bit_take, bit_take]
  by_cases hi : i < 32 * min a.length b.length
  · rw [decide_eq_true hi, Bool.true_and, Bool.true_and, imp_iff_right hi]
  · simp [hi]

theorem bit_combine_common {g : Bool → Bool → Bool}
    (hf : ∀ x y j, (f x y).getLsbD j = g (x.getLsbD j) (y.getLsbD j))
    (h : dst.length = min a.length b.length) (i : ℕ) :
    bit (combine f dst a b) i =
      (decide (i < 32 * min a.length b.length) && g (bit a i) (bit b i)) := by
  by_cases hi : i < 32 * min a.length b.length
  · have hd : i / 32 < dst.length := by omega
    have ha : i / 32 < a.length := by omega
    have hb : i / 32 < b.length := by omega
    rw [decide_eq_true hi, Bool.true_and]
    simp only [bit, List.getD_eq_getElem?_getD, getElem?_combine_of_lt hd ha hb,
      List.getElem?_eq_getElem ha, List.getElem?_eq_getElem hb, Option.getD_some, hf]
  · rw [decide_eq_false hi, Bool.false_and, bit_of_length_le _ i (by rw [length_combine]; omega)]

/-- The first list has no bit, as far as both reach, that the second has not. -/
theorem isEmpty_combine_without (h : dst.length = min a.length b.length) :
    isEmpty (combine Word.without dst a b) = true ↔ isSubset a b = true := by
  rw [isEmpty_iff, isSubset_iff_common]
  refine forall_congr' fun i => ?_
  rw [bit_combine_common (g := fun x y => x && !y) Word.getLsbD_without h]
  by_cases hi : i < 32 * min a.length b.length
  · rw [decide_eq_true hi, Bool.true_and, imp_iff_right hi]
    cases bit a i <;> cases bit b i <;> decide
  · simp [hi]

end

/-! ### Lists of one length -/

section

variable {dst dst' a b : List Word}

/-- The whole destination is overwritten, and where the lists end no bit is set. -/
theorem bit_combine_eq {f : Word → Word → Word} {g : Bool → Bool → Bool}
    (hf : ∀ x y j, (f x y).getLsbD j = g (x.getLsbD j) (y.getLsbD j)) (hg : g false false = false)
    (ha : dst.length = a.length) (hb : dst.length = b.length) (i : ℕ) :
    bit (combine f dst a b) i = g (bit a i) (bit b i) := by
  rw [bit_combine hf ha hb]
  rcases Nat.lt_or_ge (i / 32) dst.length with hi | hi
  · rw [decide_eq_true hi, Bool.true_and]
  · rw [bit_of_length_le a i (by omega), bit_of_length_le b i (by omega), hg, Bool.and_false]

theorem bit_combine_and (ha : dst.length = a.length) (hb : dst.length = b.length) (i : ℕ) :
    bit (combine (· &&& ·) dst a b) i = (bit a i && bit b i) :=
  bit_combine_eq (fun _ _ _ => BitVec.getLsbD_and) rfl ha hb i

theorem bit_combine_or (ha : dst.length = a.length) (hb : dst.length = b.length) (i : ℕ) :
    bit (combine (· ||| ·) dst a b) i = (bit a i || bit b i) :=
  bit_combine_eq (fun _ _ _ => BitVec.getLsbD_or) rfl ha hb i

/-- A bit of both lists counts for "or" and for "and". -/
theorem count_or_add_count_and (ha : dst.length = a.length) (hb : dst.length = b.length)
    (hd : dst'.length = dst.length) :
    count (combine (· ||| ·) dst a b) + count (combine (· &&& ·) dst' a b) = count a + count b := by
  refine count_add_count fun i => ?_
  rw [bit_combine_or ha hb, bit_combine_and (hd.trans ha) (hd.trans hb)]
  cases bit a i <;> cases bit b i <;> rfl

/-- A bit of "or" is one of "xor" or one of "and". -/
theorem count_xor_add_count_and (ha : dst.length = a.length) (hb : dst.length = b.length)
    (hd : dst'.length = dst.length) :
    count (combine (· ^^^ ·) dst a b) + count (combine (· &&& ·) dst' a b) =
      count (combine (· ||| ·) dst a b) := by
  refine count_add_count (d := []) fun i => ?_
  rw [bit_combine_eq (fun _ _ _ => BitVec.getLsbD_xor) rfl ha hb, bit_combine_or ha hb,
    bit_combine_and (hd.trans ha) (hd.trans hb), bit_nil]
  cases bit a i <;> cases bit b i <;> rfl

/-- A bit of the first list is one of "and not" or one of "and". -/
theorem count_without_add_count_and (ha : dst.length = a.length) (hb : dst.length = b.length)
    (hd : dst'.length = dst.length) :
    count (combine Word.without dst a b) + count (combine (· &&& ·) dst' a b) = count a := by
  refine count_add_count (d := []) fun i => ?_
  rw [bit_combine_eq (g := fun x y => x && !y) Word.getLsbD_without rfl ha hb,
    bit_combine_and (hd.trans ha) (hd.trans hb), bit_nil]
  cases bit a i <;> cases bit b i <;> rfl

end

/-- **Lists of any lengths are joined and compared as far as they reach.** Joining writes
the positions that all three lists have and leaves the others. One list is a subset of
another exactly if joining them by "and not" leaves no bit. In lists of one length "or"
and "and" together count what the operands count, and so do "xor" and twice "and"; "and
not" counts those of the first operand that "and" does not. -/
theorem combine_laws :
    (∀ (f : Word → Word → Word) (dst a b : List Word),
      (combine f dst a b).length = dst.length ∧
      (∀ k (_ : k < dst.length) (_ : k < a.length) (_ : k < b.length),
        (combine f dst a b)[k]? = some (f a[k] b[k])) ∧
      ∀ k, min dst.length (min a.length b.length) ≤ k → (combine f dst a b)[k]? = dst[k]?) ∧
    (∀ a b : List Word,
      (isSubset a b = true ↔
        ∀ i, i < 32 * min a.length b.length → bit a i = true → bit b i = true) ∧
      ∀ dst : List Word, dst.length = min a.length b.length →
        (isSubset a b = true ↔ isEmpty (combine Word.without dst a b) = true)) ∧
    ∀ dst dst' a b : List Word,
      dst.length = a.length → dst.length = b.length → dst'.length = dst.length →
      count (combine (· ||| ·) dst a b) + count (combine (· &&& ·) dst' a b) =
        count a + count b ∧
      count (combine (· ^^^ ·) dst a b) + 2 * count (combine (· &&& ·) dst' a b) =
        count a + count b ∧
      count (combine (· &&& ·) dst' a b) ≤ count a ∧
      count (combine Word.without dst a b) = count a - count (combine (· &&& ·) dst' a b) := by
  refine ⟨fun f dst a b => ⟨length_combine .., fun k => getElem?_combine_of_lt,
    fun k => getElem?_combine_of_le⟩, fun a b => ⟨isSubset_iff_common,
    fun dst h => (isEmpty_combine_without h).symm⟩, fun dst dst' a b ha hb hd => ?_⟩
  have hor := count_or_add_count_and ha hb hd
  have hxor := count_xor_add_count_and ha hb hd
  have hwithout := count_without_add_count_and ha hb hd
  exact ⟨hor, by omega, by omega, by omega⟩

/-- Lists of three, two and one words: only the first word is written, and bit 32 of the
first operand, which the second one does not reach, does not keep it from being a subset.
Two lists with three bits each share two of them. -/
theorem combine_laws_three_lengths :
    let dst : List Word := [1#32, 2#32, 3#32]
    let a : List Word := [0x80000001#32, 1#32]
    let b : List Word := [0x80000011#32]
    let x : List Word := [6#32, 1#32]
    let y : List Word := [3#32, 1#32]
    (combine (· ^^^ ·) dst a b)[0]? = some 0x10#32 ∧ (combine (· ^^^ ·) dst a b)[1]? = some 2#32 ∧
      bit a 32 = true ∧ isSubset a b = true ∧ bit b 31 = true ∧
      isEmpty (combine Word.without [7#32] a b) = true ∧
      count (combine (· ||| ·) x x y) + count (combine (· &&& ·) y x y) = 6 ∧
      count (combine (· ^^^ ·) x x y) + 2 * count (combine (· &&& ·) y x y) = 6 ∧
      count (combine Word.without x x y) = 3 - 2 := by
  intro dst a b x y
  obtain ⟨hjoin, hcompare, hcount⟩ := combine_laws
  obtain ⟨-, hwritten, hkept⟩ := hjoin (· ^^^ ·) dst a b
  obtain ⟨hsubset, hnothing⟩ := hcompare a b
  obtain ⟨hor, hxor, -, hwithout⟩ := hcount x y x y rfl rfl rfl
  have hsub : isSubset a b = true := by decide
  have hsix : count x + count y = 6 := by decide +kernel
  exact ⟨(hwritten 0 (by decide) (by decide) (by decide)).trans (by decide), hkept 1 (by decide),
    by decide, hsub, hsubset.mp hsub 31 (by decide) (by decide), (hnothing [7#32] rfl).mp hsub,
    hor.trans hsix, hxor.trans hsix, hwithout.trans (by decide +kernel)⟩

end Words

end BoardObjects
