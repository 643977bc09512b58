/-
# What the functions on words do to the bits

A list of words is seen through `Words.bit`, one bit per index, and through its
length. Two lists with the same length and the same bits are equal
(`Words.ext_bit`), and for every function there is one statement about the bits
after it.

Key theorems: `Words.ext_bit`, `Words.get_eq`, `Words.bit_set`,
`Words.bit_normalize`, `Words.bit_setAll`, `Words.isFull_iff`, `Words.bit_invert`,
`Words.bit_flip`, `Words.bit_flipOthers`, `Words.bit_normalize_tailFilter`,
`Words.getElem?_combine`, `Words.bit_combine`, `Words.isSubset_iff`.
-/
import BoardObjects.Words.Basic

namespace BoardObjects

namespace Words

/-! ### One word at a time -/

theorem bit_nil (i : Nat) : bit [] i = false := by simp [bit]

theorem bit_replicate_zero (n i : Nat) : bit (List.replicate n 0#32) i = false := by
  rw [bit, List.getD_eq_getElem?_getD, List.getElem?_replicate]
  split <;> simp

theorem bit_eq_getLsbD (ws : List Word) (k j : Nat) (h : j < 32) :
    bit ws (32 * k + j) = (ws.getD k 0#32).getLsbD j := by
  have hq : (32 * k + j) / 32 = k := by omega
  have hr : (32 * k + j) % 32 = j := by omega
  rw [bit, hq, hr]

theorem bit_of_length_le (ws : List Word) (i : Nat) (h : 32 * ws.length ≤ i) :
    bit ws i = false := by
  have hl : ws.length ≤ i / 32 := by omega
  simp [bit, List.getD_eq_getElem?_getD, List.getElem?_eq_none hl]

/-- Where no bit at or above `n` is set, each set bit lies below `n`. -/
theorem lt_of_bit {n : Nat} {ws : List Word} (h : ∀ i, n ≤ i → bit ws i = false) {i : Nat}
    (hi : bit ws i = true) : i < n := by
  refine Nat.lt_of_not_le fun hn => ?_
  rw [h i hn] at hi
  cases hi

theorem bit_cons_of_lt (w : Word) (ws : List Word) (i : Nat) (h : i < 32) :
    bit (w :: ws) i = w.getLsbD i := by
  have := bit_eq_getLsbD (w :: ws) 0 i h
  simpa using this

theorem bit_cons_add (w : Word) (ws : List Word) (i : Nat) : bit (w :: ws) (i + 32) = bit ws i := by
  have hq : (i + 32) / 32 = i / 32 + 1 := by omega
  have hr : (i + 32) % 32 = i % 32 := by omega
  rw [bit, bit, hq, hr, List.getD_cons_succ]

/-- Two lists of one length with the same bits are equal. -/
theorem ext_bit {a b : List Word} (hl : a.length = b.length) (h : ∀ i, bit a i = bit b i) :
    a = b := by
  apply List.ext_getElem hl
  intro k ha hb
  apply BitVec.eq_of_getLsbD_eq
  intro j hj
  have e := h (32 * k + j)
  rw [bit_eq_getLsbD a k j hj, bit_eq_getLsbD b k j hj] at e
  simpa [List.getD_eq_getElem?_getD, ha, hb] using e

theorem bit_list_set (ws : List Word) (k : Nat) (w : Word) (j : Nat) :
    bit (ws.set k w) j =
      if j / 32 = k ∧ k < ws.length then w.getLsbD (j % 32) else bit ws j := by
  by_cases hk : j / 32 = k
  · subst hk
    by_cases hl : j / 32 < ws.length <;>
      simp [bit, List.getD_eq_getElem?_getD, hl]
  · have hk' : ¬k = j / 32 := fun e => hk e.symm
    simp [bit, List.getD_eq_getElem?_getD, hk, hk']

/-! ### One bit -/

theorem get_eq (n : Nat) (ws : List Word) (i : Nat) :
    get n ws i = if i < n ∧ i / 32 < ws.length then some (bit ws i) else none := by
  by_cases hn : i < n
  · by_cases hl : i / 32 < ws.length
    · simp only [get, hn, hl, and_self, if_true, List.getElem?_eq_getElem hl, Option.map_some,
        Word.shiftRight_and_one_ne_zero]
      simp [bit, List.getD_eq_getElem?_getD, hl]
    · simp [get, hn, hl]
  · simp [get, hn]

theorem getLsbD_assign (w : Word) (k : Nat) (v : Bool) (j : Nat) (h : j < 32) :
    (assign w k v).getLsbD j = if j = k then v else w.getLsbD j := by
  cases v
  · simp only [assign, Bool.false_eq_true, if_false, BitVec.getLsbD_and, BitVec.getLsbD_not,
      Word.getLsbD_single, h, decide_true, Bool.true_and]
    by_cases hj : j = k <;> simp [hj]
  · simp only [assign, if_true, BitVec.getLsbD_or, Word.getLsbD_single, h, decide_true,
      Bool.true_and]
    by_cases hj : j = k <;> simp [hj]

/-- The previous bit is the one that `get` reads. -/
theorem set_fst (n : Nat) (ws : List Word) (i : Nat) (v : Bool) :
    (set n ws i v).1 = get n ws i := by
  have hr : i % 32 < 32 := Nat.mod_lt _ (by decide)
  by_cases hn : i < n
  · by_cases hl : i / 32 < ws.length
    · simp only [set, get, hn, if_true, List.getElem?_eq_getElem hl, Option.map_some,
        Word.shiftRight_and_one_ne_zero, Word.and_single_ne_zero _ hr]
    · simp [set, get, hn, hl]
  · simp [set, get, hn]

/-- Writing a bit that `get` can read changes this bit, and nothing else. -/
theorem bit_set (n : Nat) (ws : List Word) (i : Nat) (v : Bool) (j : Nat) :
    bit (set n ws i v).2 j =
      if i < n ∧ i / 32 < ws.length ∧ j = i then v else bit ws j := by
  by_cases hn : i < n
  · by_cases hl : i / 32 < ws.length
    · have hr : j % 32 < 32 := Nat.mod_lt _ (by decide)
      simp only [set, hn, if_true, List.getElem?_eq_getElem hl, bit_list_set,
        getLsbD_assign _ _ _ _ hr, hl, and_true, true_and]
      by_cases hji : j = i
      · subst hji; simp
      · by_cases hq : j / 32 = i / 32
        · have hm : ¬j % 32 = i % 32 := by omega
          simp [hji, hq, hm, bit, List.getD_eq_getElem?_getD, hl]
        · simp [hji, hq]
    · simp [set, hn, hl]
  · simp [set, hn]

theorem length_set (n : Nat) (ws : List Word) (i : Nat) (v : Bool) :
    (set n ws i v).2.length = ws.length := by
  unfold set
  split
  · split <;> simp
  · rfl

theorem bit_list_modify (ws : List Word) (k : Nat) (f : Word → Word) (j : Nat) :
    bit (ws.modify k f) j =
      if j / 32 = k ∧ k < ws.length then (f (ws.getD k 0#32)).getLsbD (j % 32) else bit ws j := by
  by_cases hk : j / 32 = k
  · subst hk
    by_cases hl : j / 32 < ws.length <;>
      simp [bit, List.getD_eq_getElem?_getD, hl]
  · have hk' : ¬k = j / 32 := fun e => hk e.symm
    simp [bit, List.getD_eq_getElem?_getD, hk, hk']

theorem bit_flip (ws : List Word) (i j : Nat) (h : i / 32 < ws.length) :
    bit (flip ws i) j = (bit ws j ^^ decide (j = i)) := by
  have hr : j % 32 < 32 := Nat.mod_lt _ (by decide)
  rw [flip, bit_list_modify]
  by_cases hq : j / 32 = i / 32
  · have he : (j = i) ↔ (j % 32 = i % 32) := by omega
    simp only [hq, h, and_self, if_true, bit, BitVec.getLsbD_xor, Word.getLsbD_single, hr,
      decide_true, Bool.true_and, he]
  · have he : ¬j = i := by omega
    simp [hq, he]

theorem bit_flipOthers (ws : List Word) (i j : Nat) (h : i / 32 < ws.length) :
    bit (flipOthers ws i) j = (bit ws j ^^ (decide (j / 32 = i / 32) && decide (j ≠ i))) := by
  have hr : j % 32 < 32 := Nat.mod_lt _ (by decide)
  rw [flipOthers, bit_list_modify]
  by_cases hq : j / 32 = i / 32
  · have he : (j = i) ↔ (j % 32 = i % 32) := by omega
    simp only [hq, h, and_self, if_true, bit, BitVec.getLsbD_xor, BitVec.getLsbD_not,
      Word.getLsbD_single, hr, decide_true, Bool.true_and, he, ne_eq, decide_not]
  · simp [hq]

/-! ### All bits -/

theorem length_normalize (filter : Word) : ∀ ws : List Word, (normalize filter ws).length = ws.length
  | [] => rfl
  | [_] => rfl
  | _ :: v :: ws => by simp [normalize, length_normalize filter (v :: ws)]

theorem getElem?_normalize (filter : Word) : ∀ (ws : List Word) (k : Nat),
    (normalize filter ws)[k]? =
      ws[k]?.map fun w => if k + 1 = ws.length then w &&& filter else w
  | [], k => by simp [normalize]
  | [w], 0 => by simp [normalize]
  | [w], k + 1 => by simp [normalize]
  | w :: v :: ws, 0 => by simp [normalize]
  | w :: v :: ws, k + 1 => by
    have ih := getElem?_normalize filter (v :: ws) k
    simp only [normalize, List.getElem?_cons_succ, ih, List.length_cons, Nat.add_right_cancel_iff]

/-- Only the last word loses bits. -/
theorem bit_normalize (filter : Word) (ws : List Word) (i : Nat) :
    bit (normalize filter ws) i =
      (bit ws i && (decide (i / 32 + 1 ≠ ws.length) || filter.getLsbD (i % 32))) := by
  simp only [bit, List.getD_eq_getElem?_getD, getElem?_normalize]
  by_cases hl : i / 32 < ws.length
  · by_cases he : i / 32 + 1 = ws.length <;> simp [hl, he]
  · simp [List.getElem?_eq_none (Nat.le_of_not_lt hl)]

theorem length_setAll (filter : Word) (ws : List Word) (v : Bool) :
    (setAll filter ws v).length = ws.length := by
  simp [setAll, length_normalize]

theorem bit_setAll (filter : Word) (ws : List Word) (v : Bool) (i : Nat) :
    bit (setAll filter ws v) i =
      (v && decide (i / 32 < ws.length) &&
        (decide (i / 32 + 1 ≠ ws.length) || filter.getLsbD (i % 32))) := by
  have hr : i % 32 < 32 := Nat.mod_lt _ (by decide)
  rw [setAll, bit_normalize, List.length_map]
  by_cases hl : i / 32 < ws.length
  · have hw : (ws.map fun _ => if v then BitVec.allOnes 32 else 0#32).getD (i / 32) 0#32 =
        if v then BitVec.allOnes 32 else 0#32 := by
      simp [List.getD_eq_getElem?_getD, hl]
    rw [bit, hw]
    cases v
    · simp
    · simp only [if_true, BitVec.getLsbD_allOnes, hr, hl, decide_true, Bool.true_and]
  · cases v <;> simp [bit, List.getD_eq_getElem?_getD, hl]

/-- A list is full if filling it changes nothing, unless it is empty. -/
theorem isFull_iff (filter : Word) : ∀ ws : List Word,
    isFull filter ws = true ↔ ws ≠ [] ∧ setAll filter ws true = ws
  | [] => by simp [isFull]
  | [w] => by
    have hset : setAll filter [w] true = [filter] := congrArg (fun u => [u]) BitVec.allOnes_and
    rw [hset, isFull, beq_iff_eq, List.cons.injEq, eq_comm]
    simp
  | w :: v :: ws => by
    have ih := isFull_iff filter (v :: ws)
    have hfull : isFull filter (w :: v :: ws) = (w == BitVec.allOnes 32 && isFull filter (v :: ws)) :=
      rfl
    have hset : setAll filter (w :: v :: ws) true =
        BitVec.allOnes 32 :: setAll filter (v :: ws) true := rfl
    rw [hfull, hset, Bool.and_eq_true, beq_iff_eq, ih, List.cons.injEq, @eq_comm _ w]
    simp

theorem length_invert (filter : Word) (ws : List Word) : (invert filter ws).length = ws.length := by
  simp [invert, length_normalize]

theorem bit_invert (filter : Word) (ws : List Word) (i : Nat) :
    bit (invert filter ws) i =
      (!bit ws i && decide (i / 32 < ws.length) &&
        (decide (i / 32 + 1 ≠ ws.length) || filter.getLsbD (i % 32))) := by
  have hr : i % 32 < 32 := Nat.mod_lt _ (by decide)
  rw [invert, bit_normalize, List.length_map]
  by_cases hl : i / 32 < ws.length
  · simp [bit, List.getD_eq_getElem?_getD, hl, hr]
  · simp [bit, List.getD_eq_getElem?_getD, hl]

/-! ### Geometry -/

theorem single_sub_one : ∀ r : Fin 32, Word.single r - 1#32 = BitVec.ofNat 32 (1 <<< r.val - 1) := by
  decide

/-- The tail filter keeps the bits below the size, and all bits of a last word
that the size fills. -/
theorem getLsbD_tailFilter (n k : Nat) (h : k < 32) :
    (tailFilter n).getLsbD k = (decide (n % 32 = 0) || decide (k < n % 32)) := by
  have hr : n % 32 < 32 := Nat.mod_lt _ (by decide)
  by_cases h0 : n % 32 = 0
  · simp only [tailFilter, h0, if_true, BitVec.getLsbD_allOnes, h, decide_true, Bool.true_or]
  · rw [tailFilter, if_neg h0, single_sub_one ⟨n % 32, hr⟩, BitVec.getLsbD_ofNat,
      Nat.one_shiftLeft, Nat.testBit_two_pow_sub_one]
    simp [h0, h]

/-- In a list of as many words as the size needs, the tail filter clears what
lies at or above the size. -/
theorem bit_normalize_tailFilter (n : Nat) (ws : List Word) (h : ws.length = wordCount n) (i : Nat) :
    bit (normalize (tailFilter n) ws) i = (bit ws i && decide (i < n)) := by
  have hr : i % 32 < 32 := Nat.mod_lt _ (by decide)
  rw [bit_normalize, getLsbD_tailFilter n _ hr, h]
  by_cases hl : 32 * ws.length ≤ i
  · simp [bit_of_length_le ws i hl]
  · have hc : wordCount n = (n + 31) / 32 := rfl
    have e : (i / 32 + 1 ≠ wordCount n ∨ n % 32 = 0 ∨ i % 32 < n % 32) ↔ i < n := by omega
    have e' : (decide (i / 32 + 1 ≠ wordCount n) || (decide (n % 32 = 0) || decide (i % 32 < n % 32)))
        = decide (i < n) := by
      rw [← Bool.decide_or, ← Bool.decide_or]
      exact decide_eq_decide.2 e
    rw [e']

/-- The bits that a list of as many words as the size needs has in use are those
below the size. -/
theorem inUse_tailFilter (n i : Nat) :
    (decide (i / 32 < wordCount n) &&
      (decide (i / 32 + 1 ≠ wordCount n) || (tailFilter n).getLsbD (i % 32))) = decide (i < n) := by
  have hr : i % 32 < 32 := Nat.mod_lt _ (by decide)
  have hc : wordCount n = (n + 31) / 32 := rfl
  rw [getLsbD_tailFilter n _ hr, ← Bool.decide_or, ← Bool.decide_or, ← Bool.decide_and]
  exact decide_eq_decide.2 (by omega)

theorem bit_setAll_tailFilter (n : Nat) (ws : List Word) (h : ws.length = wordCount n) (v : Bool)
    (i : Nat) : bit (setAll (tailFilter n) ws v) i = (v && decide (i < n)) := by
  rw [bit_setAll, h, Bool.and_assoc, inUse_tailFilter]

theorem bit_invert_tailFilter (n : Nat) (ws : List Word) (h : ws.length = wordCount n) (i : Nat) :
    bit (invert (tailFilter n) ws) i = (!bit ws i && decide (i < n)) := by
  rw [bit_invert, h, Bool.and_assoc, inUse_tailFilter]

/-! ### Two lists -/

theorem length_combine (f : Word → Word → Word) : ∀ dst a b : List Word,
    (combine f dst a b).length = dst.length
  | [], _, _ => by simp [combine]
  | _ :: _, [], _ => by simp [combine]
  | _ :: _, _ :: _, [] => by simp [combine]
  | _ :: dst, _ :: as, _ :: bs => by simp [combine, length_combine f dst as bs]

/-- A word is written where both operands have one. -/
theorem getElem?_combine (f : Word → Word → Word) : ∀ (dst a b : List Word) (k : Nat),
    (combine f dst a b)[k]? =
      dst[k]?.map fun d =>
        match a[k]?, b[k]? with
        | some x, some y => f x y
        | _, _ => d
  | [], a, b, k => by simp [combine]
  | d :: dst, [], b, k => by simp [combine]
  | d :: dst, x :: as, [], k => by
    cases h : (x :: as)[k]? <;> simp [combine]
  | d :: dst, x :: as, y :: bs, 0 => by simp [combine]
  | d :: dst, x :: as, y :: bs, k + 1 => by
    simpa [combine] using getElem?_combine f dst as bs k

/-- A function that works on each bit alone is applied to the bits of the
operands, in lists of one length. -/
theorem bit_combine {f : Word → Word → Word} {g : Bool → Bool → Bool}
    (hf : ∀ x y k, (f x y).getLsbD k = g (x.getLsbD k) (y.getLsbD k)) {dst a b : List Word}
    (ha : dst.length = a.length) (hb : dst.length = b.length) (i : Nat) :
    bit (combine f dst a b) i = (decide (i / 32 < dst.length) && g (bit a i) (bit b i)) := by
  simp only [bit, List.getD_eq_getElem?_getD, getElem?_combine]
  by_cases hl : i / 32 < dst.length
  · have hla : i / 32 < a.length := by omega
    have hlb : i / 32 < b.length := by omega
    simp only [List.getElem?_eq_getElem hl, List.getElem?_eq_getElem hla,
      List.getElem?_eq_getElem hlb, Option.map_some, Option.getD_some, hf, hl, decide_true,
      Bool.true_and]
  · simp [hl]

theorem and_eq_left_iff {x y : Word} :
    x &&& y = x ↔ ∀ j, j < 32 → x.getLsbD j = true → y.getLsbD j = true := by
  constructor
  · intro h j _ hx
    rw [← h, BitVec.getLsbD_and, Bool.and_eq_true] at hx
    exact hx.2
  · intro h
    refine BitVec.eq_of_getLsbD_eq fun j hj => ?_
    rw [BitVec.getLsbD_and]
    cases hx : x.getLsbD j with
    | false => rfl
    | true => exact h j hj hx

/-- For lists of one length, the subset is one of indices. -/
theorem isSubset_iff : ∀ {a b : List Word}, a.length = b.length →
    (isSubset a b = true ↔ ∀ i, bit a i = true → bit b i = true)
  | [], b, _ => by simp [isSubset, bit_nil]
  | x :: as, [], h => by cases h
  | x :: as, y :: bs, h => by
    have ih := isSubset_iff (Nat.succ.inj h)
    have hcons : isSubset (x :: as) (y :: bs) = ((x &&& y == x) && isSubset as bs) := rfl
    rw [hcons, Bool.and_eq_true, beq_iff_eq, and_eq_left_iff, ih]
    constructor
    · rintro ⟨hword, hrest⟩ i hi
      rcases Nat.lt_or_ge i 32 with hlt | hge
      · rw [bit_cons_of_lt _ _ _ hlt] at hi ⊢
        exact hword i hlt hi
      · obtain ⟨j, rfl⟩ := Nat.exists_eq_add_of_le' hge
        rw [bit_cons_add] at hi ⊢
        exact hrest j hi
    · intro hall
      refine ⟨fun j hj hx => ?_, fun i hi => ?_⟩
      · have := hall j
        rw [bit_cons_of_lt _ _ _ hj, bit_cons_of_lt _ _ _ hj] at this
        exact this hx
      · have := hall (i + 32)
        rw [bit_cons_add, bit_cons_add] at this
        exact this hi

end Words

end BoardObjects
