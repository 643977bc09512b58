/-
# The geometry of a size

A size is told three times: by the number of words that it needs, by the filter of the
last word, and by the bound itself. The three agree for every size, whatever is left
over when it is divided by 32 (`wordCount_popCount`), also in machine integers, where
the next multiple of 32 need not exist (`toNat_wordCountUSize`).

A list of as many words as a size needs is clean if no bit at or above the size is set
(`Clean`). Half of the functions on words end with the filter; the others keep a list
clean because they set no bit there: a single bit is written below the size only, and
words are joined by functions that give no bit which neither operand has (`NoNewBit`).
So a whole program keeps a list clean (`clean_run`).

On a clean list the number of set bits is counted below the size (`Clean.count_eq`), and
that makes the count, the comparison with the full list and the search from the end tell
the same.
-/
import BoardObjects.Words.Program
import BoardObjects.Proofs.Words.Count
import BoardObjects.Proofs.Words.Visit

namespace BoardObjects

namespace Words

/-! ### Words and filter -/

/-- The filter has the bits that the last word holds: what is left over, or all 32. -/
theorem popCount_tailFilter (n : ℕ) :
    (tailFilter n).popCount = if n % 32 = 0 then 32 else n % 32 := by
  have hbit : ∀ k ∈ Finset.range 32,
      (tailFilter n).getLsbD k = true ↔ k < if n % 32 = 0 then 32 else n % 32 := by
    intro k hk
    have hk32 : k < 32 := Finset.mem_range.mp hk
    rw [getLsbD_tailFilter n k hk32, Bool.or_eq_true, decide_eq_true_eq, decide_eq_true_eq]
    split <;> omega
  have hrange : ((Finset.range 32).filter fun k => k < if n % 32 = 0 then 32 else n % 32) =
      Finset.range (if n % 32 = 0 then 32 else n % 32) := by
    ext k
    rw [Finset.mem_filter, Finset.mem_range, Finset.mem_range]
    split <;> omega
  rw [popCount_eq, Nat.count_eq_card_filter_range, Finset.filter_congr hbit, hrange,
    Finset.card_range]

/-- The words before the last one and the filter of the last one make up the size. -/
theorem wordCount_popCount {n : ℕ} (h : 1 ≤ n) :
    1 ≤ wordCount n ∧ 32 * (wordCount n - 1) + (tailFilter n).popCount = n := by
  have hc : wordCount n = (n + 31) / 32 := rfl
  rw [popCount_tailFilter]
  split <;> omega

/-- The number of words in machine integers: one more than the quotient if something is
left over. -/
def wordCountUSize (n : USize) : USize := if n % 32 = 0 then n / 32 else n / 32 + 1

/-- No step of the division rounded up leaves the range of machine integers. -/
theorem toNat_wordCountUSize (n : USize) : (wordCountUSize n).toNat = wordCount n.toNat := by
  have hc : wordCount n.toNat = (n.toNat + 31) / 32 := rfl
  have hdiv : (n / 32).toNat = n.toNat / 32 := by simp [USize.toNat_div]
  have hmod : (n % 32).toNat = n.toNat % 32 := by simp [USize.toNat_mod]
  have hzero : n % 32 = 0 ↔ n.toNat % 32 = 0 := by
    rw [← USize.toNat_inj, hmod, USize.toNat_zero]
  unfold wordCountUSize
  by_cases h0 : n % 32 = 0
  · have hr := hzero.mp h0
    rw [if_pos h0, hdiv, hc]
    omega
  · have hr := mt hzero.mpr h0
    have hsize : n.toNat / 32 + 1 < USize.size := by
      have := n.toNat_lt_size
      omega
    rw [if_neg h0, USize.toNat_add, hdiv, USize.toNat_one, hc]
    exact (Nat.mod_eq_of_lt hsize).trans (by omega)

/-! ### Clean lists -/

/-- A list of as many words as the size needs, without a bit at or above it. -/
structure Clean (n : ℕ) (ws : List Word) : Prop where
  length : ws.length = wordCount n
  bit : ∀ i, n ≤ i → bit ws i = false

/-- What `f` gives has no bit that neither operand has. -/
def NoNewBit (f : Word → Word → Word) : Prop :=
  ∀ x y k, (f x y).getLsbD k = true → x.getLsbD k = true ∨ y.getLsbD k = true

theorem noNewBit_of_mem {f : Word → Word → Word}
    (h : f ∈ [(· &&& ·), (· ||| ·), (· ^^^ ·), Word.without]) : NoNewBit f := by
  intro x y k hk
  simp only [List.mem_cons, List.not_mem_nil, or_false] at h
  rcases h with rfl | rfl | rfl | rfl
  · rw [BitVec.getLsbD_and, Bool.and_eq_true] at hk
    exact .inl hk.1
  · rwa [BitVec.getLsbD_or, Bool.or_eq_true] at hk
  · rw [BitVec.getLsbD_xor] at hk
    cases hx : x.getLsbD k
    · rw [hx, Bool.false_xor] at hk
      exact .inr hk
    · exact .inl rfl
  · rw [Word.without, BitVec.getLsbD_and, Bool.and_eq_true] at hk
    exact .inl hk.1

/-- A bit of the joined list comes from the destination or from an operand. -/
theorem bit_of_combine {f : Word → Word → Word} (hf : NoNewBit f) {dst a b : List Word} {i : ℕ}
    (h : bit (combine f dst a b) i = true) :
    bit dst i = true ∨ bit a i = true ∨ bit b i = true := by
  simp only [bit, List.getD_eq_getElem?_getD, getElem?_combine] at h ⊢
  cases hd : dst[i / 32]? with
  | none => simp [hd] at h
  | some d =>
    cases ha : a[i / 32]? with
    | none =>
      simp only [hd, ha, Option.map_some, Option.getD_some] at h
      exact .inl h
    | some x =>
      cases hb : b[i / 32]? with
      | none =>
        simp only [hd, ha, hb, Option.map_some, Option.getD_some] at h
        exact .inl h
      | some y =>
        simp only [hd, ha, hb, Option.map_some, Option.getD_some] at h
        exact .inr (hf x y _ h)

section

variable {n : ℕ} {ws : List Word}

theorem clean_of_bit {p : ℕ → Bool} (h : ws.length = wordCount n)
    (hbit : ∀ i, bit ws i = (p i && decide (i < n))) : Clean n ws := by
  refine ⟨h, fun i hi => ?_⟩
  rw [hbit, decide_eq_false (Nat.not_lt.mpr hi), Bool.and_false]

theorem clean_normalize (h : ws.length = wordCount n) : Clean n (normalize (tailFilter n) ws) :=
  clean_of_bit ((length_normalize ..).trans h) (bit_normalize_tailFilter n ws h)

theorem clean_setAll (h : ws.length = wordCount n) (v : Bool) :
    Clean n (setAll (tailFilter n) ws v) :=
  clean_of_bit ((length_setAll ..).trans h) (bit_setAll_tailFilter n ws h v)

theorem clean_invert (h : ws.length = wordCount n) : Clean n (invert (tailFilter n) ws) :=
  clean_of_bit ((length_invert ..).trans h) (bit_invert_tailFilter n ws h)

theorem Clean.lt_size (h : Clean n ws) {i : ℕ} (hi : Words.bit ws i = true) : i < n := by
  apply Nat.lt_of_not_le
  intro hn
  rw [h.bit i hn] at hi
  cases hi

/-- A single bit is written below the size only. -/
theorem Clean.set (h : Clean n ws) (i : ℕ) (v : Bool) : Clean n (set n ws i v).2 := by
  refine ⟨(length_set ..).trans h.length, fun j hj => ?_⟩
  rw [bit_set, if_neg (by omega), h.bit j hj]

theorem Clean.combine {f : Word → Word → Word} (hf : NoNewBit f) {a b : List Word}
    (h : Clean n ws) (ha : Clean n a) (hb : Clean n b) : Clean n (combine f ws a b) := by
  refine ⟨(length_combine ..).trans h.length, fun i hi => ?_⟩
  rw [← Bool.not_eq_true]
  intro hbit
  apply Nat.not_lt.mpr hi
  rcases bit_of_combine hf hbit with hd | hx | hy
  · exact h.lt_size hd
  · exact ha.lt_size hx
  · exact hb.lt_size hy

end

/-! ### Programs -/

/-- The operands of a join are clean, and it gives no new bit. -/
def Command.Fits (n : ℕ) : Command → Prop
  | .combine f a b => NoNewBit f ∧ Clean n a ∧ Clean n b
  | _ => True

theorem clean_step {n : ℕ} {ws : List Word} (h : Clean n ws) {c : Command} (hc : c.Fits n) :
    Clean n (step n (tailFilter n) ws c).2 := by
  cases c with
  | get | count | first | last | next | isEmpty | isFull | isSubset =>
    -- a question leaves the list as it is
    exact h
  | set i v => exact h.set i v
  | setAll v => exact clean_setAll h.length v
  | invert => exact clean_invert h.length
  | normalize => exact clean_normalize h.length
  | combine f a b => exact h.combine hc.1 hc.2.1 hc.2.2

theorem clean_run {n : ℕ} (cs : List Command) {ws : List Word} (h : Clean n ws)
    (hcs : ∀ c ∈ cs, c.Fits n) : Clean n (run n (tailFilter n) ws cs) := by
  induction cs generalizing ws with
  | nil => exact h
  | cons c cs ih =>
    obtain ⟨hc, hrest⟩ := List.forall_mem_cons.mp hcs
    exact ih (clean_step h hc) hrest

/-! ### What a clean list tells -/

section

variable {n : ℕ} {ws : List Word}

/-- All that a clean list counts lies below the size. -/
theorem Clean.count_eq (h : Clean n ws) : count ws = Nat.count (fun i => Words.bit ws i = true) n := by
  have hc : wordCount n = (n + 31) / 32 := rfl
  have hl := h.length
  obtain ⟨k, hk⟩ := Nat.exists_eq_add_of_le (show n ≤ 32 * ws.length by omega)
  have hrest : Nat.count (fun i => Words.bit ws (n + i) = true) k = 0 := by
    rw [Nat.count_iff_forall_not]
    intro i _
    rw [h.bit (n + i) (Nat.le_add_right n i)]
    exact Bool.false_ne_true
  calc count ws = Nat.count (fun i => Words.bit ws i = true) (32 * ws.length) := Words.count_eq ws
    _ = Nat.count (fun i => Words.bit ws i = true) n +
        Nat.count (fun i => Words.bit ws (n + i) = true) k := by rw [hk, Nat.count_add]
    _ = Nat.count (fun i => Words.bit ws i = true) n := by rw [hrest, Nat.add_zero]

/-- A clean list is full if every index below the size is set; there has to be one. -/
theorem Clean.isFull_iff (h : Clean n ws) (hn : 1 ≤ n) :
    isFull (tailFilter n) ws = true ↔ ∀ i < n, Words.bit ws i = true := by
  have hne : ws ≠ [] := by
    have hpos := (wordCount_popCount hn).1
    rw [← h.length] at hpos
    exact List.length_pos_iff.mp hpos
  have hfilled : ∀ i, Words.bit (setAll (tailFilter n) ws true) i = decide (i < n) := fun i =>
    (bit_setAll_tailFilter n ws h.length true i).trans (Bool.true_and _)
  rw [Words.isFull_iff, and_iff_right hne]
  constructor
  · intro hws i hi
    rw [← hws, hfilled, decide_eq_true hi]
  · intro hall
    apply ext_bit (length_setAll ..)
    intro i
    rcases Nat.lt_or_ge i n with hi | hi
    · rw [hfilled, hall i hi, decide_eq_true hi]
    · rw [hfilled, h.bit i hi, decide_eq_false (Nat.not_lt.mpr hi)]

end

/-- **Word count, filter and bound describe the same bits.** The words before the last one
and the bits of the filter make up any size from 1 on, and the number of words is the same
in machine integers. In a list of as many words the filter clears the bits at or above the
size and no other. A clean list stays clean under every program that joins it with clean
lists only. It counts no more bits than the size, as many exactly if it has every index
below the size, and exactly then it is full; and the search from the end finds its greatest
set bit, if there is one. -/
theorem geometry_exact :
    (∀ n, 1 ≤ n → 1 ≤ wordCount n ∧ 32 * (wordCount n - 1) + (tailFilter n).popCount = n) ∧
    (∀ n : USize, (wordCountUSize n).toNat = wordCount n.toNat) ∧
    (∀ (n : ℕ) (ws : List Word), ws.length = wordCount n →
      (normalize (tailFilter n) ws).length = ws.length ∧
      ∀ i, bit (normalize (tailFilter n) ws) i = if i < n then bit ws i else false) ∧
    (∀ f ∈ [(· &&& ·), (· ||| ·), (· ^^^ ·), Word.without], NoNewBit f) ∧
    (∀ (n : ℕ) (ws : List Word) (cs : List Command), Clean n ws → (∀ c ∈ cs, c.Fits n) →
      Clean n (run n (tailFilter n) ws cs)) ∧
    ∀ (n : ℕ) (ws : List Word), 1 ≤ n → Clean n ws →
      count ws ≤ n ∧
      (isFull (tailFilter n) ws = true ↔ ∀ i < n, bit ws i = true) ∧
      (isFull (tailFilter n) ws = true ↔ count ws = n) ∧
      (∀ i, last? n ws = some i ↔ IsGreatest {j | bit ws j = true} i) ∧
      (last? n ws = none ↔ ∀ i, bit ws i = false) := by
  refine ⟨fun n => wordCount_popCount, toNat_wordCountUSize, fun n ws h => ⟨length_normalize .., ?_⟩,
    fun f => noNewBit_of_mem, fun n ws cs h => clean_run cs h, fun n ws hn h => ?_⟩
  · intro i
    rw [bit_normalize_tailFilter n ws h]
    by_cases hi : i < n <;> simp [hi]
  · refine ⟨?_, h.isFull_iff hn, ?_, fun i => last?_eq_some_iff_isGreatest h.bit,
      last?_eq_none_iff h.bit⟩
    · rw [h.count_eq]
      exact Nat.count_le _
    · rw [h.isFull_iff hn, h.count_eq, Nat.count_iff_forall]

/-- For 40 bits the last word holds eight. The filter clears the ninth; a program that
writes bits 39 and 40, takes the complement and joins the list with the full one keeps it
clean; and the full list counts 40 bits, the greatest being 39. -/
theorem geometry_exact_forty :
    let full := setAll (tailFilter 40) [0#32, 0#32] true
    let cs : List Command := [.set 39 true, .set 40 true, .invert, .combine (· ^^^ ·) full full]
    32 * (wordCount 40 - 1) + (tailFilter 40).popCount = 40 ∧
      bit (normalize (tailFilter 40) [0#32, 0x1ff#32]) 39 = true ∧
      bit (normalize (tailFilter 40) [0#32, 0x1ff#32]) 40 = false ∧
      Clean 40 (run 40 (tailFilter 40) full cs) ∧ Clean 40 full ∧ count full = 40 ∧
      (∀ i < 40, bit full i = true) ∧ IsGreatest {j | bit full j = true} 39 := by
  intro full cs
  obtain ⟨hsize, -, hfilter, hjoin, hrun, htell⟩ := geometry_exact
  have hfull : Clean 40 full := clean_setAll rfl true
  have hfits : ∀ c ∈ cs, c.Fits 40 := by
    simp only [cs, List.forall_mem_cons]
    exact ⟨trivial, trivial, trivial, ⟨hjoin _ (by simp), hfull, hfull⟩, List.forall_mem_nil _⟩
  obtain ⟨-, hnorm⟩ := hfilter 40 [0#32, 0x1ff#32] rfl
  obtain ⟨-, hall, hcount, hlast, -⟩ := htell 40 full (by decide) hfull
  have hcount40 : count full = 40 := by decide +kernel
  refine ⟨(hsize 40 (by decide)).2, (hnorm 39).trans (by decide), (hnorm 40).trans (by decide),
    hrun 40 full cs hfull hfits, hfull, hcount40, hall.mp (hcount.mpr hcount40),
    (hlast 39).mp (by decide +kernel)⟩

end Words

end BoardObjects
