/-
# What the functions on masks do to the bits

A mask is seen through `Mask.bit`, one bit per index. Every function that changes
a mask keeps what it stores about itself and the words that are not in use;
`Rewritten m p m'` says so, and that the bits of `m'` are `p`. There is one such
statement per function. What a function keeps follows from it: the mask stays clean
if `p` has no bit at or above the number of indices (`Rewritten.clean`).

A function that can be refused has a second statement, which says that it has then
left the mask it was given. For a single bit this rests on what `Words.set` leaves of
the words.

Key definitions: `Mask.bit`, `Mask.Bounded`, `Mask.Rewritten`.
Key theorems: `Mask.eq_of_bit_eq`, `Mask.sweep_rewritten`, `Mask.load_rewritten`,
`Mask.edit_rewritten`, `Mask.edit_refused`, `Mask.merge_rewritten`.
-/
import BoardObjects.Mask.Program
import BoardObjects.Words.Bits

namespace BoardObjects

namespace Mask

/-- The bit at index `i` of the words in use. -/
def bit (m : Mask) (i : Nat) : Bool := Words.bit m.words i

theorem lt_bits_iff {m : Mask} {i : UInt8} : i < m.bits ↔ i.toNat < m.size := UInt8.lt_iff_toNat_lt

theorem size_lt (m : Mask) : m.size < 256 := m.bits.toNat_lt

/-- An index below the number of indices lies in one of the words in use. -/
theorem Formed.div_lt {m : Mask} (hm : m.Formed) {i : Nat} (h : i < m.size) :
    i / 32 < m.wordCount := by
  have hs : m.size ≤ 32 * m.wordCount := hm.size_le
  omega

theorem Formed.length_words_le {m : Mask} (hm : m.Formed) : m.words.length ≤ 8 :=
  hm.length_words ▸ hm.wordCount_le

theorem get_eq (m : Mask) (i : UInt8) : m.get i = (decide (i.toNat < m.size) && m.bit i.toNat) := by
  rw [get, Words.get_eq]
  by_cases h : i.toNat < m.size
  · by_cases hl : i.toNat / 32 < m.words.length
    · rw [if_pos ⟨h, hl⟩, Option.getD_some, decide_eq_true h, Bool.true_and, bit]
    · rw [if_neg fun hc => hl hc.2, Option.getD_none, bit,
        Words.bit_of_length_le _ _ (by omega), Bool.and_false]
  · rw [if_neg fun hc => h hc.1, Option.getD_none, decide_eq_false h, Bool.false_and]

theorem bit_empty (c : Capacity) (i : Nat) : (empty c).bit i = false := by
  have hw : (empty c).words = List.replicate c.wordCount 0#32 := by cases c <;> rfl
  rw [bit, hw, Words.bit_replicate_zero]

theorem clean_empty (c : Capacity) : (empty c).Clean :=
  ⟨formed_empty c, fun i _ => bit_empty c i, fun k h _ => by simp [empty, Block.zero]⟩

/-! ### Clean masks -/

/-- No bit in use lies at or above the number of indices. The words out of use do not
matter. -/
structure Bounded (m : Mask) : Prop where
  formed : m.Formed
  bit : ∀ i, m.size ≤ i → m.bit i = false

theorem Clean.bounded {m : Mask} (hm : m.Clean) : m.Bounded := ⟨hm.formed, hm.bit⟩

theorem Clean.bit_eq_false {m : Mask} (hm : m.Clean) {i : Nat} (h : m.size ≤ i) :
    m.bit i = false := hm.bit i h

theorem Bounded.lt_size {m : Mask} (hm : m.Bounded) {i : Nat} (h : m.bit i = true) :
    i < m.size := Words.lt_of_bit hm.bit h

theorem Clean.lt_size {m : Mask} (hm : m.Clean) {i : Nat} (h : m.bit i = true) : i < m.size :=
  hm.bounded.lt_size h

theorem Clean.get_eq {m : Mask} (hm : m.Clean) (i : UInt8) : m.get i = m.bit i.toNat := by
  rw [Mask.get_eq]
  by_cases h : i.toNat < m.size
  · rw [decide_eq_true h, Bool.true_and]
  · rw [hm.bit_eq_false (Nat.le_of_not_lt h), Bool.and_false]

theorem Formed.wordCount_eq {a b : Mask} (ha : a.Formed) (hb : b.Formed) (h : a.bits = b.bits) :
    a.wordCount = b.wordCount := by
  rw [ha.wordCount, hb.wordCount, size, size, h]

theorem Formed.length_words_eq {a b : Mask} (ha : a.Formed) (hb : b.Formed) (h : a.bits = b.bits) :
    a.words.length = b.words.length := by
  rw [ha.length_words, hb.length_words, ha.wordCount_eq hb h]

/-- The words in use and those out of use make up a mask of a given number of indices. -/
theorem eq_of_words_spare {a b : Mask} (ha : a.Formed) (hb : b.Formed) (hc : a.bits = b.bits)
    (hw : a.words = b.words)
    (hspare : ∀ k, (h : k < 8) → a.wordCount ≤ k → a.block[k] = b.block[k]) : a = b := by
  have hlead : a.block.lead a.wordCount = b.block.lead a.wordCount := by
    rw [← words, hw, words, ha.wordCount_eq hb hc]
  have hblock : a.block = b.block := by
    apply Vector.ext
    intro k hk
    rcases Nat.lt_or_ge k a.wordCount with hlt | hge
    · exact Block.getElem_eq_of_lead_eq hlead hk hlt
    · exact hspare k hk hge
  rw [ha.eq_of_bits_eq hb hc, hblock]

theorem eq_of_words_eq {a b : Mask} (ha : a.Clean) (hb : b.Clean) (hc : a.bits = b.bits)
    (hw : a.words = b.words) : a = b := by
  have hcount : a.wordCount = b.wordCount := ha.formed.wordCount_eq hb.formed hc
  exact eq_of_words_spare ha.formed hb.formed hc hw fun k hk hle =>
    (ha.spare k hk hle).trans (hb.spare k hk (hcount ▸ hle)).symm

/-- A clean mask is its number of indices and its bits. -/
theorem eq_of_bit_eq {a b : Mask} (ha : a.Clean) (hb : b.Clean) (hc : a.bits = b.bits)
    (h : ∀ i, a.bit i = b.bit i) : a = b :=
  eq_of_words_eq ha hb hc (Words.ext_bit (ha.formed.length_words_eq hb.formed hc) h)

/-- A clean mask is its number of indices and what it answers for each byte. -/
theorem eq_of_get_eq {a b : Mask} (ha : a.Clean) (hb : b.Clean) (hc : a.bits = b.bits)
    (h : ∀ i : UInt8, a.get i = b.get i) : a = b := by
  refine eq_of_bit_eq ha hb hc fun i => ?_
  rcases Nat.lt_or_ge i a.size with hi | hi
  · have hn : (UInt8.ofNat i).toNat = i := UInt8.toNat_ofNat_of_lt' (Nat.lt_trans hi a.size_lt)
    have hget := h (UInt8.ofNat i)
    rwa [ha.get_eq, hb.get_eq, hn] at hget
  · have hib : b.size ≤ i := by rwa [size, ← hc]
    rw [ha.bit_eq_false hi, hb.bit_eq_false hib]

/-! ### Rewriting a mask -/

/-- `m'` is `m` with the bits `p`; what the mask stores about itself and the words that
are not in use are those of `m`. -/
structure Rewritten (m : Mask) (p : Nat → Bool) (m' : Mask) : Prop where
  frame : m' = { m with block := m'.block }
  bit : ∀ i, m'.bit i = p i
  spare : ∀ k, (h : k < 8) → m.wordCount ≤ k → m'.block[k] = m.block[k]

namespace Rewritten

variable {m m' m'' : Mask} {p q : Nat → Bool}

theorem congr (h : Rewritten m p m') (hpq : ∀ i, p i = q i) : Rewritten m q m' :=
  ⟨h.frame, fun i => (h.bit i).trans (hpq i), h.spare⟩

theorem bits_eq (h : Rewritten m p m') : m'.bits = m.bits := (congrArg Mask.bits h.frame :)

theorem size_eq (h : Rewritten m p m') : m'.size = m.size := (congrArg Mask.size h.frame :)

theorem wordCount_eq (h : Rewritten m p m') : m'.wordCount = m.wordCount :=
  (congrArg Mask.wordCount h.frame :)

theorem formed (h : Rewritten m p m') (hm : m.Formed) : m'.Formed := by
  rw [h.frame]
  exact ⟨hm.bits, hm.wordCount, hm.tailFilter⟩

theorem trans (h : Rewritten m p m') (h' : Rewritten m' q m'') : Rewritten m q m'' where
  frame := by rw [h'.frame, h.frame]
  bit := h'.bit
  spare k hk hle := (h'.spare k hk (h.wordCount_eq ▸ hle)).trans (h.spare k hk hle)

/-- Bits below the number of indices keep a mask clean. -/
theorem clean (h : Rewritten m p m') (hm : m.Clean) (hp : ∀ i, m.size ≤ i → p i = false) :
    m'.Clean where
  formed := h.formed hm.formed
  bit i hi := (h.bit i).trans (hp i (h.size_eq ▸ hi))
  spare k hk hle := by
    have hle' : m.wordCount ≤ k := h.wordCount_eq ▸ hle
    exact (h.spare k hk hle').trans (hm.spare k hk hle')

end Rewritten

section

variable {m : Mask}

theorem withWords_rewritten (hm : m.Formed) {ws : List Word} (h : ws.length = m.words.length) :
    Rewritten m (Words.bit ws) (m.withWords ws) := by
  have hl : ws.length = m.wordCount := h.trans hm.length_words
  refine ⟨rfl, fun i => by rw [bit, hm.words_withWords hl], fun k hk hle => ?_⟩
  have hnone : ws[k]? = none := List.getElem?_eq_none (by omega)
  show (m.block.overwrite ws)[k] = m.block[k]
  rw [Block.getElem_overwrite, List.getD_eq_getElem?_getD, hnone, Option.getD_none]

theorem withWords_words (m : Mask) : m.withWords m.words = m := by
  rw [withWords, words, Block.overwrite_lead]

theorem normalize_rewritten (hm : m.Formed) :
    Rewritten m (fun i => m.bit i && decide (i < m.size)) m.normalize := by
  refine (withWords_rewritten hm (Words.length_normalize ..)).congr fun i => ?_
  rw [hm.tailFilter, Words.bit_normalize_tailFilter _ _ hm.length_words_size, bit]

/-! ### All bits -/

theorem clear_rewritten (hm : m.Formed) : Rewritten m (fun _ => false) m.clear := by
  refine (withWords_rewritten hm (Words.length_setAll ..)).congr fun i => ?_
  rw [hm.tailFilter, Words.bit_setAll_tailFilter _ _ hm.length_words_size, Bool.false_and]

theorem fill_rewritten (hm : m.Formed) : Rewritten m (fun i => decide (i < m.size)) m.fill := by
  refine (withWords_rewritten hm (Words.length_setAll ..)).congr fun i => ?_
  rw [hm.tailFilter, Words.bit_setAll_tailFilter _ _ hm.length_words_size, Bool.true_and]

theorem invert_rewritten (hm : m.Formed) :
    Rewritten m (fun i => !m.bit i && decide (i < m.size)) m.invert := by
  refine (withWords_rewritten hm (Words.length_invert ..)).congr fun i => ?_
  rw [hm.tailFilter, Words.bit_invert_tailFilter _ _ hm.length_words_size, bit]

def sweepBits (m : Mask) : Sweep → Nat → Bool
  | .clear, _ => false
  | .fill, i => decide (i < m.size)
  | .invert, i => !m.bit i && decide (i < m.size)

theorem sweep_rewritten (hm : m.Formed) : ∀ f, Rewritten m (m.sweepBits f) (m.sweep f)
  | .clear => clear_rewritten hm
  | .fill => fill_rewritten hm
  | .invert => invert_rewritten hm

theorem sweepBits_eq_false {i : Nat} (h : m.size ≤ i) : ∀ f, m.sweepBits f i = false
  | .clear => rfl
  | .fill => decide_eq_false (Nat.not_lt.mpr h)
  | .invert => by rw [sweepBits, decide_eq_false (Nat.not_lt.mpr h), Bool.and_false]

theorem bit_lead (b : Block) (k i : Nat) :
    Words.bit (b.lead k) i = (Words.bit b.toList i && decide (i / 32 < k)) := by
  rw [Words.bit, Words.bit, List.getD_eq_getElem?_getD, List.getD_eq_getElem?_getD,
    Block.getElem?_lead]
  by_cases h : i / 32 < k
  · rw [if_pos h, decide_eq_true h, Bool.and_true]
  · rw [if_neg h, decide_eq_false h, Bool.and_false, Option.getD_none, BitVec.getLsbD_zero]

/-- Words written over a block replace the bits of their indices. -/
theorem bit_overwrite (b : Block) {ws : List Word} (h : ws.length ≤ 8) (i : Nat) :
    Words.bit (b.overwrite ws).toList i =
      if i / 32 < ws.length then Words.bit ws i else Words.bit b.toList i := by
  by_cases hk : i / 32 < 8
  · have hget : ∀ x : Block, x.toList.getD (i / 32) 0#32 = x[i / 32] := fun x => by
      simp [List.getD_eq_getElem?_getD, hk]
    rw [Words.bit, Words.bit, Words.bit, hget, hget, Block.getElem_overwrite]
    by_cases hl : i / 32 < ws.length
    · simp [List.getD_eq_getElem?_getD, hl]
    · simp [List.getD_eq_getElem?_getD, hl]
  · have hout : ∀ x : Block, Words.bit x.toList i = false := fun x =>
      Words.bit_of_length_le _ _ (by rw [Vector.length_toList]; omega)
    rw [hout, hout, if_neg (by omega)]

/-- A mask written over a wire mask shows in the words that it needs. -/
theorem bit_exported (hm : m.Formed) (w : WireMask) (i : Nat) :
    (⟨w.block.overwrite m.words⟩ : WireMask).bit i =
      if i < 32 * m.wordCount then m.bit i else w.bit i := by
  have hi : i / 32 < m.words.length ↔ i < 32 * m.wordCount := by
    rw [hm.length_words]
    omega
  refine (bit_overwrite w.block hm.length_words_le i).trans ?_
  by_cases hin : i < 32 * m.wordCount
  · rw [if_pos hin, if_pos (hi.mpr hin), bit]
  · rw [if_neg hin, if_neg fun h => hin (hi.mp h), WireMask.bit, WireMask.words]

theorem load_rewritten (hm : m.Formed) (w : WireMask) :
    Rewritten m (fun i => w.bit i && decide (i < m.size)) (m.load w) := by
  have h8 : m.wordCount ≤ 8 := hm.wordCount_le
  have hs : m.size ≤ 32 * m.wordCount := hm.size_le
  have hl : (w.block.lead m.wordCount).length = m.words.length := by
    rw [Block.length_lead, hm.length_words]
    omega
  have hcopied := withWords_rewritten hm hl
  refine (hcopied.trans (normalize_rewritten (hcopied.formed hm))).congr fun i => ?_
  have hd : (decide (i / 32 < m.wordCount) && decide (i < m.size)) = decide (i < m.size) := by
    rw [← Bool.decide_and]
    exact decide_eq_decide.mpr (by omega)
  rw [hcopied.bit, hcopied.size_eq, bit_lead, Bool.and_assoc, hd, WireMask.bit, WireMask.words]

theorem importFrom_self (m : Mask) (w : WireMask) : m.importFrom m.bits w = (.ok (), m.load w) :=
  if_pos rfl

theorem importFrom_refused {bits : UInt8} (h : ¬ m.bits = bits) (w : WireMask) :
    m.importFrom bits w = (.error .invalidArgument, m) := if_neg h

theorem exportTo_self (m : Mask) (w : WireMask) :
    m.exportTo m.bits w = (.ok (), ⟨w.block.overwrite m.words⟩) := if_pos rfl

theorem exportTo_refused {bits : UInt8} (h : ¬ m.bits = bits) (w : WireMask) :
    m.exportTo bits w = (.error .invalidArgument, w) := if_neg h

/-! ### One bit -/

variable {i : UInt8}

theorem assignBit_rewritten (hm : m.Formed) (h : i < m.bits) (v : Bool) :
    ∃ m', m.assignBit i v = (.ok (), m') ∧
      Rewritten m (fun j => if j = i.toNat then v else m.bit j) m' := by
  have hn : i.toNat < m.size := lt_bits_iff.mp h
  have hl : i.toNat / 32 < m.words.length := hm.length_words.symm ▸ hm.div_lt hn
  refine ⟨m.withWords (Words.set m.size m.words i.toNat v).2, ?_, ?_⟩
  · simp only [assignBit, Words.set, hn, if_true, List.getElem?_eq_getElem hl]
  · refine (withWords_rewritten hm (Words.length_set ..)).congr fun j => ?_
    simp only [Words.bit_set, hn, hl, true_and, bit]

/-- Where there is no bit at the index, the words are written back as they were. -/
theorem assignBit_refused (h : ¬ i < m.bits) (v : Bool) :
    m.assignBit i v = (.error .invalidArgument, m) := by
  have hn : ¬ i.toNat < m.size := fun hn => h (lt_bits_iff.mpr hn)
  have hset : Words.set m.size m.words i.toNat v = (none, m.words) := if_neg hn
  simp only [assignBit, hset, withWords_words]

theorem words_modify (m : Mask) (k : Nat) (f : Word → Word) :
    (m.withWords (m.block.toList.modify k f)).words = m.words.modify k f :=
  Block.lead_overwrite_modify m.block k m.wordCount f

/-- The word of an index below the number of indices is looked up among all eight words.
It is one of those in use, so the others stay. -/
theorem modify_rewritten (hm : m.Formed) (h : i < m.bits) (f : Word → Word) :
    Rewritten m (Words.bit (m.words.modify (i.toNat / 32) f))
      (m.withWords (m.block.toList.modify (i.toNat / 32) f)) := by
  have hlt : i.toNat / 32 < m.wordCount := hm.div_lt (lt_bits_iff.mp h)
  refine ⟨rfl, fun j => by rw [bit, words_modify], fun k hk hle => ?_⟩
  have hne : ¬ i.toNat / 32 = k := by omega
  exact (m.block.getElem_overwrite_modify _ f hk).trans (if_neg hne)

theorem toggleBit_rewritten (hm : m.Formed) (h : i < m.bits) :
    ∃ m', m.toggleBit i = (.ok (), m') ∧
      Rewritten m (fun j => m.bit j ^^ decide (j = i.toNat)) m' := by
  have hk : i.toNat / 32 < m.words.length := hm.length_words.symm ▸ hm.div_lt (lt_bits_iff.mp h)
  refine ⟨_, if_pos h, ?_⟩
  exact (modify_rewritten hm h _).congr fun j => Words.bit_flip m.words i.toNat j hk

theorem toggleBit_refused (h : ¬ i < m.bits) :
    m.toggleBit i = (.error .invalidArgument, m) := if_neg h

theorem toggleOthers_rewritten (hm : m.Formed) (h : i < m.bits) :
    ∃ m', m.toggleOthers i = (.ok (), m') ∧
      Rewritten m (fun j => (m.bit j ^^ (decide (j / 32 = i.toNat / 32) && decide (j ≠ i.toNat))) &&
        decide (j < m.size)) m' := by
  have hk : i.toNat / 32 < m.words.length := hm.length_words.symm ▸ hm.div_lt (lt_bits_iff.mp h)
  have hflipped := (modify_rewritten hm h _).congr fun j => Words.bit_flipOthers m.words i.toNat j hk
  refine ⟨_, if_pos h, ?_⟩
  refine (hflipped.trans (normalize_rewritten (hflipped.formed hm))).congr fun j => ?_
  rw [hflipped.bit, hflipped.size_eq, bit]

theorem toggleOthers_refused (h : ¬ i < m.bits) :
    m.toggleOthers i = (.error .invalidArgument, m) := if_neg h

def editBits (m : Mask) (i : UInt8) : Edit → Nat → Bool
  | .set, j => if j = i.toNat then true else m.bit j
  | .clear, j => if j = i.toNat then false else m.bit j
  | .toggle, j => m.bit j ^^ decide (j = i.toNat)
  | .toggleOthers, j =>
    (m.bit j ^^ (decide (j / 32 = i.toNat / 32) && decide (j ≠ i.toNat))) && decide (j < m.size)

theorem edit_rewritten (hm : m.Formed) (h : i < m.bits) :
    ∀ f, ∃ m', m.edit i f = (.ok (), m') ∧ Rewritten m (m.editBits i f) m'
  | .set => assignBit_rewritten hm h true
  | .clear => assignBit_rewritten hm h false
  | .toggle => toggleBit_rewritten hm h
  | .toggleOthers => toggleOthers_rewritten hm h

theorem edit_refused (h : ¬ i < m.bits) : ∀ f, m.edit i f = (.error .invalidArgument, m)
  | .set => assignBit_refused h true
  | .clear => assignBit_refused h false
  | .toggle => toggleBit_refused h
  | .toggleOthers => toggleOthers_refused h

theorem editBits_eq_false (hm : m.Clean) (hi : i < m.bits) {j : Nat} (hj : m.size ≤ j) (f : Edit) :
    m.editBits i f j = false := by
  have hne : j ≠ i.toNat := by
    have := lt_bits_iff.mp hi
    omega
  cases f <;>
    simp [editBits, hne, hm.bit_eq_false hj, Nat.not_lt.mpr hj]

end

/-! ### Two masks -/

theorem sizesEqual_iff {a b : Mask} : a.sizesEqual b = true ↔ a.bits = b.bits := by
  simp [sizesEqual]

section

variable {dst a b : Mask}

theorem merge_rewritten (op : SetOp) (hdst : dst.Formed) (ha : a.Formed) (hb : b.Formed)
    (hda : dst.bits = a.bits) (hdb : dst.bits = b.bits) :
    Rewritten dst (fun i => op.onBits (a.bit i) (b.bit i)) (merge op dst a b) := by
  have hla : dst.words.length = a.words.length := hdst.length_words_eq ha hda
  have hlb : dst.words.length = b.words.length := hdst.length_words_eq hb hdb
  refine (withWords_rewritten hdst (Words.length_combine ..)).congr fun i => ?_
  rw [Words.bit_combine op.getLsbD_onWords hla hlb]
  by_cases hi : i / 32 < dst.words.length
  · rw [decide_eq_true hi, Bool.true_and, bit, bit]
  · have hfalse : ∀ x : Mask, dst.words.length = x.words.length → x.bit i = false := fun x hx =>
      Words.bit_of_length_le _ _ (by omega)
    rw [decide_eq_false hi, Bool.false_and, hfalse a hla, hfalse b hlb]
    cases op <;> rfl

theorem combine_eq_merge (op : SetOp) (hda : dst.bits = a.bits) (hdb : dst.bits = b.bits) :
    combine op dst a b = (.ok (), merge op dst a b) := by
  refine if_pos ?_
  rw [sizesEqual_iff.mpr hda, sizesEqual_iff.mpr hdb, Bool.and_self]

theorem combine_refused (op : SetOp) (h : ¬ (dst.bits = a.bits ∧ dst.bits = b.bits)) :
    combine op dst a b = (.error .invalidArgument, dst) := by
  refine if_neg fun hc => h ?_
  rw [Bool.and_eq_true, sizesEqual_iff, sizesEqual_iff] at hc
  exact hc

theorem copy_rewritten (hdst : dst.Formed) (ha : a.Formed) (h : dst.bits = a.bits) :
    ∃ m', copy dst a = (.ok (), m') ∧ Rewritten dst a.bit m' :=
  ⟨_, if_pos (sizesEqual_iff.mpr h), withWords_rewritten hdst (hdst.length_words_eq ha h).symm⟩

theorem copy_refused (h : ¬ dst.bits = a.bits) :
    copy dst a = (.error .invalidArgument, dst) := if_neg fun hc => h (sizesEqual_iff.mp hc)

theorem isSubset_iff (ha : a.Formed) (hb : b.Formed) :
    a.isSubset b = true ↔ a.bits = b.bits ∧ ∀ i, a.bit i = true → b.bit i = true := by
  rw [isSubset, Bool.and_eq_true, sizesEqual_iff, eq_comm]
  exact and_congr_right fun hc => Words.isSubset_iff (ha.length_words_eq hb hc)

end

end Mask

end BoardObjects
