/-
# Where the bits of a wire mask lie

A list of bytes holds one bit per index, as a list of words does: index `i` is bit
`i % 8` of byte `i / 8` (`Bytes.bit`). The bytes of a wire mask have the bits of its
words, index by index (`WireMask.bit_toBytes`), and the words that are cut from a list
of bytes have the bits of these bytes, as far as they reach (`WireMask.bit_cut`).

So writing and reading move no bit. Reading gives back what has been written, whatever
follows it, and writing gives back the 32 bytes that have been read: a wire mask is 32
bytes, and any 32 bytes are one.
-/
import BoardObjects.Proofs.Mask.Runs
import BoardObjects.Proofs.Wire.Bytes

namespace BoardObjects

/-! ### Lists of bytes as bits -/

namespace Bytes

/-- The bit at index `i` of a list of bytes, clear beyond the end of the list. -/
def bit (bs : List UInt8) (i : Nat) : Bool :=
  (bs.getD (i / 8) 0).toBitVec.getLsbD (i % 8)

theorem bit_append (xs ys : List UInt8) (i : Nat) :
    bit (xs ++ ys) i = if i < 8 * xs.length then bit xs i else bit ys (i - 8 * xs.length) := by
  by_cases h : i < 8 * xs.length
  · have hq : i / 8 < xs.length := by omega
    simp [bit, h, List.getD_eq_getElem?_getD, List.getElem?_append_left hq]
  · have hle : xs.length ≤ i / 8 := by omega
    have hq : (i - 8 * xs.length) / 8 = i / 8 - xs.length := by omega
    have hr : (i - 8 * xs.length) % 8 = i % 8 := by omega
    simp [bit, h, hq, hr, List.getD_eq_getElem?_getD, List.getElem?_append_right hle]

theorem bit_drop (bs : List UInt8) (k i : Nat) : bit (bs.drop k) i = bit bs (i + 8 * k) := by
  have hq : (i + 8 * k) / 8 = k + i / 8 := by omega
  have hr : (i + 8 * k) % 8 = i % 8 := by omega
  simp [bit, hq, hr, List.getD_eq_getElem?_getD]

theorem bit_take (bs : List UInt8) (k i : Nat) :
    bit (bs.take k) i = (bit bs i && decide (i < 8 * k)) := by
  have hq : i / 8 < k ↔ i < 8 * k := by omega
  rw [bit, bit, List.getD_eq_getElem?_getD, List.getD_eq_getElem?_getD, List.getElem?_take]
  by_cases h : i < 8 * k
  · rw [if_pos (hq.mpr h), decide_eq_true h, Bool.and_true]
  · rw [if_neg fun hlt => h (hq.mp hlt), decide_eq_false h, Bool.and_false, Option.getD_none]
    exact BitVec.getLsbD_zero

theorem ext_bit {xs ys : List UInt8} (hl : xs.length = ys.length)
    (h : ∀ i, bit xs i = bit ys i) : xs = ys := by
  apply List.ext_getElem hl
  intro k hx hy
  apply UInt8.toBitVec_inj.mp
  apply BitVec.eq_of_getLsbD_eq
  intro j hj
  have hq : (8 * k + j) / 8 = k := by omega
  have hr : (8 * k + j) % 8 = j := by omega
  have hbit := h (8 * k + j)
  rw [bit, bit, hq, hr] at hbit
  simpa [List.getD_eq_getElem?_getD, hx, hy] using hbit

end Bytes

/-! ### Words as bytes -/

theorem Word.bit_toBytes (w : Word) {j : Nat} (hj : j < 32) :
    Bytes.bit w.toBytes j = w.getLsbD j := by
  have hsplit : 8 * (j / 8) + j % 8 = j := by omega
  rw [Bytes.bit, Word.getLsbD_toBytes w (by omega) (by omega), hsplit]

namespace WireMask

theorem bit_flatMap_toBytes : ∀ (ws : List Word) (i : Nat),
    Bytes.bit (ws.flatMap Word.toBytes) i = Words.bit ws i
  | [], i => by simp [Bytes.bit, Words.bit_nil]
  | w :: ws, i => by
    rw [List.flatMap_cons, Bytes.bit_append, Word.length_toBytes]
    rcases Nat.lt_or_ge i 32 with hi | hi
    · rw [if_pos hi, Words.bit_cons_of_lt _ _ _ hi, w.bit_toBytes hi]
    · obtain ⟨l, rfl⟩ := Nat.exists_eq_add_of_le' hi
      rw [if_neg (by omega), Words.bit_cons_add, Nat.add_sub_cancel]
      exact bit_flatMap_toBytes ws l

theorem bit_toBytes (w : WireMask) (i : Nat) : Bytes.bit w.toBytes i = w.bit i :=
  bit_flatMap_toBytes w.words i

/-! ### Bytes as words -/

theorem length_cut : ∀ (k : Nat) (bs : List UInt8), (cut k bs).length = k
  | 0, _ => rfl
  | k + 1, bs => by rw [cut, List.length_cons, length_cut k]

/-- Words that are cut from bytes have their bits, as far as they reach. -/
theorem bit_cut : ∀ (k : Nat) (bs : List UInt8) (i : Nat),
    Words.bit (cut k bs) i = (Bytes.bit bs i && decide (i < 32 * k))
  | 0, bs, i => by simp [cut, Words.bit_nil]
  | k + 1, bs, i => by
    rw [cut]
    rcases Nat.lt_or_ge i 32 with hi | hi
    · have hword : (Word.ofBytes (bs.take 4)).getLsbD i = Bytes.bit (bs.take 4) i :=
        Word.getLsbD_ofBytes _ _ hi
      have hk : i < 32 * (k + 1) := by omega
      rw [Words.bit_cons_of_lt _ _ _ hi, hword, Bytes.bit_take, decide_eq_true hi,
        decide_eq_true hk]
    · obtain ⟨l, rfl⟩ := Nat.exists_eq_add_of_le' hi
      have hk : l + 32 < 32 * (k + 1) ↔ l < 32 * k := by omega
      rw [Words.bit_cons_add, bit_cut k, Bytes.bit_drop, decide_eq_decide.mpr hk]

theorem words_ofWords {ws : List Word} (h : ws.length = 8) : (ofWords ws).words = ws := by
  have hlead : (Block.zero.overwrite ws).lead ws.length = ws := Block.lead_overwrite _ _ (Nat.le_of_eq h)
  rw [h, Block.lead, List.take_of_length_le (Nat.le_of_eq Vector.length_toList)] at hlead
  exact hlead

/-- As many bytes as a wire mask takes are written as they have been read. -/
theorem toBytes_of_ofBytes {bs : List UInt8} (h : byteCount ≤ bs.length) :
    ∃ w, ofBytes bs = .ok w ∧ w.toBytes = bs.take byteCount := by
  refine ⟨_, if_neg (Nat.not_lt.mpr h), Bytes.ext_bit ?_ fun i => ?_⟩
  · rw [length_toBytes, List.length_take, Nat.min_eq_left h]
  · rw [bit_toBytes, bit, words_ofWords (length_cut 8 bs), bit_cut, Bytes.bit_take]
    rfl

end WireMask

/-! ### The bytes as a mask reads them -/

/-- A mask that is made from a wire mask has the bits of its bytes below the capacity,
and no other. -/
theorem Mask.get_created (c : Capacity) (w : WireMask) :
    ∃ m, create c.bits (some w) = .ok m ∧
      ∀ i : UInt8, m.get i = (decide (i < c.bits) && Bytes.bit w.toBytes i.toNat) := by
  have hload := load_rewritten (formed_empty c) w
  refine ⟨_, create_load c w, fun i => ?_⟩
  have hlt : i.toNat < (empty c).size ↔ i < c.bits := UInt8.lt_iff_toNat_lt.symm
  rw [(clean_load (clean_empty c) w).get_eq, hload.bit, WireMask.bit_toBytes, Bool.and_comm,
    decide_eq_decide.mpr hlt]

namespace WireMask

/-- **The wire form is a bijection with a fixed layout.** A wire mask is read back from
its bytes, whatever follows them. Fewer than 32 bytes are refused, for an invalid
argument; from 32 on the first 32 bytes are those of the mask that is read. There are
always 32, and index by index their bits are the bits of the words. So a mask that is
made from a wire mask answers for each index below its capacity with the bit of that
index in the bytes, and false for every other index. -/
theorem layout_bijective :
    (∀ (w : WireMask) (rest : List UInt8), ofBytes (w.toBytes ++ rest) = .ok w) ∧
    (∀ bs : List UInt8, ofBytes bs = .error .invalidArgument ↔ bs.length < 32) ∧
    (∀ bs : List UInt8, 32 ≤ bs.length → ∃ w, ofBytes bs = .ok w ∧ w.toBytes = bs.take 32) ∧
    (∀ (w : WireMask) (i : Nat), i < 256 → ∃ b v, w.toBytes[i / 8]? = some b ∧
      w.words[i / 32]? = some v ∧ b.toBitVec.getLsbD (i % 8) = v.getLsbD (i % 32)) ∧
    ∀ (w : WireMask) (c : Capacity), ∃ m, Mask.create c.bits (some w) = .ok m ∧
      (∀ i : UInt8, i < c.bits → m.get i = Bytes.bit w.toBytes i.toNat) ∧
      ∀ i : UInt8, c.bits ≤ i → m.get i = false := by
  refine ⟨ofBytes_toBytes_append, fun bs => ?_, fun bs => toBytes_of_ofBytes, fun w i hi => ?_,
    fun w c => ?_⟩
  · rw [ofBytes_eq_error_iff]
    exact and_iff_left rfl
  · have hbyte : i / 8 < w.toBytes.length := by rw [length_toBytes, byteCount]; omega
    have hword : i / 32 < w.words.length := by rw [length_words]; omega
    refine ⟨_, _, List.getElem?_eq_getElem hbyte, List.getElem?_eq_getElem hword, ?_⟩
    have hbit := w.bit_toBytes i
    rw [Bytes.bit, bit, Words.bit] at hbit
    simpa [List.getD_eq_getElem?_getD, hbyte, hword] using hbit
  · obtain ⟨m, hm, hget⟩ := Mask.get_created c w
    refine ⟨m, hm, fun i hi => ?_, fun i hi => ?_⟩
    · rw [hget, decide_eq_true hi, Bool.true_and]
    · rw [hget, decide_eq_false (UInt8.not_lt.mpr hi), Bool.false_and]

/-- Of 33 bytes the last is ignored, and the others are written as they were read; 31 are
refused. The byte behind the low 248 bits is full, and a mask of 255 takes all of it but
the highest bit. -/
theorem layout_bijective_trailer :
    let bs : List UInt8 := [0x21, 0, 0, 0x80] ++ List.replicate 27 0 ++ [0xff, 7]
    ofBytes (bs.take 31) = .error .invalidArgument ∧
      ∃ w, ofBytes bs = .ok w ∧ w.toBytes = bs.take 32 ∧ ofBytes w.toBytes = .ok w ∧
        (∃ b v, w.toBytes[31]? = some b ∧ w.words[7]? = some v ∧
          b.toBitVec.getLsbD 6 = v.getLsbD 30) ∧
        ∃ m, Mask.create 255 (some w) = .ok m ∧ m.get 31 = true ∧ m.get 30 = false ∧
          m.get 254 = true ∧ m.get 255 = false := by
  intro bs
  obtain ⟨hread, hshort, hwrite, hbit, hmask⟩ := layout_bijective
  obtain ⟨w, hw, hbytes⟩ := hwrite bs (by decide)
  obtain ⟨m, hm, hin, hout⟩ := hmask w .large
  have hback : ofBytes w.toBytes = .ok w := by
    have := hread w []
    rwa [List.append_nil] at this
  refine ⟨(hshort _).mpr (by decide), w, hw, hbytes, hback, hbit w 254 (by decide), m, hm, ?_⟩
  rw [hin 31 (by decide), hin 30 (by decide), hin 254 (by decide), hbytes]
  exact ⟨by decide, by decide, by decide, hout 255 (by decide)⟩

end WireMask

end BoardObjects
