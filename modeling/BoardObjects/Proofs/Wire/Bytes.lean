/-
# The bytes of a wire mask

A word is four bytes, low byte first: bit `j` of byte `k` is bit `8 * k + j` of the
word (`Word.getLsbD_toBytes`), and reading any list of bytes puts bit `j % 8` of byte
`j / 8` in place `j` (`Word.getLsbD_ofBytes`). So reading what has been written gives
the word back, and word by word the mask, whatever follows its bytes
(`WireMask.ofBytes_toBytes_append`).
-/
import BoardObjects.WireMask

namespace BoardObjects

namespace Word

/-- Bit `j` of byte `k` is bit `8 * k + j` of the word. -/
theorem getLsbD_toBytes (w : Word) {k j : Nat} (hk : k < 4) (hj : j < 8) :
    (w.toBytes.getD k 0).toBitVec.getLsbD j = w.getLsbD (8 * k + j) := by
  have hget : w.toBytes.getD k 0 = UInt8.ofBitVec (w.extractLsb' (8 * k) 8) := by
    simp [toBytes, List.getD_eq_getElem?_getD, hk]
  rw [hget]
  simp [hj]

/-- The bits of a word that has been read from bytes. -/
theorem getLsbD_ofBytes : ∀ (bs : List UInt8) (j : Nat), j < 32 →
    (ofBytes bs).getLsbD j = (bs.getD (j / 8) 0).toBitVec.getLsbD (j % 8)
  | [], j, _ => by simp [ofBytes]
  | b :: bs, j, hj => by
    rw [ofBytes, BitVec.getLsbD_or, BitVec.getLsbD_shiftLeft, BitVec.getLsbD_setWidth]
    -- the low eight places are the first byte's, the others come from the bytes behind it
    rcases Nat.lt_or_ge j 8 with h8 | h8
    · have hq : j / 8 = 0 := by omega
      have hr : j % 8 = j := by omega
      simp [hj, h8, hq, hr]
    · have hq : j / 8 = (j - 8) / 8 + 1 := by omega
      have hr : j % 8 = (j - 8) % 8 := by omega
      have hb : b.toBitVec.getLsbD j = false := BitVec.getLsbD_of_ge _ _ h8
      rw [hb, hq, hr, List.getD_cons_succ, ← getLsbD_ofBytes bs (j - 8) (by omega)]
      simp [hj, Nat.not_lt.mpr h8]

theorem ofBytes_toBytes (w : Word) : ofBytes w.toBytes = w := by
  refine BitVec.eq_of_getLsbD_eq fun j hj => ?_
  have hsplit : 8 * (j / 8) + j % 8 = j := by omega
  rw [getLsbD_ofBytes _ _ hj, getLsbD_toBytes w (by omega) (by omega), hsplit]

end Word

namespace WireMask

theorem length_flatMap_toBytes (ws : List Word) :
    (ws.flatMap Word.toBytes).length = 4 * ws.length := by
  induction ws with
  | nil => rfl
  | cons w ws ih =>
    rw [List.flatMap_cons, List.length_append, Word.length_toBytes, ih, List.length_cons]
    omega

theorem length_toBytes (w : WireMask) : w.toBytes.length = byteCount := by
  rw [toBytes, length_flatMap_toBytes, length_words]
  rfl

/-- Words are cut from their bytes one by one. -/
theorem cut_flatMap : ∀ (ws : List Word) (bs : List UInt8),
    cut ws.length (ws.flatMap Word.toBytes ++ bs) = ws
  | [], _ => rfl
  | w :: ws, bs => by
    have hlen : w.toBytes.length = 4 := w.length_toBytes
    rw [List.length_cons, List.flatMap_cons, List.append_assoc, cut, List.take_left' hlen,
      List.drop_left' hlen, Word.ofBytes_toBytes, cut_flatMap ws bs]

theorem ofWords_words (w : WireMask) : ofWords w.words = w := by
  obtain ⟨b⟩ := w
  refine congrArg WireMask.mk (Vector.ext fun k hk => ?_)
  rw [Block.getElem_overwrite]
  simp [words, hk]

/-- A wire mask is read back from its bytes, whatever follows them. -/
theorem ofBytes_toBytes_append (w : WireMask) (bs : List UInt8) :
    ofBytes (w.toBytes ++ bs) = .ok w := by
  have hlen : ¬ (w.toBytes ++ bs).length < byteCount := by
    rw [List.length_append, length_toBytes]
    omega
  have hcut : cut 8 (w.toBytes ++ bs) = w.words := by
    have := cut_flatMap w.words bs
    rwa [length_words] at this
  rw [ofBytes, if_neg hlen, hcut, ofWords_words]

end WireMask

end BoardObjects
