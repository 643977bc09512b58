/-
# A mask on the wire and back

A mask is written over the leading words of a wire mask, and the words behind them
stay (`words_exportTo`). Whatever they were, and whatever the reader's mask held
before, a clean mask of the same capacity that takes them over is the mask that was
written (`Mask.load_exported`).

In the other direction a mask takes a wire mask over and writes it back. That clears
the bits from the capacity up to the end of the words in use and no other
(`bit_writtenBack`), so a second time nothing is left to clear (`writtenBack_idem`).
-/
import BoardObjects.Proofs.Mask.Runs

namespace BoardObjects

/-- Words written over a block stand in front of those that are left of it. -/
theorem Block.toList_overwrite (b : Block) {ws : List Word} (h : ws.length ≤ 8) :
    (b.overwrite ws).toList = ws ++ b.toList.drop ws.length := by
  apply List.ext_getElem
  · rw [Vector.length_toList, List.length_append, List.length_drop, Vector.length_toList]
    omega
  · intro k hk hk'
    rw [Vector.getElem_toList, Block.getElem_overwrite, List.getElem_append]
    split
    · rename_i hlt
      rw [List.getD_eq_getElem?_getD, List.getElem?_eq_getElem hlt, Option.getD_some]
    · rename_i hge
      have hnone : ws[k]? = none := List.getElem?_eq_none (Nat.le_of_not_lt hge)
      have hsum : ws.length + (k - ws.length) = k := by omega
      rw [List.getD_eq_getElem?_getD, hnone, Option.getD_none, List.getElem_drop]
      simp only [hsum, Vector.getElem_toList]

theorem WireMask.eq_of_bit_eq {v w : WireMask} (h : ∀ i, v.bit i = w.bit i) : v = w := by
  obtain ⟨x⟩ := v
  obtain ⟨y⟩ := w
  have hlen : x.toList.length = y.toList.length := by
    rw [Vector.length_toList, Vector.length_toList]
  exact congrArg WireMask.mk (Vector.toList_inj.mp (Words.ext_bit hlen h))

namespace Mask

/-! ### There and back -/

theorem words_exportTo {m : Mask} (hm : m.Formed) (e : WireMask) :
    (⟨e.block.overwrite m.words⟩ : WireMask).words = m.words ++ e.words.drop m.wordCount := by
  rw [← hm.length_words]
  exact Block.toList_overwrite e.block hm.length_words_le

/-! ### Taken over and written back -/

/-- A wire mask after a mask has taken it over and has been written over it. -/
def writtenBack (t : Mask) (e : WireMask) : WireMask := ⟨e.block.overwrite (t.load e).words⟩

theorem exportTo_load (t : Mask) (e : WireMask) :
    (t.load e).exportTo t.bits e = (.ok (), t.writtenBack e) := (t.load e).exportTo_self e

variable {t u : Mask}

/-- The bits between the capacity and the end of the words in use are cleared. -/
theorem bit_writtenBack (ht : t.Formed) (e : WireMask) (i : Nat) :
    (t.writtenBack e).bit i = (e.bit i && !(decide (t.size ≤ i ∧ i < 32 * t.wordCount))) := by
  have hload := load_rewritten ht e
  have hle : t.size ≤ 32 * t.wordCount := ht.size_le
  refine (bit_exported (hload.formed ht) e i).trans ?_
  rw [hload.wordCount_eq, hload.bit]
  by_cases hin : i < 32 * t.wordCount
  · by_cases hi : i < t.size
    · simp [hin, hi]
    · simp [hin, hi, Nat.le_of_not_lt hi]
  · simp [hin]

/-- A second mask of the same capacity finds nothing more to clear. -/
theorem writtenBack_idem (ht : t.Formed) (hu : u.Formed) (hc : u.bits = t.bits) (e : WireMask) :
    u.writtenBack (t.writtenBack e) = t.writtenBack e := by
  refine WireMask.eq_of_bit_eq fun i => ?_
  rw [bit_writtenBack hu, bit_writtenBack ht, hu.wordCount_eq ht hc, size, size, hc,
    Bool.and_assoc, Bool.and_self]

/-- **Writing and taking over are inverse.** What a reachable mask writes over any wire mask
is taken over from there by any mask of its capacity, whatever that held. The words of the
wire mask that the capacity needs are then those of the mask, and the others are left.
Conversely, a wire mask that a mask takes over and writes back loses exactly the bits from
the capacity on to the end of the words in use, and nothing more the second time. -/
theorem export_import_inverse :
    (∀ (m : Mask) (e : WireMask), m.Reachable → ∃ e', m.exportTo m.bits e = (.ok (), e') ∧
      e'.words = m.words ++ e.words.drop m.wordCount ∧
      (∀ t : Mask, t.Reachable → t.bits = m.bits → t.importFrom m.bits e' = (.ok (), m)) ∧
      ∀ (c : Capacity) (t : SizedMask c), c.bits = m.bits → t.mask.Reachable →
        (t.load e').mask = m) ∧
    ∀ (t : Mask) (e : WireMask), t.Formed → ∃ t' e', t.importFrom t.bits e = (.ok (), t') ∧
      t'.exportTo t.bits e = (.ok (), e') ∧
      (∀ i, e'.bit i = (e.bit i && !decide (t.size ≤ i ∧ i < 32 * t.wordCount))) ∧
      ∀ u : Mask, u.Formed → u.bits = t.bits →
        ∃ u', u.importFrom t.bits e' = (.ok (), u') ∧ u'.exportTo t.bits e' = (.ok (), e') := by
  refine ⟨fun m e hm => ?_, fun t e ht => ?_⟩
  · have hclean : m.Clean := reachable_iff_clean.mp hm
    refine ⟨_, m.exportTo_self e, words_exportTo hclean.formed e, fun t ht hc => ?_,
      fun c t hc ht => ?_⟩
    · have hload := load_exported hclean (reachable_iff_clean.mp ht) hc e
      exact (if_pos hc).trans (congrArg (Prod.mk _) hload)
    · exact load_exported hclean (reachable_iff_clean.mp ht) (t.bits_eq.trans hc) e
  · refine ⟨_, _, t.importFrom_self e, t.exportTo_load e, bit_writtenBack ht e, fun u hu hc => ?_⟩
    refine ⟨u.load (t.writtenBack e), ?_, ?_⟩
    · rw [← hc]
      exact u.importFrom_self _
    · rw [← hc, u.exportTo_load, writtenBack_idem ht hu hc]

/-- A full mask of 255 indices is written over a wire mask with other bits and taken
over by an empty one; an empty mask of 32 indices leaves the words behind the first one
and is taken over by a full one. A mask that takes the other bits over and writes them
back clears the one at 255, and a second one changes nothing. -/
theorem export_import_inverse_full :
    let m := (empty .large).fill
    let s := empty .small
    let e : WireMask := .ofWords (List.replicate 8 0xdeadbeef#32)
    (∃ e', m.exportTo 255 e = (.ok (), e') ∧ e'.words = m.words ∧
      (empty .large).importFrom 255 e' = (.ok (), m)) ∧
    (∃ e', s.exportTo 32 e = (.ok (), e') ∧
      e'.words = 0#32 :: List.replicate 7 0xdeadbeef#32 ∧
      (empty .small).fill.importFrom 32 e' = (.ok (), s)) ∧
    ∃ t' e', m.importFrom 255 e = (.ok (), t') ∧ t'.exportTo 255 e = (.ok (), e') ∧
      e.bit 255 = true ∧ e'.bit 255 = false ∧ e'.bit 254 = e.bit 254 ∧
      ∃ u', (empty .large).importFrom 255 e' = (.ok (), u') ∧ u'.exportTo 255 e' = (.ok (), e') := by
  intro m s e
  obtain ⟨hthere, hback⟩ := export_import_inverse
  have hfull : ∀ c, (empty c).fill.Clean := fun c => clean_sweep (clean_empty c) .fill
  have hreach : ∀ c, (empty c).Reachable := fun c => reachable_iff_clean.mpr (clean_empty c)
  have hreach' : ∀ c, (empty c).fill.Reachable := fun c => reachable_iff_clean.mpr (hfull c)
  refine ⟨?_, ?_, ?_⟩
  · obtain ⟨e', he, hwords, himport, -⟩ := hthere m e (hreach' .large)
    exact ⟨e', he, hwords.trans (by decide +kernel), himport _ (hreach .large) rfl⟩
  · obtain ⟨e', he, hwords, himport, -⟩ := hthere s e (hreach .small)
    exact ⟨e', he, hwords.trans (by decide +kernel), himport _ (hreach' .small) rfl⟩
  · obtain ⟨t', e', ht, he, hbit, hagain⟩ := hback m e (hfull .large).formed
    exact ⟨t', e', ht, he, by decide +kernel, (hbit 255).trans (by decide +kernel),
      (hbit 254).trans (by decide +kernel), hagain _ (formed_empty .large) rfl⟩

end Mask

end BoardObjects
