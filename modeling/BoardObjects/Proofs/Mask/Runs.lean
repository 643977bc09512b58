/-
# Masks stay clean over whole programs

Whatever a program does to a store of masks, each mask in it is clean and has the
number of indices that it was made with (`run_sound`). This holds of what a refused
command leaves behind as well. Half of the commands clear the bits at or above the
number of indices after their work; the others rely on operands that have none.
Conversely every clean mask is left behind by some program (`reachable_iff_clean`).

What a mask was made with is noted beside the store (`births`), since a mask only
stores what it has now: a command that makes a mask notes its number of indices, a
command that copies one takes the note along, and no other command touches the notes.
-/
import BoardObjects.Mask.Program
import BoardObjects.Proofs.Mask.Bits

namespace BoardObjects

namespace Mask

section

variable {m t : Mask}

/-! ### The number of indices -/

theorem bits_sweep (m : Mask) : ∀ f, (m.sweep f).bits = m.bits
  | .clear => rfl
  | .fill => rfl
  | .invert => rfl

theorem bits_edit (m : Mask) (i : UInt8) : ∀ f, (m.edit i f).2.bits = m.bits
  | .set => m.bits_assignBit i true
  | .clear => m.bits_assignBit i false
  | .toggle => m.bits_toggleBit i
  | .toggleOthers => m.bits_toggleOthers i

theorem bits_importFrom (m : Mask) (bits : UInt8) (w : WireMask) :
    (m.importFrom bits w).2.bits = m.bits := by
  unfold importFrom
  split <;> rfl

theorem bits_combine (op : SetOp) (dst a b : Mask) : (combine op dst a b).2.bits = dst.bits := by
  unfold combine
  split <;> rfl

theorem bits_copy (dst src : Mask) : (copy dst src).2.bits = dst.bits := by
  unfold copy
  split <;> rfl

/-! ### One mask -/

theorem clean_sweep (hm : m.Clean) (f : Sweep) : (m.sweep f).Clean :=
  (sweep_rewritten hm.formed f).clean hm fun _ hi => sweepBits_eq_false hi f

theorem clean_load (hm : m.Clean) (w : WireMask) : (m.load w).Clean :=
  (load_rewritten hm.formed w).clean hm fun i hi => by
    rw [decide_eq_false (Nat.not_lt.mpr hi), Bool.and_false]

theorem clean_importFrom (hm : m.Clean) (bits : UInt8) (w : WireMask) :
    (m.importFrom bits w).2.Clean := by
  by_cases h : m.bits = bits
  · rw [← h, importFrom_self]
    exact clean_load hm w
  · rw [importFrom_refused h]
    exact hm

theorem clean_edit (hm : m.Clean) (i : UInt8) (f : Edit) : (m.edit i f).2.Clean := by
  by_cases h : i < m.bits
  · obtain ⟨m', hm', hw⟩ := edit_rewritten hm.formed h f
    rw [hm']
    exact hw.clean hm fun j hj => editBits_eq_false hm h hj f
  · rw [edit_refused h]
    exact hm

/-- What a clean mask has written over a wire mask is read back from it, whatever was
there before and whatever the reader's mask held. -/
theorem load_exported (hm : m.Clean) (ht : t.Clean) (hc : t.bits = m.bits) (w : WireMask) :
    t.load ⟨w.block.overwrite m.words⟩ = m := by
  have hload := load_rewritten ht.formed ⟨w.block.overwrite m.words⟩
  refine eq_of_bit_eq (clean_load ht _) hm (hload.bits_eq.trans hc) fun i => (hload.bit i).trans ?_
  have hs : t.size = m.size := congrArg UInt8.toNat hc
  have hle : m.size ≤ 32 * m.wordCount := hm.formed.size_le
  rw [bit_exported hm.formed, hs]
  by_cases hi : i < m.size
  · rw [if_pos (Nat.lt_of_lt_of_le hi hle), decide_eq_true hi, Bool.and_true]
  · rw [decide_eq_false hi, Bool.and_false, hm.bit_eq_false (Nat.le_of_not_lt hi)]

theorem create_empty (c : Capacity) : create c.bits none = .ok (empty c) := by
  rw [create, c.ofBits?_bits]

theorem create_load (c : Capacity) (w : WireMask) :
    create c.bits (some w) = .ok ((empty c).load w) := by
  rw [create, c.ofBits?_bits]
  exact congrArg Change.accepted ((empty c).importFrom_self w)

/-- A mask that has been made is clean and has the number of indices that was asked for. -/
theorem create_ok {bits : UInt8} {seed : Option WireMask} (h : create bits seed = .ok m) :
    m.Clean ∧ m.bits = bits := by
  cases hc : Capacity.ofBits? bits with
  | none =>
    rw [create, hc] at h
    cases h
  | some c =>
    obtain rfl := Capacity.ofBits?_eq_some_iff.mp hc
    cases seed with
    | none =>
      obtain rfl := Except.ok.inj ((create_empty c).symm.trans h)
      exact ⟨clean_empty c, rfl⟩
    | some w =>
      obtain rfl := Except.ok.inj ((create_load c w).symm.trans h)
      exact ⟨clean_load (clean_empty c) w, rfl⟩

end

/-! ### Two masks -/

section

variable {dst a b : Mask}

/-- The join of clean masks of one capacity is clean, although nothing clears it:
no operation sets a bit that neither operand has. -/
theorem clean_merge (op : SetOp) (hda : dst.bits = a.bits) (hdb : dst.bits = b.bits)
    (hdst : dst.Clean) (ha : a.Clean) (hb : b.Clean) : (merge op dst a b).Clean := by
  refine (merge_rewritten op hdst.formed ha.formed hb.formed hda hdb).clean hdst fun i hi => ?_
  have hsa : a.size ≤ i := by rwa [size, ← hda]
  have hsb : b.size ≤ i := by rwa [size, ← hdb]
  rw [ha.bit_eq_false hsa, hb.bit_eq_false hsb]
  cases op <;> rfl

theorem clean_combine (op : SetOp) (hdst : dst.Clean) (ha : a.Clean) (hb : b.Clean) :
    (combine op dst a b).2.Clean := by
  by_cases h : dst.bits = a.bits ∧ dst.bits = b.bits
  · rw [combine_eq_merge op h.1 h.2]
    exact clean_merge op h.1 h.2 hdst ha hb
  · rw [combine_refused op h]
    exact hdst

theorem clean_copy (hdst : dst.Clean) (ha : a.Clean) : (copy dst a).2.Clean := by
  by_cases h : dst.bits = a.bits
  · obtain ⟨m', hm', hw⟩ := copy_rewritten hdst.formed ha.formed h
    rw [hm']
    exact hw.clean hdst fun i hi => ha.bit_eq_false (by rwa [size, ← h])
  · rw [copy_refused h]
    exact hdst

end

end Mask

/-! ### Registers

A register of either form changes as the mask in it does. -/

namespace SizedMask

variable {c : Capacity}

theorem bits_eq_bits (x y : SizedMask c) : x.mask.bits = y.mask.bits := x.bits_eq.trans y.bits_eq.symm

theorem eq_of_mask_eq {x y : SizedMask c} (h : x.mask = y.mask) : x = y := by
  obtain ⟨m, hm⟩ := x
  obtain rfl : m = y.mask := h
  rfl

theorem mask_sweep (s : SizedMask c) : ∀ f, (s.sweep f).mask = s.mask.sweep f
  | .clear => rfl
  | .fill => rfl
  | .invert => rfl

theorem mask_edit (s : SizedMask c) (i : UInt8) :
    ∀ f, (s.edit i f).map SizedMask.mask = s.mask.edit i f
  | .set => rfl
  | .clear => rfl
  | .toggle => rfl
  | .toggleOthers => rfl

theorem combine_mask (op : SetOp) (dst a b : SizedMask c) :
    Mask.combine op dst.mask a.mask b.mask = (.ok (), (combine op dst a b).mask) :=
  Mask.combine_eq_merge op (dst.bits_eq_bits a) (dst.bits_eq_bits b)

end SizedMask

namespace Mask

namespace Register

theorem mask_sweep (r : Register) (f : Sweep) : (r.sweep f).mask = r.mask.sweep f := by
  cases r with
  | generic m => rfl
  | sized c s => exact s.mask_sweep f

theorem mask_edit (r : Register) (i : UInt8) (f : Edit) :
    (r.edit i f).map Register.mask = r.mask.edit i f := by
  cases r with
  | generic m => rfl
  | sized c s => exact s.mask_edit i f

theorem edit_refused {r : Register} {i : UInt8} (h : ¬ i < r.mask.bits) (f : Edit) :
    r.edit i f = (.error .invalidArgument, r) := by
  cases r with
  | generic m => exact congrArg (Change.map generic) (Mask.edit_refused h f)
  | sized c x =>
    have hmask : (x.edit i f).map SizedMask.mask = (.error .invalidArgument, x.mask) :=
      (x.mask_edit i f).trans (Mask.edit_refused h f)
    obtain ⟨hverdict, hleft⟩ := Prod.mk.inj hmask
    exact Prod.ext hverdict (congrArg (sized c) (SizedMask.eq_of_mask_eq hleft))

theorem mask_combine? {op : SetOp} {d x y : Register} {o : Change Register}
    (h : combine? op d x y = some o) :
    o.map Register.mask = Mask.combine op d.mask x.mask y.mask := by
  unfold combine? at h
  split at h
  · rw [← Option.some.inj h]
    rfl
  · rename_i c dst c₁ a c₂ b
    split at h
    · rename_i hc
      obtain ⟨rfl, rfl⟩ := hc
      rw [← Option.some.inj h]
      exact (SizedMask.combine_mask op dst a b).symm
    · cases h
  · cases h

end Register

/-! ### Stores -/

/-- The store with every mask changed by `f`. -/
def Store.mapMasks (f : Register → Register) (s : Store) : Store :=
  ⟨fun n => (s.masks n).map f, s.wires⟩

theorem Store.mapMasks_putMask (f : Register → Register) (s : Store) (n : String) (r : Register) :
    (s.putMask n r).mapMasks f = (s.mapMasks f).putMask n (f r) := by
  refine congrArg (Store.mk · s.wires) (funext fun n' => ?_)
  show (if n' = n then some r else s.masks n').map f =
    if n' = n then some (f r) else (s.masks n').map f
  split <;> rfl

theorem putMask_self {s : Store} {n : String} {r : Register} (h : s.masks n = some r) :
    s.putMask n r = s := by
  refine congrArg (Store.mk · s.wires) (funext fun n' => ?_)
  by_cases hn : n' = n
  · rw [if_pos hn, hn, h]
  · exact if_neg hn

theorem settle_mapMasks (f : Register → Register) (s : Store) (n : String) (o : Change Register) :
    settle (s.mapMasks f) n (o.map f) = ((settle s n o).1, (settle s n o).2.mapMasks f) :=
  congrArg (Prod.mk _) (s.mapMasks_putMask f n o.2).symm

/-- The notes `b` with `v` for the name `n`. -/
def note (b : String → Option UInt8) (n : String) (v : Option UInt8) : String → Option UInt8 :=
  fun n' => if n' = n then v else b n'

/-- The numbers of indices that masks were made with, after a command and its answer. -/
def noteBirth (b : String → Option UInt8) : Command → Reply → String → Option UInt8
  | .create m bits _, .result (.ok _) => note b m (some bits)
  | .createSized m cap, .done => note b m (some cap.bits)
  | .createSizedFrom m cap _, .done => note b m (some cap.bits)
  | .clone m a, .done => note b m (b a)
  | .forget m a, .done => note b m (b a)
  | _, _ => b

/-- The notes after a program that starts from `s` with the notes `b`. -/
def birthsFrom : Store → (String → Option UInt8) → List Command → String → Option UInt8
  | _, b, [] => b
  | s, b, c :: cs => birthsFrom (step s c).2 (noteBirth b c (step s c).1) cs

/-- The numbers of indices that masks were made with, after a program. -/
def births (cs : List Command) : String → Option UInt8 := birthsFrom .empty (fun _ => none) cs

/-- Every mask of the store is clean and has the number of indices that is noted for it. -/
def Sound (s : Store) (b : String → Option UInt8) : Prop :=
  ∀ n r, s.masks n = some r → r.mask.Clean ∧ b n = some r.mask.bits

namespace Sound

variable {s : Store} {b : String → Option UInt8}

/-- A name may be given to a clean mask if its number of indices is noted. -/
theorem put (h : Sound s b) {n : String} {r : Register} {v : Option UInt8} (hr : r.mask.Clean)
    (hv : v = some r.mask.bits) : Sound (s.putMask n r) (note b n v) := by
  intro n' r' h'
  by_cases hn : n' = n
  · obtain rfl : r = r' := Option.some.inj ((if_pos hn).symm.trans h')
    exact ⟨hr, (if_pos hn).trans hv⟩
  · obtain ⟨hc, hb⟩ := h n' r' ((if_neg hn).symm.trans h')
    exact ⟨hc, (if_neg hn).trans hb⟩

theorem replace (h : Sound s b) {n : String} {r r' : Register} (hr : s.masks n = some r)
    (hc : r'.mask.Clean) (hk : r'.mask.bits = r.mask.bits) : Sound (s.putMask n r') b := by
  have hb : b n = some r'.mask.bits := (h n r hr).2.trans (congrArg some hk.symm)
  have he : note b n (b n) = b := funext fun n' => by
    unfold note
    split
    · rename_i hn
      rw [hn]
    · rfl
  rw [← he]
  exact h.put hc hb

theorem clean (h : Sound s b) {n : String} {r : Register} (hr : s.masks n = some r) :
    r.mask.Clean := (h n r hr).1

theorem create (h : Sound s b) (n : String) (bits : UInt8) (seed : Option WireMask)
    (c : Option String) :
    Sound (hold s n (Mask.create bits seed)).2
      (noteBirth b (.create n bits c) (hold s n (Mask.create bits seed)).1) := by
  cases hx : Mask.create bits seed with
  | error e => exact h
  | ok m =>
    obtain ⟨hm, hb⟩ := create_ok hx
    exact h.put hm (congrArg some hb.symm)

end Sound

/-- A step keeps every mask clean and its note right. -/
theorem sound_step {s : Store} {b : String → Option UInt8} (h : Sound s b) (c : Command) :
    Sound (step s c).2 (noteBirth b c (step s c).1) := by
  cases c with
  | putWire c w => exact h
  | wireBytes | ask | isSubset | sizesEqual | equal =>
    -- a question leaves the store as it is
    simp only [step]
    split <;> exact h
  | create m bits c =>
    cases c with
    | none => exact h.create m bits none none
    | some c =>
      simp only [step]
      split
      · rename_i w _
        exact h.create m bits (some w) (some c)
      · exact h
  | createSized m cap => exact h.put (clean_empty cap) rfl
  | createSizedFrom m cap c =>
    simp only [step]
    split
    · rename_i w _
      exact h.put (clean_load (clean_empty cap) w) rfl
    · exact h
  | clone m a =>
    simp only [step]
    split
    · rename_i r hr
      exact h.put (h.clean hr) (h a r hr).2
    · exact h
  | forget m a =>
    simp only [step]
    split
    · rename_i r hr
      have hm : (Register.generic r.mask).mask.Clean := (h a r hr).1
      exact h.put hm (h a r hr).2
    · exact h
  | sweep f m =>
    simp only [step]
    split
    · rename_i r hr
      have hm : (r.sweep f).mask = r.mask.sweep f := r.mask_sweep f
      exact h.replace hr (hm ▸ clean_sweep (h.clean hr) f) (hm ▸ r.mask.bits_sweep f)
    · exact h
  | edit f m i =>
    simp only [step]
    split
    · -- accepted or not, what the change leaves is clean
      rename_i r hr
      have hm : (r.edit i f).2.mask = (r.mask.edit i f).2 := congrArg Prod.snd (r.mask_edit i f)
      exact h.replace hr (hm ▸ clean_edit (h.clean hr) i f) (hm ▸ r.mask.bits_edit i f)
    · exact h
  | importFrom m bits c =>
    simp only [step]
    split
    · rename_i x w hx _
      exact h.replace hx (clean_importFrom (h.clean hx) bits w) (x.bits_importFrom bits w)
    · exact h
  | load m c =>
    simp only [step]
    split
    · rename_i cap x w hx _
      exact h.replace hx (clean_load (h.clean hx) w) rfl
    · exact h
  | exportTo m bits c =>
    simp only [step]
    split <;> exact h
  | combine op m a b' =>
    simp only [step]
    split
    · rename_i d x y hd hx hy
      split
      · rename_i o ho
        have hm : o.2.mask = (Mask.combine op d.mask x.mask y.mask).2 :=
          congrArg Prod.snd (Register.mask_combine? ho)
        refine h.replace hd (hm ▸ ?_) (hm ▸ bits_combine op d.mask x.mask y.mask)
        exact clean_combine op (h.clean hd) (h.clean hx) (h.clean hy)
      · exact h
    · exact h
  | copy m a =>
    simp only [step]
    split
    · rename_i d x hd hx
      exact h.replace hd (clean_copy (h.clean hd) (h.clean hx)) (d.bits_copy x.mask)
    · exact h

theorem run_sound_from (cs : List Command) {s : Store} {b : String → Option UInt8} (h : Sound s b) :
    Sound (run s cs) (birthsFrom s b cs) := by
  induction cs generalizing s b with
  | nil => exact h
  | cons c cs ih => exact ih (sound_step h c)

theorem run_sound (cs : List Command) : Sound (run .empty cs) (births cs) :=
  run_sound_from cs fun n r h => by cases h

/-! ### What can be reached -/

/-- A mask that some program leaves in a store. -/
def Reachable (m : Mask) : Prop := ∃ cs n r, (run .empty cs).masks n = some r ∧ r.mask = m

theorem create_block {m : Mask} (hm : m.Clean) : create m.bits (some ⟨m.block⟩) = .ok m := by
  obtain ⟨c, hc⟩ := hm.formed.exists_capacity
  have hown : m.block.overwrite m.words = m.block := m.block.overwrite_lead m.wordCount
  have hload := load_exported hm (clean_empty c) hc.symm ⟨m.block⟩
  rw [hown] at hload
  rw [hc, create_load, hload]

theorem reachable_iff_clean {m : Mask} : m.Reachable ↔ m.Clean := by
  constructor
  · rintro ⟨cs, n, r, hr, rfl⟩
    exact (run_sound cs).clean hr
  · intro hm
    refine ⟨[.putWire "w" ⟨m.block⟩, .create "m" m.bits (some "w")], "m", .generic m, ?_, rfl⟩
    show (hold _ "m" (create m.bits (some ⟨m.block⟩))).2.masks "m" = _
    rw [create_block hm]
    rfl

/-- **Masks stay clean.** Whatever program has run, and whichever of its commands were
refused, a mask that is held has 32 or 255 indices, as many as it was made with; the
word count and the tail filter that it stores are those of this number; no bit in use
lies at or above it; and the words out of use are zero. The changes that clear nothing
leave clean masks behind for clean operands. -/
theorem masks_stay_clean :
    (∀ (cs : List Command) (n : String) (r : Register), (run .empty cs).masks n = some r →
      (r.mask.bits = 32 ∨ r.mask.bits = 255) ∧ births cs n = some r.mask.bits ∧
      r.mask.wordCount = Words.wordCount r.mask.bits.toNat ∧
      r.mask.tailFilter = Words.tailFilter r.mask.bits.toNat ∧
      (∀ i, r.mask.bits.toNat ≤ i → Words.bit r.mask.words i = false) ∧
      ∀ k, (h : k < 8) → r.mask.wordCount ≤ k → r.mask.block[k] = 0#32) ∧
    (∀ (op : SetOp) (dst a b : Mask), dst.Clean → a.Clean → b.Clean →
      (combine op dst a b).2.Clean) ∧
    (∀ (op : SetOp) (c : Capacity) (dst a b : SizedMask c), dst.mask.Clean → a.mask.Clean →
      b.mask.Clean → (SizedMask.combine op dst a b).mask.Clean) ∧
    (∀ dst src : Mask, dst.Clean → src.Clean → (copy dst src).2.Clean) ∧
    ∀ (m : Mask) (i : UInt8), m.Clean → (m.setBit i).2.Clean ∧ (m.toggleBit i).2.Clean := by
  refine ⟨fun cs n r hr => ?_, fun op dst a b hd ha hb => clean_combine op hd ha hb,
    fun op c dst a b hd ha hb => ?_, fun dst src hd hs => clean_copy hd hs,
    fun m i hm => ⟨clean_edit hm i .set, clean_edit hm i .toggle⟩⟩
  · obtain ⟨hclean, hborn⟩ := run_sound cs n r hr
    have hformed := hclean.formed
    exact ⟨hformed.bits, hborn, hformed.wordCount, hformed.tailFilter, hclean.bit, hclean.spare⟩
  · exact clean_merge op (dst.bits_eq_bits a) (dst.bits_eq_bits b) hd ha hb

/-- A mask of 255 indices, made from a wire mask with all 256 bits and toggled in
its last word. Joined with a full mask, copied over one, changed at its last index and
asked in vain for a change behind it, it stays clean. -/
theorem masks_stay_clean_last_word :
    ∃ r, (run .empty [.putWire "w" (.ofWords (List.replicate 8 (BitVec.allOnes 32))),
        .create "m" 255 (some "w"), .edit .toggleOthers "m" 230]).masks "m" = some r ∧
      r.mask.bits = 255 ∧ r.mask.wordCount = 8 ∧ r.mask.tailFilter = 0x7fffffff#32 ∧
      r.mask.words[7]? = some 0x40#32 ∧ Words.bit r.mask.words 255 = false ∧
      (combine .symmDiff r.mask r.mask (empty .large).fill).1 = .ok () ∧
      (combine .symmDiff r.mask r.mask (empty .large).fill).2.Clean ∧
      (copy (empty .large).fill r.mask).1 = .ok () ∧ (copy (empty .large).fill r.mask).2.Clean ∧
      (r.mask.toggleBit 254).1 = .ok () ∧ (r.mask.toggleBit 254).2.Clean ∧
      (r.mask.setBit 255).1 = .error .invalidArgument ∧ (r.mask.setBit 255).2.Clean := by
  obtain ⟨hrun, hcombine, -, hcopy, hedit⟩ := masks_stay_clean
  obtain ⟨hbits, -, hcount, hfilter, hbit, hspare⟩ := hrun
    [.putWire "w" (.ofWords (List.replicate 8 (BitVec.allOnes 32))),
      .create "m" 255 (some "w"), .edit .toggleOthers "m" 230] "m" _ rfl
  have hfull : (empty .large).fill.Clean := clean_sweep (clean_empty .large) .fill
  refine ⟨_, rfl, rfl, hcount, hfilter, by decide +kernel, hbit 255 (by decide), rfl,
    hcombine .symmDiff _ _ _ ?_ ?_ hfull, rfl, hcopy _ _ hfull ?_, rfl, (hedit _ 254 ?_).2, rfl,
    (hedit _ 255 ?_).1⟩
  all_goals exact ⟨⟨hbits, hcount, hfilter⟩, hbit, hspare⟩

end Mask

end BoardObjects
