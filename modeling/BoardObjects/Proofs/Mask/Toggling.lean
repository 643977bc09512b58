/-
# Toggling the rest of a word

`toggleOthers` at an index leaves that index as it is and flips the other indices of its
word. The word is flipped in full and what lies at or above the capacity is cleared
afterwards, so between two calls on the tail word of a mask of 255 something is taken
away. Nothing is lost by it: below the capacity a call flips a fixed pattern of bits, and
above it there is nothing before the call and nothing after it (`flips_toggleOthers`).

`Flips n p f` says of any fallible change of masks of `n` indices that it flips the
pattern `p` and is not refused. Such changes done one after the other flip the exclusive
or of their patterns (`Flips.andThen`), so what two calls do together is read off from
their patterns: a pattern cancels itself, the order does not matter, and in one word the
patterns of two calls differ at the two indices only (`others_xor_others`).
-/
import BoardObjects.Proofs.Mask.Runs

namespace BoardObjects

namespace Mask

/-! ### Changes that flip a pattern -/

/-- `m'` is the clean mask that differs from `m` where `p` holds. -/
structure Flipped (p : Nat → Bool) (m m' : Mask) : Prop where
  clean : m'.Clean
  bits : m'.bits = m.bits
  bit : ∀ j < m.size, m'.bit j = (m.bit j ^^ p j)

namespace Flipped

variable {p q : Nat → Bool} {m a b : Mask}

theorem refl (hm : m.Clean) : Flipped (fun _ => false) m m :=
  ⟨hm, rfl, fun _ _ => (Bool.xor_false _).symm⟩

theorem trans (ha : Flipped p m a) (hb : Flipped q a b) : Flipped (fun j => p j ^^ q j) m b := by
  refine ⟨hb.clean, hb.bits.trans ha.bits, fun j hj => ?_⟩
  have hja : j < a.size := by rwa [size, ha.bits]
  calc b.bit j = (a.bit j ^^ q j) := hb.bit j hja
    _ = ((m.bit j ^^ p j) ^^ q j) := by rw [ha.bit j hj]
    _ = (m.bit j ^^ (p j ^^ q j)) := Bool.xor_assoc ..

/-- The pattern below the capacity makes up the result. -/
theorem unique (ha : Flipped p m a) (hb : Flipped q m b) (hpq : ∀ j < m.size, p j = q j) :
    a = b := by
  have hsa : a.size = m.size := congrArg UInt8.toNat ha.bits
  have hsb : b.size = m.size := congrArg UInt8.toNat hb.bits
  refine eq_of_bit_eq ha.clean hb.clean (ha.bits.trans hb.bits.symm) fun j => ?_
  rcases Nat.lt_or_ge j m.size with hj | hj
  · rw [ha.bit j hj, hb.bit j hj, hpq j hj]
  · -- both are clean, so the patterns do not matter here
    rw [ha.clean.bit_eq_false (hsa ▸ hj), hb.clean.bit_eq_false (hsb ▸ hj)]

/-- Below the capacity the answers change where the pattern holds. -/
theorem get (h : Flipped p m a) (hm : m.Clean) (j : UInt8) :
    a.get j = if j < m.bits ∧ p j.toNat = true then !m.get j else m.get j := by
  by_cases hj : j < m.bits
  · rw [h.clean.get_eq, hm.get_eq, h.bit _ (lt_bits_iff.mp hj)]
    cases p j.toNat <;> simp [hj]
  · have hout : ∀ x : Mask, x.bits = m.bits → x.get j = false := fun x hx => by
      rw [get_eq, decide_eq_false fun hlt => hj (hx ▸ lt_bits_iff.mpr hlt), Bool.false_and]
    rw [if_neg fun h' => hj h'.1, hout a h.bits, hout m rfl]

end Flipped

/-- On clean masks of `n` indices, `f` is not refused and flips the pattern `p`. -/
def Flips (n : UInt8) (p : Nat → Bool) (f : Mask → Change Mask) : Prop :=
  ∀ m : Mask, m.Clean → m.bits = n → ∃ m', f m = (.ok (), m') ∧ Flipped p m m'

section Flips

variable {n : UInt8} {p q : Nat → Bool} {f g : Mask → Change Mask}

theorem flips_ok : Flips n (fun _ => false) fun m => (.ok (), m) := fun m hm _ => ⟨m, rfl, .refl hm⟩

theorem Flips.andThen (hf : Flips n p f) (hg : Flips n q g) :
    Flips n (fun j => p j ^^ q j) fun m => (f m).andThen g := by
  intro m hm hc
  obtain ⟨a, hfa, ha⟩ := hf m hm hc
  obtain ⟨b, hgb, hb⟩ := hg a ha.clean (ha.bits.trans hc)
  refine ⟨b, ?_, ha.trans hb⟩
  show (f m).andThen g = (.ok (), b)
  rw [hfa]
  exact hgb

theorem Flips.agree (hf : Flips n p f) (hg : Flips n q g) (hpq : ∀ j < n.toNat, p j = q j)
    {m : Mask} (hm : m.Clean) (hc : m.bits = n) : ∃ m', f m = (.ok (), m') ∧ g m = (.ok (), m') := by
  obtain ⟨a, hfa, ha⟩ := hf m hm hc
  obtain ⟨b, hgb, hb⟩ := hg m hm hc
  obtain rfl : a = b := ha.unique hb fun j hj => hpq j (hc ▸ hj)
  exact ⟨a, hfa, hgb⟩

/-- A change at an index flips `p` if `p` tells what it does below the number of indices. -/
theorem flips_edit {i : UInt8} (hi : i < n) (e : Edit)
    (he : ∀ m : Mask, ∀ j < m.size, m.editBits i e j = (m.bit j ^^ p j)) :
    Flips n p fun m => m.edit i e := by
  rintro m hm rfl
  obtain ⟨m', hm', hw⟩ := edit_rewritten hm.formed hi e
  have hclean : m'.Clean := hw.clean hm fun j hj => editBits_eq_false hm hi hj e
  exact ⟨m', hm', hclean, hw.bits_eq, fun j hj => (hw.bit j).trans (he m j hj)⟩

end Flips

/-! ### The two toggles -/

/-- The other indices of the word in which `i` lies. -/
def others (i j : Nat) : Bool := decide (j / 32 = i / 32) && decide (j ≠ i)

theorem flips_toggleBit {n i : UInt8} (hi : i < n) :
    Flips n (fun j => decide (j = i.toNat)) fun m => m.toggleBit i :=
  flips_edit hi .toggle fun _ _ _ => rfl

theorem flips_toggleOthers {n i : UInt8} (hi : i < n) :
    Flips n (others i.toNat) fun m => m.toggleOthers i :=
  flips_edit hi .toggleOthers fun m j hj => by
    rw [editBits, decide_eq_true hj, Bool.and_true, others]

theorem others_toNat (i j : UInt8) :
    others i.toNat j.toNat = true ↔ j.toNat / 32 = i.toNat / 32 ∧ j ≠ i := by
  rw [others, Bool.and_eq_true, decide_eq_true_eq, decide_eq_true_eq, ne_eq, UInt8.toNat_inj]

/-- Within one word the patterns of two indices differ at these indices only. -/
theorem others_xor_others {i j : Nat} (h : i / 32 = j / 32) (k : Nat) :
    (others i k ^^ others j k) = (decide (k = i) ^^ decide (k = j)) := by
  rw [others, others, ← h, ← Bool.and_xor_distrib_left, decide_not, decide_not, Bool.not_xor_not]
  by_cases hw : k / 32 = i / 32
  · rw [decide_eq_true hw, Bool.true_and]
  · have hki : k ≠ i := fun hk => hw (congrArg (· / 32) hk)
    have hkj : k ≠ j := fun hk => hw ((congrArg (· / 32) hk).trans h.symm)
    rw [decide_eq_false hw, decide_eq_false hki, decide_eq_false hkj]
    rfl

/-! ### Toggling the others -/

/-- A change that is refused leaves the store as it is, whichever form the mask has. -/
theorem step_edit_refused {s : Store} {n : String} {r : Register} (hr : s.masks n = some r)
    {i : UInt8} (h : ¬ i < r.mask.bits) (f : Edit) :
    step s (.edit f n i) = (.result (.error .invalidArgument), s) := by
  simp only [step, hr, Register.edit_refused h f, settle, putMask_self hr]

/-- **The toggle of the others is exact.** At an index at or above the capacity it is refused
and leaves the mask, and a store that holds the mask stays as it is. At any other index it
keeps this index and the other words, flips the rest of the word, and sets no bit at or above
the capacity. Done twice it gives the mask back; at two indices the order does not matter;
and at two indices of one word it gives what the toggles of the two bits give. -/
theorem toggleOthers_exact {m : Mask} (hm : m.Reachable) :
    (∀ i, m.bits ≤ i → m.toggleOthers i = (.error .invalidArgument, m) ∧
      ∀ (s : Store) (n : String) (r : Register), s.masks n = some r → r.mask = m →
        step s (.edit .toggleOthers n i) = (.result (.error .invalidArgument), s)) ∧
    (∀ i, i < m.bits → ∃ m', m.toggleOthers i = (.ok (), m') ∧ m'.Reachable ∧ m'.bits = m.bits ∧
      (∀ j, m'.get j = if j < m.bits ∧ j.toNat / 32 = i.toNat / 32 ∧ j ≠ i then !m.get j
        else m.get j) ∧
      ∀ k, m.bits.toNat ≤ k → Words.bit m'.words k = false) ∧
    (∀ i, i < m.bits → (m.toggleOthers i).andThen (·.toggleOthers i) = (.ok (), m)) ∧
    (∀ i j, i < m.bits → j < m.bits →
      ∃ m', (m.toggleOthers i).andThen (·.toggleOthers j) = (.ok (), m') ∧
        (m.toggleOthers j).andThen (·.toggleOthers i) = (.ok (), m')) ∧
    ∀ i j, i < m.bits → j < m.bits → i.toNat / 32 = j.toNat / 32 →
      ∃ m', (m.toggleOthers i).andThen (·.toggleOthers j) = (.ok (), m') ∧
        (m.toggleBit i).andThen (·.toggleBit j) = (.ok (), m') := by
  have hc : m.Clean := reachable_iff_clean.mp hm
  have hothers : ∀ {i}, i < m.bits → Flips m.bits (others i.toNat) fun x => x.toggleOthers i :=
    flips_toggleOthers
  refine ⟨fun i hi => ?_, fun i hi => ?_, fun i hi => ?_, fun i j hi hj => ?_,
    fun i j hi hj hw => ?_⟩
  · have hout : ¬ i < m.bits := UInt8.not_lt.mpr hi
    refine ⟨toggleOthers_refused hout, fun s n r hr hrm => step_edit_refused hr ?_ .toggleOthers⟩
    rwa [hrm]
  · obtain ⟨m', hm', hf⟩ := hothers hi m hc rfl
    refine ⟨m', hm', reachable_iff_clean.mpr hf.clean, hf.bits, fun j => ?_, fun k hk => ?_⟩
    · simp only [hf.get hc, others_toNat]
    · exact hf.clean.bit_eq_false (by rwa [← hf.bits] at hk)
  · -- the pattern cancels itself, so the two calls change what no call changes
    obtain ⟨m', hm', hsame⟩ := ((hothers hi).andThen (hothers hi)).agree flips_ok
      (fun _ _ => Bool.xor_self _) hc rfl
    exact hm'.trans hsame.symm
  · exact ((hothers hi).andThen (hothers hj)).agree ((hothers hj).andThen (hothers hi))
      (fun _ _ => Bool.xor_comm ..) hc rfl
  · exact ((hothers hi).andThen (hothers hj)).agree
      ((flips_toggleBit hi).andThen (flips_toggleBit hj)) (fun k _ => others_xor_others hw k) hc rfl

/-- In a mask of 255 with some bits in its tail word: the toggle at 255 is refused, the
one at 230 flips 254 and not 223, and those at 230 and 254 together are the toggles of
these two bits. -/
theorem toggleOthers_exact_tail :
    let m := (empty .large).load
      (.ofWords [1#32, 0#32, 0#32, 0#32, 0#32, 0#32, 0x80000000#32, 0x40000005#32])
    let s := Store.empty.putMask "m" (.generic m)
    m.Reachable ∧ m.toggleOthers 255 = (.error .invalidArgument, m) ∧
      step s (.edit .toggleOthers "m" 255) = (.result (.error .invalidArgument), s) ∧
      (∃ m', m.toggleOthers 230 = (.ok (), m') ∧ m'.get 230 = false ∧ m'.get 254 = false ∧
        m'.get 225 = true ∧ m'.get 223 = true ∧ Words.bit m'.words 255 = false) ∧
      (m.toggleOthers 230).andThen (·.toggleOthers 230) = (.ok (), m) ∧
      (∃ m', (m.toggleOthers 0).andThen (·.toggleOthers 254) = (.ok (), m') ∧
        (m.toggleOthers 254).andThen (·.toggleOthers 0) = (.ok (), m')) ∧
      ∃ m', (m.toggleOthers 230).andThen (·.toggleOthers 254) = (.ok (), m') ∧
        (m.toggleBit 230).andThen (·.toggleBit 254) = (.ok (), m') := by
  intro m s
  have hm : m.Reachable := reachable_iff_clean.mpr (clean_load (clean_empty .large) _)
  have hget : m.get 230 = false ∧ m.get 254 = true ∧ m.get 225 = false ∧ m.get 223 = true := by
    decide +kernel
  obtain ⟨h230, h254, h225, h223⟩ := hget
  obtain ⟨hrefused, hflip, htwice, hcomm, hword⟩ := toggleOthers_exact hm
  obtain ⟨hend, hstore⟩ := hrefused 255 (by decide +kernel)
  obtain ⟨m', hm', -, -, hbit, hspare⟩ := hflip 230 (by decide +kernel)
  refine ⟨hm, hend, hstore s "m" (.generic m) rfl rfl, ⟨m', hm', ?_, ?_, ?_, ?_, ?_⟩,
    htwice 230 (by decide +kernel), hcomm 0 254 (by decide +kernel) (by decide +kernel),
    hword 230 254 (by decide +kernel) (by decide +kernel) (by decide +kernel)⟩
  · rw [hbit, if_neg (by decide +kernel), h230]
  · rw [hbit, if_pos (by decide +kernel), h254, Bool.not_true]
  · rw [hbit, if_pos (by decide +kernel), h225, Bool.not_false]
  · rw [hbit, if_neg (by decide +kernel), h223]
  · exact hspare 255 (by decide +kernel)

end Mask

end BoardObjects
