/-
# Every way to ask for members gives the same answer

Whether the indices of a mask are members of a group is told in four ways: `containsAll`
compares words of two masks, `filter` joins them, `get?` looks into the slots, and
`payload` accepts a filter or refuses it. In a coupled group they agree
(`Coupled.containsAll_iff`, `Coupled.filter_beq_iff`, `Coupled.payload_ok_iff`), and a mask
of the other capacity is never contained, not even an empty one.

What `filter` gives is the greatest mask that is contained in the group and in the mask it
was asked for (`isSubset_filter`), so filtering again changes nothing.
-/
import BoardObjects.Proofs.Group.Filtering
import BoardObjects.Proofs.Mask.Equality

namespace BoardObjects

namespace Group

variable {α : Type} {g : Group α} {w f : Mask}

/-! ### Containment -/

theorem Coupled.containsAll_iff (hg : g.Coupled) (hw : w.Clean) :
    g.containsAll w = true ↔
      w.bits = g.capacity ∧ ∀ i, w.get i = true → (g.get? i).isSome = true := by
  rw [containsAll, Mask.isSubset_iff_members hw hg.clean.formed, Mask.members_subset_iff]
  simp only [hg.get_eq]
  exact Iff.rfl

/-! ### The filter -/

theorem filter_eq_error_iff : g.filter w = .error .invalidArgument ↔ w.bits ≠ g.capacity := by
  constructor
  · intro herror hc
    rw [filter, Mask.combine_eq_merge .inter rfl hc.symm] at herror
    cases herror
  · intro hc
    have hne : ¬ (g.mask.bits = g.mask.bits ∧ g.mask.bits = w.bits) := fun h => hc h.2.symm
    rw [filter, Mask.combine_refused .inter hne]
    rfl

/-- A filter that is accepted has the group's capacity, and gives its members that are in
it. -/
theorem Coupled.of_filter (hg : g.Coupled) (hw : w.Formed) (hf : g.filter w = .ok f) :
    w.bits = g.capacity ∧ f.bits = g.capacity ∧ f.Clean ∧
      ∀ i, f.bit i = (g.mask.bit i && w.bit i) := by
  have hbits : w.bits = g.capacity := by
    by_contra hne
    rw [filter_eq_error_iff.mpr hne] at hf
    cases hf
  obtain ⟨x, hx, hspec⟩ := filter_ok hg hw hbits
  obtain rfl : x = f := Except.ok.inj (hx.symm.trans hf)
  exact ⟨hbits, hspec⟩

theorem Coupled.filter_beq_iff (hg : g.Coupled) (hw : w.Clean) :
    (∃ f, g.filter w = .ok f ∧ (f == w) = true) ↔ g.containsAll w = true := by
  rw [hg.containsAll_iff hw]
  constructor
  · rintro ⟨f, hf, heq⟩
    obtain ⟨hbits, -, hclean, hbit⟩ := hg.of_filter hw.formed hf
    refine ⟨hbits, fun i hi => ?_⟩
    have hboth := ((Mask.beq_iff_get hclean hw).mp heq).2 i
    rw [get_of_filter hg hbits hclean hbit, hi, Bool.and_true, hg.get_eq] at hboth
    exact hboth
  · rintro ⟨hbits, hall⟩
    obtain ⟨f, hf, hfbits, hclean, hbit⟩ := filter_ok hg hw.formed hbits
    refine ⟨f, hf, (Mask.beq_iff_get hclean hw).mpr ⟨hfbits.trans hbits.symm, fun i => ?_⟩⟩
    rw [get_of_filter hg hbits hclean hbit, Bool.and_eq_right_iff_imp, hg.get_eq]
    exact hall i

/-- No greater mask than the one that a filter gives is both contained in the group and a
subset of what it was asked for. -/
theorem isSubset_filter (hg : g.Coupled) (hw : w.Formed) (hf : f.Formed)
    (hbits : f.bits = g.capacity) (hbit : ∀ i, f.bit i = (g.mask.bit i && w.bit i)) {v : Mask}
    (hv : v.Formed) (hvg : g.containsAll v = true) (hvw : v.isSubset w = true) :
    v.isSubset f = true := by
  obtain ⟨hvbits, hvmask⟩ := (Mask.isSubset_iff hv hg.clean.formed).mp hvg
  obtain ⟨-, hvbit⟩ := (Mask.isSubset_iff hv hw).mp hvw
  refine (Mask.isSubset_iff hv hf).mpr ⟨hvbits.trans hbits.symm, fun i hi => ?_⟩
  rw [hbit, hvmask i hi, hvbit i hi, Bool.and_self]

theorem Coupled.filter_filter (hg : g.Coupled) (hw : w.Formed) (hf : g.filter w = .ok f) :
    g.filter f = .ok f := by
  obtain ⟨-, hbits, hclean, hbit⟩ := hg.of_filter hw hf
  obtain ⟨x, hx, hbits', hclean', hbit'⟩ := filter_ok hg hclean.formed hbits
  have hxf : x = f := Mask.eq_of_bit_eq hclean' hclean (hbits'.trans hbits.symm) fun i => by
    rw [hbit', hbit, ← Bool.and_assoc, Bool.and_self]
  rw [hx, hxf]

/-! ### The payload -/

variable [BoardObject α]

theorem Coupled.payload_ok_iff (hg : g.Coupled) (hw : w.Clean) :
    (∃ p, g.payload (some w) = .ok p) ↔
      g.containsAll w = true ∧
        ∀ i x, w.get i = true → g.get? i = some x → BoardObject.fault x = none := by
  constructor
  · rintro ⟨p, hp⟩
    obtain ⟨v, hs, hall, -⟩ := payload_ok hp
    obtain rfl : w = v := selection_getD hs
    refine ⟨containsAll_of_selection hs, fun i x hi hx => ?_⟩
    obtain ⟨y, hy, hfault⟩ := hall i ((Mask.mem_indices hw.bounded).mpr hi)
    obtain rfl : y = x := Option.some.inj (hy.symm.trans hx)
    exact hfault
  · rintro ⟨hin, hnone⟩
    have hs : g.selection (some w) = .ok w := if_pos hin
    have hfilter : ∀ v ∈ some w, v.Formed := fun v hv => Option.some.inj hv ▸ hw.formed
    exact ⟨_, payload_written hg hfilter hs fun i hi x hx =>
      hnone i x ((Mask.mem_indices hw.bounded).mp hi) hx⟩

/-- **The ways to ask for members agree.** A group contains a mask exactly if filtering by it
gives an equal mask; exactly if the mask has the group's capacity and an object at each of
its indices; and, when no object fails, exactly if it is accepted as the filter of a payload.
Filtering is refused exactly for the other capacity. Otherwise it gives the greatest mask
that is contained in the group and a subset of the one it was asked for. -/
theorem membership_agrees {g : Group α} (hg : g.Reachable) {w : Mask} (hw : w.Reachable) :
    (g.containsAll w = true ↔ ∃ f, g.filter w = .ok f ∧ (f == w) = true) ∧
    (g.containsAll w = true ↔
      w.bits = g.capacity ∧ ∀ i, w.get i = true → (g.get? i).isSome = true) ∧
    ((∀ i x, g.get? i = some x → BoardObject.fault x = none) →
      (g.containsAll w = true ↔ ∃ p, g.payload (some w) = .ok p)) ∧
    (g.filter w = .error .invalidArgument ↔ w.bits ≠ g.capacity) ∧
    (w.bits = g.capacity → ∃ r, g.filter w = .ok r ∧
      (∀ i, r.get i = true ↔ (g.get? i).isSome = true ∧ w.get i = true) ∧
      g.containsAll r = true ∧ r.isSubset w = true ∧
      (∀ v : Mask, v.Formed → g.containsAll v = true → v.isSubset w = true →
        v.isSubset r = true) ∧
      g.filter r = .ok r) := by
  have hc : g.Coupled := hg.coupled
  have hclean : w.Clean := Mask.reachable_iff_clean.mp hw
  refine ⟨(hc.filter_beq_iff hclean).symm, hc.containsAll_iff hclean, fun hnone => ?_,
    filter_eq_error_iff, fun hbits => ?_⟩
  · rw [hc.payload_ok_iff hclean]
    exact (and_iff_left fun i x _ hx => hnone i x hx).symm
  · have hw' : w.Formed := hclean.formed
    obtain ⟨r, hr, hrbits, hrclean, hbit⟩ := filter_ok hc hw' hbits
    have hr' : r.Formed := hrclean.formed
    have hsub : ∀ i, r.bit i = true → g.mask.bit i = true ∧ w.bit i = true := fun i hi => by
      rwa [hbit, Bool.and_eq_true] at hi
    have hin : g.containsAll r = true :=
      (Mask.isSubset_iff hr' hc.clean.formed).mpr ⟨hrbits, fun i hi => (hsub i hi).1⟩
    have hsubset : r.isSubset w = true :=
      (Mask.isSubset_iff hr' hw').mpr ⟨hrbits.trans hbits.symm, fun i hi => (hsub i hi).2⟩
    refine ⟨r, hr, fun i => ?_, hin, hsubset, fun v => isSubset_filter hc hw' hr' hrbits hbit,
      hc.filter_filter hw' hr⟩
    rw [get_of_filter hc hbits hrclean hbit, Bool.and_eq_true, hc.get_eq]

/-- A group with objects at 3, 31 and 254, none of which fails: a mask of two of them, one
with an index that has no object, and an empty mask of the other capacity. -/
theorem membership_agrees_three_masks :
    let g : Group Sample := Outcome.run step (construct .large).state
      [.insert 254 ⟨1, [9], none⟩, .insert 31 ⟨2, [], none⟩, .insert 3 ⟨7, [1, 2], none⟩]
    let w := (Mask.empty .large).load
      (.ofWords [0x80000000#32, 0#32, 0#32, 0#32, 0#32, 0#32, 0#32, 1#32 <<< 30])
    let v := (Mask.empty .large).load (.ofWords [8#32, 1#32])
    g.Reachable ∧ w.Reachable ∧ v.Reachable ∧ (Mask.empty .small).Reachable ∧
      (∀ i x, g.get? i = some x → BoardObject.fault x = none) ∧
      (∃ f, g.filter w = .ok f ∧ (f == w) = true) ∧ (∃ p, g.payload (some w) = .ok p) ∧
      ¬ (∃ p, g.payload (some v) = .ok p) ∧ v.bits = g.capacity ∧
      (∃ r, g.filter v = .ok r ∧ r.get 3 = true ∧ r.get 32 = false ∧ g.filter r = .ok r) ∧
      g.containsAll (Mask.empty .small) = false ∧
      g.filter (Mask.empty .small) = .error .invalidArgument := by
  intro g w v
  have hg : g.Reachable := ⟨_, _, rfl⟩
  have hmade : ∀ x, ((Mask.empty .large).load x).Reachable := fun x =>
    Mask.reachable_iff_clean.mpr (Mask.clean_load (Mask.clean_empty .large) x)
  have hsmall : (Mask.empty .small).Reachable :=
    Mask.reachable_iff_clean.mpr (Mask.clean_empty .small)
  have hslots : ∀ s ∈ g.slots, s.bind BoardObject.fault = none := by decide +kernel
  have hquiet : ∀ i x, g.get? i = some x → BoardObject.fault x = none := fun i x hx =>
    hslots _ (List.mem_of_getElem? (get?_eq_some_iff.mp hx))
  obtain ⟨hfilter, -, hpayload, -⟩ := membership_agrees hg (hmade _ : w.Reachable)
  obtain ⟨-, hslot, hpayload', -, hgreatest⟩ := membership_agrees hg (hmade _ : v.Reachable)
  obtain ⟨-, hcapacity, -, hrefused, -⟩ := membership_agrees hg hsmall
  have hin : g.containsAll w = true := by decide +kernel
  have hbits : v.bits = g.capacity := by decide +kernel
  have hvacant : (g.get? 32).isSome = false := by decide +kernel
  have hother : (Mask.empty .small).bits ≠ g.capacity := by decide +kernel
  obtain ⟨r, hr, hget, -, -, -, hagain⟩ := hgreatest hbits
  refine ⟨hg, hmade _, hmade _, hsmall, hquiet, hfilter.mp hin, (hpayload hquiet).mp hin,
    fun hp => ?_, hbits, ⟨r, hr, (hget 3).mpr ?_, ?_, hagain⟩, ?_, hrefused.mpr hother⟩
  · have hall := (hslot.mp ((hpayload' hquiet).mpr hp)).2 32 (by decide +kernel)
    rw [hvacant] at hall
    cases hall
  · exact ⟨by decide +kernel, by decide +kernel⟩
  · rw [← Bool.not_eq_true, hget, hvacant]
    exact fun h => by cases h.1
  · rw [← Bool.not_eq_true]
    exact fun h => hother (hcapacity.mp h).1

end Group

end BoardObjects
