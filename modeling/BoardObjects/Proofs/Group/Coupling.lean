/-
# The mask and the slots of a group agree

A group knows its members twice: by its mask and by its slots. A call that changes
one of them changes the other a moment later, and between the two it could fail.
It does not: in a coupled group, an index below the capacity has a slot and can be
put into the mask or taken out of it, so both changes are made or none is
(`Coupled.insert_ok`, `Coupled.remove_ok`). Hence every call leaves a coupled group
coupled, whatever it answers (`coupledAt_step`), and so does every program
(`run_coupledAt`).

Insertion and removal are one change seen from the slots: `Group.place` puts an
object into a slot, or nothing, and the mask follows.
-/
import BoardObjects.Clock.Domain
import BoardObjects.Group.Program
import BoardObjects.Proofs.Mask.Enumeration

namespace BoardObjects

namespace Group

variable {α : Type}

/-! ### Slots -/

theorem get?_eq_some_iff {g : Group α} {i : UInt8} {x : α} :
    g.get? i = some x ↔ g.slots[i.toNat]? = some (some x) := by
  rw [get?, Option.join_eq_some_iff]

/-- The group with `x` in the slot at index `i`, and with the mask `m`. -/
def place (g : Group α) (i : UInt8) (x : Option α) (m : Mask) : Group α :=
  { g with mask := m, slots := g.slots.set i.toNat x }

theorem get?_place {g : Group α} {i : UInt8} (hi : i.toNat < g.slots.length) (x : Option α)
    (m : Mask) (j : UInt8) : (g.place i x m).get? j = if j = i then x else g.get? j := by
  show (g.slots.set i.toNat x)[j.toNat]?.join = _
  by_cases hj : j = i
  · rw [if_pos hj, hj, List.getElem?_set_self hi, Option.join_some]
  · have hne : i.toNat ≠ j.toNat := fun h => hj (UInt8.toNat_inj.mp h).symm
    rw [if_neg hj, List.getElem?_set_ne hne]
    rfl

theorem get?_modify (g : Group α) (i : UInt8) (f : α → α) (j : UInt8) :
    (g.modify i f).get? j = if j = i then (g.get? j).map f else g.get? j := by
  show (g.slots.modify i.toNat (Option.map f))[j.toNat]?.join = _
  by_cases hj : j = i
  · rw [if_pos hj, hj, List.getElem?_modify_eq, get?]
    cases g.slots[i.toNat]? <;> rfl
  · have hne : i.toNat ≠ j.toNat := fun h => hj (UInt8.toNat_inj.mp h).symm
    rw [if_neg hj, List.getElem?_modify_ne _ _ hne]
    rfl

/-! ### Coupled groups -/

theorem get?_empty (c : Capacity) (i : UInt8) : (empty c : Group α).get? i = none := by
  show (List.replicate c.size none)[i.toNat]?.join = none
  rw [List.getElem?_replicate]
  split <;> rfl

theorem coupled_empty (c : Capacity) : (empty c : Group α).Coupled := by
  have hclean : (Mask.empty c).Clean := Mask.clean_empty c
  refine ⟨List.length_replicate, hclean, fun i _ => ?_⟩
  have hbit : (empty c : Group α).mask.get i = false := by
    show (Mask.empty c).get i = false
    rw [hclean.get_eq, Mask.bit_empty]
  rw [get?_empty, hbit, Option.isSome_none]

namespace Coupled

variable {g : Group α}

theorem length_slots (hg : g.Coupled) : g.slots.length = g.mask.size := hg.1

theorem clean (hg : g.Coupled) : g.mask.Clean := hg.2.1

theorem get_iff (hg : g.Coupled) {i : UInt8} (hi : i < g.capacity) :
    g.mask.get i = true ↔ (g.get? i).isSome = true := hg.2.2 i hi

theorem lt_length (hg : g.Coupled) {i : UInt8} (hi : i < g.capacity) :
    i.toNat < g.slots.length := by
  rw [hg.length_slots]
  exact Mask.lt_bits_iff.mp hi

theorem of_get (hg : g.Coupled) {i : UInt8} (hi : g.mask.get i = true) :
    i < g.capacity ∧ ∃ x, g.get? i = some x := by
  have hbit : g.mask.bit i.toNat = true := by rwa [← hg.clean.get_eq]
  have hlt : i < g.capacity := Mask.lt_bits_iff.mpr (hg.clean.lt_size hbit)
  exact ⟨hlt, Option.isSome_iff_exists.mp ((hg.get_iff hlt).mp hi)⟩

/-- An object lies at an index below the capacity that is in the mask. -/
theorem of_get? (hg : g.Coupled) {i : UInt8} {x : α} (hx : g.get? i = some x) :
    i < g.capacity ∧ g.mask.get i = true := by
  have hlen : i.toNat < g.slots.length := by
    by_contra hge
    rw [get?, List.getElem?_eq_none (Nat.le_of_not_lt hge)] at hx
    cases hx
  have hsize : i.toNat < g.mask.size := by rwa [← hg.length_slots]
  have hi : i < g.capacity := Mask.lt_bits_iff.mpr hsize
  exact ⟨hi, (hg.get_iff hi).mpr (by rw [hx, Option.isSome_some])⟩

/-- The mask tells for every byte whether there is an object. -/
theorem get_eq (hg : g.Coupled) (i : UInt8) : g.mask.get i = (g.get? i).isSome := by
  rw [Bool.eq_iff_iff, Option.isSome_iff_exists]
  exact ⟨fun hi => (hg.of_get hi).2, fun ⟨_, hx⟩ => (hg.of_get? hx).2⟩

/-- A slot and the bit of its index may be changed together. -/
theorem place (hg : g.Coupled) {i : UInt8} (hi : i < g.capacity) {x : Option α} {m : Mask}
    (hm : Mask.Rewritten g.mask (fun j => if j = i.toNat then x.isSome else g.mask.bit j) m) :
    (g.place i x m).Coupled := by
  have hin : i.toNat < g.mask.size := Mask.lt_bits_iff.mp hi
  have hs : m.size = g.mask.size := hm.size_eq
  have hclean : m.Clean := by
    refine hm.clean hg.clean fun j hj => ?_
    have hji : j ≠ i.toNat := by omega
    rw [if_neg hji, hg.clean.bit_eq_false hj]
  refine ⟨?_, hclean, fun j hj => ?_⟩
  · show (g.slots.set i.toNat x).length = m.size
    rw [List.length_set, hg.length_slots, hs]
  · have hjs : j.toNat < m.size := Mask.lt_bits_iff.mp hj
    have hjc : j < g.capacity := Mask.lt_bits_iff.mpr (hs ▸ hjs)
    show m.get j = true ↔ ((g.place i x m).get? j).isSome = true
    rw [get?_place (hg.lt_length hi), hclean.get_eq, hm.bit]
    by_cases hji : j = i
    · rw [if_pos hji, if_pos (congrArg UInt8.toNat hji)]
    · have hne : j.toNat ≠ i.toNat := fun h => hji (UInt8.toNat_inj.mp h)
      rw [if_neg hji, if_neg hne, ← hg.clean.get_eq]
      exact hg.get_iff hjc

end Coupled

/-! ### Changing a group -/

section

variable {g : Group α} {i : UInt8}

theorem insert_beyond (hi : ¬ i < g.capacity) (x : α) :
    g.insert i x = .refused g .invalidArgument [.insertBeyond i g.capacity] :=
  if_pos (UInt8.not_lt.mp hi)

theorem insert_occupied (hi : i < g.capacity) (ho : g.mask.get i = true) (x : α) :
    g.insert i x = .refused g .alreadyExists [.slotOccupied i] := by
  rw [insert, if_neg (UInt8.not_le.mpr hi), if_pos ho]

theorem remove_beyond (hi : ¬ i < g.capacity) : g.remove i = .refused g .invalidArgument [] :=
  if_pos (UInt8.not_lt.mp hi)

theorem remove_vacant (hi : i < g.capacity) (hv : g.get? i = none) :
    g.remove i = .refused g .noEntry [] := by
  rw [remove, if_neg (UInt8.not_le.mpr hi), hv]

/-- An object goes into a free slot and its index into the mask: the mask does not
refuse it. -/
theorem Coupled.insert_ok (hg : g.Coupled) (hi : i < g.capacity) (hfree : g.mask.get i = false)
    (x : α) :
    ∃ m, g.mask.setBit i = (.ok (), m) ∧ g.insert i x = ⟨.ok (), g.place i (some x) m, []⟩ ∧
      m.bits = g.mask.bits ∧ (g.place i (some x) m).Coupled := by
  obtain ⟨m, hm, hw⟩ := Mask.edit_rewritten hg.clean.formed hi .set
  have hset : g.mask.setBit i = (.ok (), m) := hm
  refine ⟨m, hset, ?_, hw.bits_eq, hg.place hi hw⟩
  rw [insert, if_neg (UInt8.not_le.mpr hi), if_neg (by rw [hfree]; decide), hset]
  rfl

/-- An object leaves its slot and its index the mask: the mask does not refuse it
after the slot has been emptied. -/
theorem Coupled.remove_ok (hg : g.Coupled) {x : α} (hx : g.get? i = some x) :
    ∃ m, (g.vacate i).mask.clearBit i = (.ok (), m) ∧
      g.remove i = ⟨.ok x, g.place i none m, []⟩ ∧ m.bits = g.mask.bits ∧
      (g.place i none m).Coupled := by
  obtain ⟨hi, -⟩ := hg.of_get? hx
  obtain ⟨m, hm, hw⟩ := Mask.edit_rewritten hg.clean.formed hi .clear
  have hclear : g.mask.clearBit i = (.ok (), m) := hm
  refine ⟨m, hclear, ?_, hw.bits_eq, hg.place hi hw⟩
  simp only [remove, UInt8.not_le.mpr hi, if_false, hx, hclear]
  rfl

end

/-! ### Runs -/

structure CoupledAt (c : Capacity) (g : Group α) : Prop where
  capacity : g.capacity = c.bits
  coupled : g.Coupled

theorem Coupled.exists_coupledAt {g : Group α} (hg : g.Coupled) : ∃ c, g.CoupledAt c := by
  obtain ⟨c, hc⟩ := hg.clean.formed.exists_capacity
  exact ⟨c, hc, hg⟩

section

variable {c : Capacity} {g : Group α}

theorem coupledAt_insert (hg : g.CoupledAt c) (i : UInt8) (x : α) :
    (g.insert i x).state.CoupledAt c := by
  by_cases hi : i < g.capacity
  · cases hm : g.mask.get i with
    | true =>
      rw [insert_occupied hi hm]
      exact hg
    | false =>
      obtain ⟨m, -, heq, hc, hcoupled⟩ := hg.coupled.insert_ok hi hm x
      rw [heq]
      exact ⟨hc.trans hg.capacity, hcoupled⟩
  · rw [insert_beyond hi]
    exact hg

theorem coupledAt_remove (hg : g.CoupledAt c) (i : UInt8) : (g.remove i).state.CoupledAt c := by
  by_cases hi : i < g.capacity
  · cases hx : g.get? i with
    | none =>
      rw [remove_vacant hi hx]
      exact hg
    | some x =>
      obtain ⟨m, -, heq, hc, hcoupled⟩ := hg.coupled.remove_ok hx
      rw [heq]
      exact ⟨hc.trans hg.capacity, hcoupled⟩
  · rw [remove_beyond hi]
    exact hg

/-- A change in place neither fills a slot nor empties one. -/
theorem coupled_modify (hg : g.Coupled) (i : UInt8) (f : α → α) : (g.modify i f).Coupled := by
  refine ⟨?_, hg.clean, fun j hj => ?_⟩
  · show (g.slots.modify i.toNat (Option.map f)).length = g.mask.size
    rw [List.length_modify, hg.length_slots]
  · have hsome : ((g.modify i f).get? j).isSome = (g.get? j).isSome := by
      rw [get?_modify]
      split
      · exact Option.isSome_map
      · rfl
    rw [hsome]
    exact hg.get_iff hj

/-- A payload that has been sent is noted in the flags alone. -/
theorem coupledAt_send [FirmwareObject α] (hg : g.CoupledAt c) : g.send.state.CoupledAt c := by
  unfold send
  split
  · exact hg
  · exact ⟨hg.capacity, hg.coupled⟩

end

variable [FirmwareObject α]

theorem coupledAt_step {c : Capacity} (g : Group α) (d : Command α) (hg : g.CoupledAt c) :
    (g.step d).state.CoupledAt c := by
  cases d with
  | insert i x => exact coupledAt_insert hg i x
  | remove i => exact coupledAt_remove hg i
  | modify i f => exact ⟨hg.capacity, coupled_modify hg.coupled i f⟩
  | send => exact coupledAt_send hg
  | ask q => exact hg

theorem run_coupledAt (c : Capacity) (cs : List (Command α)) :
    (Outcome.run step (construct c).state cs).CoupledAt c :=
  Outcome.run_preserves coupledAt_step cs ⟨rfl, coupled_empty c⟩

/-- A group that some program leaves behind. -/
def Reachable (g : Group α) : Prop := ∃ c cs, Outcome.run step (construct c).state cs = g

theorem Reachable.coupled {g : Group α} (hg : g.Reachable) : g.Coupled := by
  obtain ⟨c, cs, rfl⟩ := hg
  exact (run_coupledAt c cs).coupled

/-! ### Reading a group -/

section

omit [FirmwareObject α]

variable {g : Group α}

theorem Coupled.of_mem_indices (hg : g.Coupled) {i : UInt8} (hi : i ∈ g.mask.indices) :
    i < g.capacity ∧ ∃ x, g.get? i = some x :=
  hg.of_get ((Mask.mem_indices hg.clean.bounded).mp hi)

/-- The objects at the given indices, with their indices. -/
def pick (g : Group α) (is : List UInt8) : List (UInt8 × α) :=
  is.filterMap fun i => (g.get? i).map fun x => (i, x)

theorem mem_pick {is : List UInt8} {i : UInt8} {x : α} :
    (i, x) ∈ g.pick is ↔ i ∈ is ∧ g.get? i = some x := by
  rw [pick, List.mem_filterMap]
  constructor
  · rintro ⟨j, hj, hjx⟩
    obtain ⟨y, hy, heq⟩ := Option.map_eq_some_iff.mp hjx
    obtain ⟨rfl, rfl⟩ := Prod.mk.inj heq
    exact ⟨hj, hy⟩
  · rintro ⟨hi, hx⟩
    exact ⟨i, hi, by rw [hx, Option.map_some]⟩

/-- Where every index has an object, none is left out. -/
theorem indices_pick {is : List UInt8} (his : ∀ i ∈ is, ∃ x, g.get? i = some x) :
    (g.pick is).map Prod.fst = is := by
  have hall : ∀ i ∈ is, ((g.get? i).map fun x => (i, x)).map Prod.fst = some i := fun i hi => by
    obtain ⟨x, hx⟩ := his i hi
    rw [hx]
    rfl
  rw [pick, List.map_filterMap]
  exact (List.filterMap_congr hall).trans List.filterMap_some

theorem Coupled.indices_entries (hg : g.Coupled) : g.entries.map Prod.fst = g.mask.indices :=
  indices_pick fun _ hi => (hg.of_mem_indices hi).2

/-- What is selected is the filter, or the group's mask without one. -/
theorem selection_getD {filter : Option Mask} {w : Mask} (hs : g.selection filter = .ok w) :
    filter.getD g.mask = w := by
  cases filter with
  | none => exact Except.ok.inj hs
  | some v =>
    by_cases hv : g.containsAll v = true
    · exact Except.ok.inj ((if_pos hv).symm.trans hs)
    · have hrefused : g.selection (some v) = .error .invalidArgument := if_neg hv
      rw [hrefused] at hs
      cases hs

theorem containsAll_of_selection {v w : Mask} (h : g.selection (some v) = .ok w) :
    g.containsAll v = true := by
  by_contra hv
  rw [selection, if_neg hv] at h
  cases h

theorem bits_selection {filter : Option Mask} {w : Mask} (h : g.selection filter = .ok w) :
    w.bits = g.capacity := by
  cases filter with
  | none =>
    obtain rfl : g.mask = w := Except.ok.inj h
    rfl
  | some v =>
    obtain rfl : v = w := selection_getD h
    have hv : g.containsAll v = true := containsAll_of_selection h
    rw [containsAll, Mask.isSubset, Bool.and_eq_true, Mask.sizesEqual_iff] at hv
    exact hv.1.symm

/-- A filter that is accepted names members only, so it has no index that the group does
not have. -/
theorem Coupled.selection_ok (hg : g.Coupled) {filter : Option Mask} {w : Mask}
    (hfilter : ∀ v ∈ filter, v.Formed) (h : g.selection filter = .ok w) :
    w.Bounded ∧ ∀ i, w.bit i = true → g.mask.bit i = true := by
  cases filter with
  | none =>
    obtain rfl : g.mask = w := Except.ok.inj h
    exact ⟨hg.clean.bounded, fun _ hi => hi⟩
  | some v =>
    obtain rfl : v = w := selection_getD h
    have hv : g.containsAll v = true := containsAll_of_selection h
    have hformed : v.Formed := hfilter v rfl
    obtain ⟨hc, hsub⟩ := (Mask.isSubset_iff hformed hg.clean.formed).mp hv
    refine ⟨⟨hformed, fun i hi => ?_⟩, hsub⟩
    have hs : g.mask.size ≤ i := by rwa [Mask.size, ← hc]
    by_contra hset
    have hbit : g.mask.bit i = true := hsub i (Bool.not_eq_false _ ▸ hset)
    rw [hg.clean.bit_eq_false hs] at hbit
    cases hbit

theorem Coupled.bounded_selection (hg : g.Coupled) {filter : Option Mask} {w : Mask}
    (hfilter : ∀ v ∈ filter, v.Formed) (h : g.selection filter = .ok w) : w.Bounded :=
  (hg.selection_ok hfilter h).1

theorem Coupled.of_mem_selection (hg : g.Coupled) {filter : Option Mask} {w : Mask}
    (hfilter : ∀ v ∈ filter, v.Formed) (h : g.selection filter = .ok w) {i : UInt8}
    (hi : i ∈ w.indices) : i < g.capacity ∧ ∃ x, g.get? i = some x := by
  have hmem : w.get i = true := (Mask.mem_indices (hg.bounded_selection hfilter h)).mp hi
  rw [Mask.get_eq, Bool.and_eq_true] at hmem
  obtain ⟨-, hbit⟩ := hmem
  have hmember : g.mask.get i = true := by
    rw [hg.clean.get_eq]
    exact (hg.selection_ok hfilter h).2 i.toNat hbit
  exact hg.of_get hmember

theorem selection_exportTo {filter : Option Mask} {w : Mask} (h : g.selection filter = .ok w) :
    w.exportTo g.capacity .empty = (.ok (), ⟨Block.zero.overwrite w.words⟩) :=
  if_pos (bits_selection h)

end

/-- **The mask and the slots agree.** Whatever program has run on a group, it has
as many slots as its mask has indices, those that it was made with; its mask is
clean; and below the capacity a bit is set exactly if the slot is occupied. So an
insertion that is not refused at once fills the slot, and a removal that has
emptied the slot clears the bit; every index that is listed, selected, put in or
taken out has a slot; and no index that is listed or selected has an empty one. -/
theorem mask_follows_slots (c : Capacity) (cs : List (Command α)) :
    let g := Outcome.run step (construct c).state cs
    (g.capacity = c.bits ∧ g.slots.length = c.bits.toNat ∧ g.mask.Clean ∧
      ∀ i : UInt8, i < g.capacity →
        (g.mask.get i = true ↔ ∃ x, g.slots[i.toNat]? = some (some x))) ∧
    (∀ i : UInt8, i < g.capacity → i.toNat < g.slots.length) ∧
    (∀ (i : UInt8) (x : α), i < g.capacity → g.mask.get i = false →
      ∃ m, g.mask.setBit i = (.ok (), m) ∧ g.insert i x = ⟨.ok (), g.place i (some x) m, []⟩) ∧
    (∀ (i : UInt8) (x : α), g.slots[i.toNat]? = some (some x) →
      ∃ m, (g.vacate i).mask.clearBit i = (.ok (), m) ∧
        g.remove i = ⟨.ok x, g.place i none m, []⟩) ∧
    ((∀ i ∈ g.mask.indices, i.toNat < g.slots.length) ∧
      g.entries.map Prod.fst = g.mask.indices) ∧
    ∀ (filter : Option Mask) (w : Mask), (∀ v ∈ filter, v.Formed) → g.selection filter = .ok w →
      (∃ wire, w.exportTo g.capacity .empty = (.ok (), wire)) ∧
      ∀ i ∈ w.indices, i.toNat < g.slots.length ∧ ∃ x, g.slots[i.toNat]? = some (some x) := by
  intro g
  obtain ⟨hcap, hg⟩ : g.CoupledAt c := run_coupledAt c cs
  refine ⟨⟨hcap, ?_, hg.clean, fun i hi => ?_⟩, fun i => hg.lt_length, fun i x hi hfree => ?_,
    fun i x hx => ?_, ⟨fun i hi => ?_, hg.indices_entries⟩,
    fun filter w hfilter hw => ⟨?_, fun i hi => ?_⟩⟩
  · exact hg.length_slots.trans (congrArg UInt8.toNat hcap)
  · rw [hg.get_iff hi, Option.isSome_iff_exists]
    exact exists_congr fun x => get?_eq_some_iff
  · obtain ⟨m, hset, heq, -⟩ := hg.insert_ok hi hfree x
    exact ⟨m, hset, heq⟩
  · obtain ⟨m, hclear, heq, -⟩ := hg.remove_ok (get?_eq_some_iff.mpr hx)
    exact ⟨m, hclear, heq⟩
  · exact hg.lt_length (hg.of_mem_indices hi).1
  · exact ⟨_, selection_exportTo hw⟩
  · obtain ⟨hlt, x, hx⟩ := hg.of_mem_selection hfilter hw hi
    exact ⟨hg.lt_length hlt, x, get?_eq_some_iff.mp hx⟩

/-- A group of 255 domains whose last one has been changed in place, while index 3
has been filled and emptied and a filter of the other capacity refused. -/
theorem mask_follows_slots_last :
    let cs : List (Command Clock.Domain) := [.insert 254 ⟨7#32⟩, .insert 3 ⟨1#32⟩,
      .insert 255 ⟨2#32⟩, .remove 3, .ask (.payload (some (Mask.empty .small))),
      .modify 254 fun _ => ⟨8#32⟩, .send]
    let g := Outcome.run step (construct .large).state cs
    (254 : UInt8) < g.capacity ∧ g.slots[254]? = some (some ⟨8#32⟩) ∧ g.mask.get 254 = true ∧
      (∃ m, (g.vacate 254).mask.clearBit 254 = (.ok (), m)) ∧
      (3 : UInt8) < g.capacity ∧ g.mask.get 3 = false ∧ (∃ m, g.mask.setBit 3 = (.ok (), m)) ∧
      254 ∈ g.mask.indices ∧ g.slots.length = 255 ∧
      g.selection none = .ok g.mask ∧
      (∃ wire, g.mask.exportTo g.capacity .empty = (.ok (), wire)) ∧
      g.selection (some (Mask.empty .large)) = .ok (Mask.empty .large) ∧
      ∃ wire, (Mask.empty .large).exportTo g.capacity .empty = (.ok (), wire) := by
  intro cs g
  obtain ⟨⟨-, hlen, -, hiff⟩, -, hins, hrem, -, hsel⟩ := mask_follows_slots .large cs
  have hslot : g.slots[254]? = some (some ⟨8#32⟩) := by decide +kernel
  have hlast : (254 : UInt8) < g.capacity := by decide +kernel
  have hcontains : g.containsAll (Mask.empty .large) = true := by decide +kernel
  have hempty : g.selection (some (Mask.empty .large)) = .ok (Mask.empty .large) :=
    by rw [selection, if_pos hcontains]
  have hthree : (3 : UInt8) < g.capacity := by decide +kernel
  have hfree : g.mask.get 3 = false := by decide +kernel
  obtain ⟨m, hset, -⟩ := hins 3 ⟨0#32⟩ hthree hfree
  obtain ⟨m', hclear, -⟩ := hrem 254 _ hslot
  exact ⟨hlast, hslot, (hiff 254 hlast).mpr ⟨_, hslot⟩, ⟨m', hclear⟩, hthree, hfree, ⟨m, hset⟩,
    by decide +kernel, hlen, rfl, (hsel none _ (fun _ hv => by cases hv) rfl).1, hempty,
    (hsel _ _ (fun v hv => Option.some.inj hv ▸ Mask.formed_empty .large) hempty).1⟩

end Group

end BoardObjects
