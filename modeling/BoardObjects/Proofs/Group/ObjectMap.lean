/-
# A group is a partial map from indices to objects

What a group means is its capacity and the objects at its indices. `ObjectMap` is
this meaning, with insertion, removal and change in place told on it, refusals
included. Every call on a coupled group does to the group what its namesake does to
the map (`Coupled.insert_conforms`, `Coupled.remove_conforms`,
`Coupled.objectMap_modify`), and every question is answered as the map would, though
some are answered by the slots and some by the mask.

A coupled group has no other content than its map and its flags
(`Coupled.eq_of_objectMap_eq`), so a call that changes the map at one index changes
nothing else.
-/
import BoardObjects.Proofs.Conformance
import BoardObjects.Proofs.Group.Payload
import BoardObjects.Proofs.Mask.Counting

namespace BoardObjects

/-- Objects at some of the indices below a capacity. -/
@[ext]
structure ObjectMap (α : Type) where
  capacity : UInt8
  lookup : ℕ → Option α
  lookup_beyond : ∀ i, capacity.toNat ≤ i → lookup i = none

namespace ObjectMap

variable {α : Type}

/-- The indices that have an object. -/
def domain (M : ObjectMap α) : Finset ℕ :=
  (Finset.range M.capacity.toNat).filter fun i => (M.lookup i).isSome = true

/-- The map with `x` at the index `i`, or with no object there. -/
def put (M : ObjectMap α) {i : ℕ} (h : i < M.capacity.toNat) (x : Option α) : ObjectMap α where
  capacity := M.capacity
  lookup j := if j = i then x else M.lookup j
  lookup_beyond j hj := by
    rw [if_neg (by omega)]
    exact M.lookup_beyond j hj

/-- The map with `x` at `i`, which has to lie below the capacity and to have no
object. -/
def insert (M : ObjectMap α) (i : ℕ) (x : α) : Except ErrorCode (Unit × ObjectMap α) :=
  if h : i < M.capacity.toNat then
    if (M.lookup i).isSome then .error .alreadyExists else .ok ((), M.put h (some x))
  else .error .invalidArgument

/-- The object at `i`, which has to lie below the capacity and to have one, and the
map without it. -/
def remove (M : ObjectMap α) (i : ℕ) : Except ErrorCode (α × ObjectMap α) :=
  if h : i < M.capacity.toNat then
    match M.lookup i with
    | none => .error .noEntry
    | some x => .ok (x, M.put h none)
  else .error .invalidArgument

/-- The map with the object at `i` changed, if there is one. -/
def modify (M : ObjectMap α) (i : ℕ) (f : α → α) : ObjectMap α where
  capacity := M.capacity
  lookup j := if j = i then (M.lookup j).map f else M.lookup j
  lookup_beyond j hj := by
    rw [M.lookup_beyond j hj]
    split <;> rfl

theorem mem_domain {M : ObjectMap α} {i : ℕ} : i ∈ M.domain ↔ (M.lookup i).isSome = true := by
  rw [domain, Finset.mem_filter, Finset.mem_range, and_iff_right_iff_imp]
  intro hsome
  by_contra hge
  rw [M.lookup_beyond i (Nat.le_of_not_lt hge)] at hsome
  cases hsome

/-- A map is known by the objects at the indices that are bytes. -/
theorem ext_byte {M N : ObjectMap α} (hc : M.capacity = N.capacity)
    (h : ∀ i : UInt8, M.lookup i.toNat = N.lookup i.toNat) : M = N := by
  refine ObjectMap.ext hc (funext fun i => ?_)
  have hsize : M.capacity.toNat < 256 := M.capacity.toNat_lt
  rcases Nat.lt_or_ge i M.capacity.toNat with hi | hi
  · have hn : (UInt8.ofNat i).toNat = i := UInt8.toNat_ofNat_of_lt' (hi.trans hsize)
    rw [← hn]
    exact h _
  · rw [M.lookup_beyond i hi, N.lookup_beyond i (hc ▸ hi)]

end ObjectMap

namespace Group

variable {α : Type}

def objectMap (g : Group α) : ObjectMap α where
  capacity := g.capacity
  lookup i := if i < g.mask.size then g.slots[i]?.join else none
  lookup_beyond _ hi := if_neg (Nat.not_lt.mpr hi)

/-- The group has the objects of the map and the given flags. -/
def Means (f : Flags) (g : Group α) (M : ObjectMap α) : Prop := g.objectMap = M ∧ g.flags = f

namespace Coupled

variable {g : Group α}

theorem lookup_eq (hg : g.Coupled) (i : UInt8) : g.objectMap.lookup i.toNat = g.get? i := by
  by_cases hi : i.toNat < g.mask.size
  · exact if_pos hi
  · have hnone : g.get? i = none := by
      rw [get?, List.getElem?_eq_none (by rw [hg.length_slots]; omega), Option.join_none]
    rw [hnone]
    exact if_neg hi

theorem members_eq (hg : g.Coupled) : g.mask.members = g.objectMap.domain := by
  refine Mask.members_eq_of_get (fun k hk => ?_) fun i => ?_
  · exact Finset.mem_range.mp (Finset.mem_filter.mp hk).1
  · rw [ObjectMap.mem_domain, hg.lookup_eq, hg.get_eq]

/-- A coupled group is its map and its flags. -/
theorem eq_of_objectMap_eq {h : Group α} (hg : g.Coupled) (hh : h.Coupled)
    (hmap : g.objectMap = h.objectMap) (hflags : g.flags = h.flags) : g = h := by
  have hc : g.mask.bits = h.mask.bits := congrArg ObjectMap.capacity hmap
  -- clean masks have no words out of use to differ in, so their members decide
  have hmask : g.mask = h.mask := by
    refine Mask.eq_of_indexSet_eq hg.clean hh.clean (IndexSet.ext hc ?_)
    show g.mask.members = h.mask.members
    rw [hg.members_eq, hh.members_eq, hmap]
  have hslots : g.slots = h.slots := by
    refine List.ext_getElem (by rw [hg.length_slots, hh.length_slots, hmask]) fun i hi hi' => ?_
    have hlookup : g.objectMap.lookup i = h.objectMap.lookup i := by rw [hmap]
    have hgi : g.objectMap.lookup i = g.slots[i]?.join := if_pos (hg.length_slots ▸ hi)
    have hhi : h.objectMap.lookup i = h.slots[i]?.join := if_pos (hh.length_slots ▸ hi')
    rw [hgi, hhi, List.getElem?_eq_getElem hi, List.getElem?_eq_getElem hi'] at hlookup
    exact hlookup
  obtain ⟨m, xs, f⟩ := g
  obtain ⟨m', ys, f'⟩ := h
  obtain rfl : m = m' := hmask
  obtain rfl : xs = ys := hslots
  obtain rfl : f = f' := hflags
  rfl

/-! ### Changing a group -/

/-- A slot and the bit of its index that change together change the map there. -/
theorem objectMap_place (hg : g.Coupled) {i : UInt8} (hi : i < g.capacity) {x : Option α} {m : Mask}
    (hc : m.bits = g.mask.bits) (hplaced : (g.place i x m).Coupled) :
    (g.place i x m).objectMap = g.objectMap.put (Mask.lt_bits_iff.mp hi) x := by
  refine ObjectMap.ext_byte hc fun j => ?_
  show (g.place i x m).objectMap.lookup j.toNat =
    if j.toNat = i.toNat then x else g.objectMap.lookup j.toNat
  rw [hplaced.lookup_eq, get?_place (hg.lt_length hi), hg.lookup_eq]
  exact if_congr UInt8.toNat_inj.symm rfl rfl

theorem insert_conforms (hg : g.Coupled) (i : UInt8) (x : α) :
    Outcome.Conforms (Means g.flags) g (g.insert i x) (g.objectMap.insert i.toNat x) := by
  rw [ObjectMap.insert]
  by_cases hi : i < g.capacity
  · rw [dif_pos (show i.toNat < g.objectMap.capacity.toNat from Mask.lt_bits_iff.mp hi), hg.lookup_eq]
    cases hm : g.mask.get i with
    | true =>
      rw [insert_occupied hi hm, if_pos ((hg.get_iff hi).mp hm)]
      exact Outcome.conforms_refused ..
    | false =>
      obtain ⟨m, -, heq, hc, hplaced⟩ := hg.insert_ok hi hm x
      have hfree : ¬ (g.get? i).isSome = true := fun h => by
        rw [(hg.get_iff hi).mpr h] at hm
        cases hm
      rw [heq, if_neg hfree]
      exact Outcome.conforms_done ⟨hg.objectMap_place hi hc hplaced, rfl⟩ _ _
  · rw [insert_beyond hi,
      dif_neg (show ¬ i.toNat < g.objectMap.capacity.toNat from fun h => hi (Mask.lt_bits_iff.mpr h))]
    exact Outcome.conforms_refused ..

theorem remove_conforms (hg : g.Coupled) (i : UInt8) :
    Outcome.Conforms (Means g.flags) g (g.remove i) (g.objectMap.remove i.toNat) := by
  rw [ObjectMap.remove]
  by_cases hi : i < g.capacity
  · rw [dif_pos (show i.toNat < g.objectMap.capacity.toNat from Mask.lt_bits_iff.mp hi), hg.lookup_eq]
    cases hx : g.get? i with
    | none =>
      rw [remove_vacant hi hx]
      exact Outcome.conforms_refused ..
    | some x =>
      obtain ⟨m, -, heq, hc, hplaced⟩ := hg.remove_ok hx
      rw [heq]
      exact Outcome.conforms_done ⟨hg.objectMap_place hi hc hplaced, rfl⟩ _ _
  · rw [remove_beyond hi,
      dif_neg (show ¬ i.toNat < g.objectMap.capacity.toNat from fun h => hi (Mask.lt_bits_iff.mpr h))]
    exact Outcome.conforms_refused ..

theorem objectMap_modify (hg : g.Coupled) (i : UInt8) (f : α → α) :
    (g.modify i f).objectMap = g.objectMap.modify i.toNat f := by
  have hm : (g.modify i f).Coupled := coupled_modify hg i f
  refine ObjectMap.ext_byte rfl fun j => ?_
  show (g.modify i f).objectMap.lookup j.toNat =
    if j.toNat = i.toNat then (g.objectMap.lookup j.toNat).map f else g.objectMap.lookup j.toNat
  rw [hm.lookup_eq, get?_modify, hg.lookup_eq]
  exact if_congr UInt8.toNat_inj.symm rfl rfl

/-! ### Reading a group -/

theorem mem_entries (hg : g.Coupled) {i : UInt8} {x : α} :
    (i, x) ∈ g.entries ↔ g.get? i = some x := by
  have hpick : g.entries = g.pick g.mask.indices := rfl
  rw [hpick, mem_pick, Mask.mem_indices hg.clean.bounded, and_iff_right_iff_imp]
  exact fun hx => (hg.of_get? hx).2

theorem pairwise_entries (hg : g.Coupled) : g.entries.Pairwise fun a b => a.1 < b.1 := by
  have hasc := Mask.pairwise_indices hg.clean.bounded
  rw [← hg.indices_entries] at hasc
  exact List.pairwise_map.mp hasc

theorem count_eq (hg : g.Coupled) : g.count = g.objectMap.domain.card := by
  rw [count, Mask.toNat_count hg.clean.bounded, hg.members_eq]

theorem isEmpty_iff (hg : g.Coupled) : g.isEmpty = true ↔ g.objectMap.domain = ∅ := by
  rw [isEmpty, Mask.isZero_iff hg.clean.bounded, hg.members_eq]

end Coupled

variable [FirmwareObject α]

/-- **A group refines a partial map.** In every group that a program leaves behind,
insertion, removal and change in place answer as they do on the map and leave the group
that means the map after them, with the flags of the group before; a refused one leaves the
group as it was. Slots, entries, count, emptiness and mask are those of the map, and two
groups with one map and the same flags are equal. -/
theorem calls_refine_map {g : Group α} (hg : g.Reachable) :
    let M := g.objectMap
    (∀ (i : UInt8) (x : α), Outcome.Conforms (Means g.flags) g (g.insert i x) (M.insert i.toNat x)) ∧
    (∀ i : UInt8, Outcome.Conforms (Means g.flags) g (g.remove i) (M.remove i.toNat)) ∧
    (∀ (i : UInt8) (f : α → α), (g.step (.modify i f)).answer = .modified (M.lookup i.toNat) ∧
      Means g.flags (g.step (.modify i f)).state (M.modify i.toNat f)) ∧
    (∀ i : UInt8, g.get? i = M.lookup i.toNat) ∧
    (∀ (i : UInt8) (x : α), (i, x) ∈ g.entries ↔ M.lookup i.toNat = some x) ∧
    (g.entries.Pairwise fun a b => a.1 < b.1) ∧
    g.count = M.domain.card ∧ (g.isEmpty = true ↔ M.domain = ∅) ∧
    g.capacity = M.capacity ∧ (M.capacity = 32 ∨ M.capacity = 255) ∧
    (∀ i : UInt8, g.mask.get i = true ↔ i.toNat ∈ M.domain) ∧
    ∀ h : Group α, h.Reachable → h.objectMap = M → h.flags = g.flags → h = g := by
  intro M
  have hc : g.Coupled := hg.coupled
  refine ⟨hc.insert_conforms, hc.remove_conforms, fun i f => ⟨?_, hc.objectMap_modify i f, rfl⟩,
    fun i => (hc.lookup_eq i).symm, fun i x => ?_, hc.pairwise_entries, hc.count_eq, hc.isEmpty_iff,
    rfl, hc.clean.formed.bits, fun i => ?_,
    fun h hh hmap hflags => hh.coupled.eq_of_objectMap_eq hc hmap hflags⟩
  · rw [hc.lookup_eq]
    rfl
  · rw [hc.mem_entries, hc.lookup_eq]
  · rw [← Mask.toNat_mem_members, hc.members_eq]

/-- A group of 255 objects with objects at its last index and at the end of its first
word, and with one that has been put behind that and taken out again. The last index
is taken, the one behind it is none, and the free one is filled. -/
theorem calls_refine_map_last :
    let a : Sample := ⟨1, [9], none⟩
    let b : Sample := ⟨2, [], some .ioError⟩
    let g : Group Sample := Outcome.run step (construct .large).state
      [.insert 254 b, .insert 31 b, .insert 32 a, .remove 32, .modify 254 fun _ => a]
    g.Reachable ∧ (g.insert 254 b).answer = .error .alreadyExists ∧
      (g.insert 255 b).answer = .error .invalidArgument ∧ (g.insert 255 b).state = g ∧
      (g.insert 32 b).answer = .ok () ∧ (g.remove 254).answer = .ok a ∧
      (g.remove 32).answer = .error .noEntry ∧ (31, b) ∈ g.entries ∧ g.count = 2 := by
  intro a b g
  have hg : g.Reachable := ⟨_, _, rfl⟩
  obtain ⟨hins, hrem, -, -, hent, -, hcount, -⟩ := calls_refine_map hg
  have hlast : g.objectMap.lookup 254 = some a := by decide +kernel
  have hfree : g.objectMap.lookup 32 = none := by decide +kernel
  have hsize : g.objectMap.capacity.toNat = 255 := by decide +kernel
  have hlt : ∀ i < 255, i < g.objectMap.capacity.toNat := fun _ hi => hsize ▸ hi
  have hlastIns : g.objectMap.insert 254 b = .error .alreadyExists := by
    rw [ObjectMap.insert, dif_pos (hlt 254 (by decide)), hlast]
    rfl
  have hbeyondIns : g.objectMap.insert 255 b = .error .invalidArgument := dif_neg (by rw [hsize]; decide)
  have hfreeIns : ∃ M, g.objectMap.insert 32 b = .ok ((), M) := by
    rw [ObjectMap.insert, dif_pos (hlt 32 (by decide)), hfree]
    exact ⟨_, rfl⟩
  have hlastRem : ∃ M, g.objectMap.remove 254 = .ok (a, M) := by
    rw [ObjectMap.remove, dif_pos (hlt 254 (by decide)), hlast]
    exact ⟨_, rfl⟩
  have hfreeRem : g.objectMap.remove 32 = .error .noEntry := by
    rw [ObjectMap.remove, dif_pos (hlt 32 (by decide)), hfree]
  obtain ⟨M, hM⟩ := hfreeIns
  obtain ⟨M', hM'⟩ := hlastRem
  refine ⟨hg, ?_, ?_, (hins 255 b).refused _ hbeyondIns, ?_, ?_, ?_, ?_, ?_⟩
  · exact (hins 254 b).answer.trans (congrArg (Except.map Prod.fst) hlastIns)
  · exact (hins 255 b).answer.trans (congrArg (Except.map Prod.fst) hbeyondIns)
  · exact (hins 32 b).answer.trans (congrArg (Except.map Prod.fst) hM)
  · exact (hrem 254).answer.trans (congrArg (Except.map Prod.fst) hM')
  · exact (hrem 32).answer.trans (congrArg (Except.map Prod.fst) hfreeRem)
  · exact (hent 31 b).mpr (by decide +kernel)
  · rw [hcount]
    decide +kernel

end Group

end BoardObjects
