/-
# A group filled from a list of domains

Domains are put into a group one by one, from index 0 on, and nothing is taken back
when one of them is refused. None is: a group that holds a list of domains has
objects at the indices below the length of the list and no other, so the next index
is free, and it exists as long as fewer than 32 domains have been put in
(`Holds.insert_next`). By induction a whole list goes in (`Holds.populate`).

The mask of such a group has its lowest bits set, one for each domain, and every
question is answered from the list (`Holds.get_eq`, `Holds.count_eq`,
`Holds.entries_eq`). Nothing but the flags of the group is left open by the list
(`Holds.eq_domainsGroup`). A domain can always be written, so its payload can always be
made (`Holds.payload_eq`).
-/
import BoardObjects.Clock.State
import BoardObjects.Proofs.Group.Payload
import BoardObjects.Proofs.Mask.Counting

namespace BoardObjects

namespace Clock

/-- The group holds the domains of the list, in order from index 0, and no other. -/
structure Holds (g : Group Domain) (ds : List Word) : Prop where
  coupledAt : g.CoupledAt State.capacity
  get?_eq : ∀ i : UInt8, g.get? i = ds[i.toNat]?.map Domain.mk

/-- The payload of a list of domains: a set bit for each of them, and for each its
kind, its index and its word. -/
def domainsPayload (ds : List Word) : Payload where
  mask := .ofWords [BitVec.ofNat 32 (2 ^ ds.length - 1)]
  table := ds.zipIdx.flatMap fun d => [Domain.kind, UInt8.ofNat d.2] ++ d.1.toBytes

def domainsGroup (ds : List Word) (flags : Flags) : Group Domain where
  mask := (Mask.empty State.capacity).withWords [BitVec.ofNat 32 (2 ^ ds.length - 1)]
  slots := (List.range State.capacity.size).map fun k => ds[k]?.map Domain.mk
  flags := flags

namespace Holds

variable {g : Group Domain} {ds : List Word}

theorem empty : Holds (Group.empty State.capacity) [] := by
  refine ⟨⟨rfl, Group.coupled_empty _⟩, fun i => ?_⟩
  show (List.replicate State.capacity.size none)[i.toNat]?.join = none
  rw [List.getElem?_replicate]
  split <;> rfl

theorem coupled (h : Holds g ds) : g.Coupled := h.coupledAt.coupled

theorem formed (h : Holds g ds) : g.mask.Formed := h.coupled.clean.formed

theorem withFlags (h : Holds g ds) (f : Flags) : Holds { g with flags := f } ds :=
  ⟨⟨h.coupledAt.capacity, h.coupled⟩, h.get?_eq⟩

/-! ### Reading the group -/

theorem get_eq (h : Holds g ds) (i : UInt8) : g.mask.get i = decide (i.toNat < ds.length) := by
  rw [h.coupled.get_eq, h.get?_eq, Option.isSome_map, Bool.eq_iff_iff, isSome_getElem?,
    decide_eq_true_iff]

theorem size_eq (h : Holds g ds) : g.mask.size = State.capacity.size :=
  congrArg UInt8.toNat h.coupledAt.capacity

theorem length_le (h : Holds g ds) : ds.length ≤ g.mask.size := by
  by_contra hlt
  have hx : g.get? g.capacity = some ⟨ds[g.mask.size]⟩ := by
    rw [h.get?_eq]
    exact congrArg _ (List.getElem?_eq_getElem (Nat.lt_of_not_le hlt))
  exact UInt8.lt_irrefl _ (h.coupled.of_get? hx).1

theorem members_eq (h : Holds g ds) : g.mask.members = Finset.range ds.length := by
  refine Mask.members_eq_of_get (fun k hk => ?_) fun i => ?_
  · exact (Finset.mem_range.mp hk).trans_le h.length_le
  · rw [Finset.mem_range, h.get_eq, decide_eq_true_iff]

theorem count_eq (h : Holds g ds) : g.count = ds.length := by
  rw [Group.count, Mask.toNat_count h.coupled.clean.bounded, h.members_eq,
    Finset.card_range]

theorem isEmpty_iff (h : Holds g ds) : g.isEmpty = true ↔ ds = [] := by
  rw [Group.isEmpty, Mask.isZero_iff h.coupled.clean.bounded, h.members_eq,
    Finset.range_eq_empty_iff, List.length_eq_zero_iff]

/-! ### Filling the group -/

/-- The next domain finds its index free. -/
theorem insert_next (h : Holds g ds) (hlt : ds.length < State.capacity.size) (d : Word) :
    ∃ g', g.insert (UInt8.ofNat ds.length) ⟨d⟩ = ⟨.ok (), g', []⟩ ∧ Holds g' (ds ++ [d]) ∧
      g'.flags = g.flags := by
  have hlt' : ds.length < g.mask.size := h.size_eq ▸ hlt
  have hn : (UInt8.ofNat ds.length).toNat = ds.length := Mask.toNat_ofNat_of_lt hlt'
  have hi : UInt8.ofNat ds.length < g.capacity := Mask.lt_bits_iff.mpr (hn.symm ▸ hlt')
  have hfree : g.mask.get (UInt8.ofNat ds.length) = false := by
    rw [h.get_eq, hn, decide_eq_false_iff_not]
    exact Nat.lt_irrefl _
  obtain ⟨m, -, heq, hc, hplaced⟩ := h.coupled.insert_ok hi hfree ⟨d⟩
  refine ⟨_, heq, ⟨⟨hc.trans h.coupledAt.capacity, hplaced⟩, fun j => ?_⟩, rfl⟩
  rw [Group.get?_place (h.coupled.lt_length hi), h.get?_eq]
  by_cases hj : j = UInt8.ofNat ds.length
  · rw [if_pos hj, hj, hn, List.getElem?_concat_length]
    rfl
  · have hne : j.toNat ≠ ds.length := fun heq => hj (UInt8.toNat_inj.mp (heq.trans hn.symm))
    have hsame : (ds ++ [d])[j.toNat]? = ds[j.toNat]? := by grind
    rw [if_neg hj, hsame]

/-- A list of domains goes in behind those that are there, if there is room for it. -/
theorem populate (h : Holds g ds) (es : List Word)
    (hroom : ds.length + es.length ≤ State.capacity.size) :
    ∃ g', State.populate g ds.length es = ⟨.ok (), g', []⟩ ∧ Holds g' (ds ++ es) ∧
      g'.flags = g.flags := by
  -- what is there grows with each domain, so its length stays the next free index
  induction es generalizing g ds with
  | nil => exact ⟨g, rfl, (List.append_nil ds).symm ▸ h, rfl⟩
  | cons e es ih =>
    rw [List.length_cons] at hroom
    obtain ⟨g₁, hfirst, h₁, hflags₁⟩ := h.insert_next (by omega) e
    have hlen : (ds ++ [e]).length = ds.length + 1 := List.length_append
    obtain ⟨g₂, hrest, h₂, hflags₂⟩ := ih h₁ (by omega)
    rw [hlen] at hrest
    refine ⟨g₂, ?_, ?_, hflags₂.trans hflags₁⟩
    · simp only [State.populate, hfirst, hrest, List.append_nil]
    · rwa [List.append_assoc] at h₂

/-! ### The payload -/

theorem entries_eq (h : Holds g ds) :
    g.entries = ds.zipIdx.map fun d => (UInt8.ofNat d.2, ⟨d.1⟩) := by
  have hindices : g.mask.indices = ds.zipIdx.map fun d => UInt8.ofNat d.2 :=
    calc g.mask.indices
        = (g.mask.indices.map UInt8.toNat).map UInt8.ofNat := by
          rw [List.map_map]
          exact (List.map_id'' (fun _ => UInt8.ofNat_toNat) _).symm
      _ = (ds.zipIdx.map Prod.snd).map UInt8.ofNat := by
          rw [Mask.toNat_indices h.coupled.clean.bounded, h.members_eq,
            Finset.sort_range, List.range_eq_range', List.zipIdx_map_snd]
      _ = ds.zipIdx.map fun d => UInt8.ofNat d.2 := List.map_map
  rw [Group.entries, hindices, List.filterMap_map, ← List.filterMap_eq_map]
  refine List.filterMap_congr fun d hd => ?_
  have hget : ds[d.2]? = some d.1 := List.mem_zipIdx_iff_getElem?.mp hd
  have hlt : d.2 < ds.length := (List.getElem?_eq_some_iff.mp hget).1
  have hn : (UInt8.ofNat d.2).toNat = d.2 := Mask.toNat_ofNat_of_lt (hlt.trans_le h.length_le)
  show (g.get? (UInt8.ofNat d.2)).map _ = some _
  rw [h.get?_eq, hn, hget]
  rfl

/-- The only word of the mask has its lowest bits set. -/
theorem words_eq (h : Holds g ds) : g.mask.words = [BitVec.ofNat 32 (2 ^ ds.length - 1)] := by
  have hlen : g.mask.words.length = 1 :=
    h.formed.length_words.trans (h.formed.wordCount.trans (congrArg Words.wordCount h.size_eq))
  refine Words.ext_bit hlen fun i => ?_
  rcases Nat.lt_or_ge i 32 with hi | hi
  · rw [Words.bit_cons_of_lt _ _ _ hi, BitVec.getLsbD_ofNat, Nat.testBit_two_pow_sub_one,
      decide_eq_true hi, Bool.true_and, Bool.eq_iff_iff, decide_eq_true_iff, ← Finset.mem_range,
      ← h.members_eq]
    exact h.coupled.clean.mem_members.symm
  · rw [Words.bit_of_length_le _ _ (by rw [hlen]; omega), Words.bit_of_length_le _ _ hi]

/-- Nothing but its flags is left open by the domains that a group holds. -/
theorem eq_domainsGroup (h : Holds g ds) : g = domainsGroup ds g.flags := by
  have hmask : g.mask = (domainsGroup ds g.flags).mask := by
    have hlen : [BitVec.ofNat 32 (2 ^ ds.length - 1)].length =
        (Mask.empty State.capacity).words.length := rfl
    have hclean : (domainsGroup ds g.flags).mask.Clean :=
      (Mask.withWords_rewritten (Mask.formed_empty _) hlen).clean (Mask.clean_empty _) fun i hi =>
        Words.bit_of_length_le _ _ hi
    refine Mask.eq_of_words_eq h.coupled.clean hclean h.coupledAt.capacity ?_
    exact h.words_eq.trans ((Mask.formed_empty _).words_withWords rfl).symm
  have hslots : g.slots = (domainsGroup ds g.flags).slots := by
    have hlen : g.slots.length = State.capacity.size := h.coupled.length_slots.trans h.size_eq
    refine List.ext_getElem ?_ fun k hk hk' => ?_
    · rw [hlen, domainsGroup, List.length_map, List.length_range]
    · have hn : (UInt8.ofNat k).toNat = k := Mask.toNat_ofNat_of_lt (h.size_eq ▸ hlen ▸ hk)
      have hget : g.slots[k]?.join = ds[k]?.map Domain.mk := hn ▸ h.get?_eq (UInt8.ofNat k)
      rw [List.getElem?_eq_getElem hk] at hget
      simpa [domainsGroup] using hget
  exact congrArg₂ (Group.mk · · g.flags) hmask hslots

theorem payload_eq (h : Holds g ds) : g.payload none = .ok (domainsPayload ds) := by
  have hall : g.selection none = .ok g.mask := rfl
  have hwritten := Group.payload_written h.coupled (fun _ hv => by cases hv) hall fun _ _ _ _ => rfl
  have htable : g.table g.mask.indices = (domainsPayload ds).table :=
    calc g.table g.mask.indices
        = g.entries.flatMap fun e => (Group.recordOf e).toBytes := rfl
      _ = (domainsPayload ds).table := by
          rw [h.entries_eq, List.flatMap_map]
          rfl
  rw [hwritten, htable, h.words_eq]
  rfl

end Holds

end Clock

end BoardObjects
