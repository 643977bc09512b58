/-
# Filtering a payload and removing the others are the same

A payload needs of a group only the objects at the indices it describes
(`payload_congr`). The objects that a mask leaves can be described in two ways: with
a filter, or after every other object has been removed. The removals leave the
objects of the filter in their slots and no other (`removals`), so the mask of the
group that is left is the filter, and both ways give the same payload.

The filter is cut from the list of indices in order, so the records of the filtered
payload are records of the full one (`records_filter`).
-/
import BoardObjects.Proofs.Group.Decoding

namespace BoardObjects

namespace Group

variable {α : Type}

/-! ### The filter -/

/-- A filter of the group's capacity gives its members that are in the filter. -/
theorem filter_ok {g : Group α} (hg : g.Coupled) {w : Mask} (hwf : w.Formed)
    (hw : w.bits = g.capacity) :
    ∃ f, g.filter w = .ok f ∧ f.bits = g.capacity ∧ f.Clean ∧
      ∀ i, f.bit i = (g.mask.bit i && w.bit i) := by
  have hmask : g.mask.Formed := hg.clean.formed
  have hr := Mask.merge_rewritten .inter hmask hmask hwf rfl hw.symm
  have hf : g.filter w = .ok (Mask.merge .inter g.mask g.mask w) :=
    congrArg Change.accepted (Mask.combine_eq_merge .inter rfl hw.symm)
  refine ⟨_, hf, hr.bits_eq, hr.clean hg.clean fun i hi => ?_, hr.bit⟩
  show (g.mask.bit i && w.bit i) = false
  rw [hg.clean.bit_eq_false hi, Bool.false_and]

theorem get_of_filter {g : Group α} (hg : g.Coupled) {w f : Mask} (hw : w.bits = g.capacity)
    (hf : f.Clean) (hbit : ∀ i, f.bit i = (g.mask.bit i && w.bit i)) (i : UInt8) :
    f.get i = (g.mask.get i && w.get i) := by
  have hs : w.size = g.mask.size := congrArg UInt8.toNat hw
  rw [hf.get_eq, hbit, hg.clean.get_eq, w.get_eq]
  by_cases hi : i.toNat < w.size
  · rw [decide_eq_true hi, Bool.true_and]
  · rw [hg.clean.bit_eq_false (hs ▸ Nat.le_of_not_lt hi), Bool.false_and, Bool.false_and]

theorem selection_of_subset {g : Group α} (hg : g.Coupled) {f : Mask} (hf : f.Formed)
    (hbits : f.bits = g.capacity) (hsub : ∀ i, f.bit i = true → g.mask.bit i = true) :
    g.selection (some f) = .ok f :=
  if_pos ((Mask.isSubset_iff hf hg.clean.formed).mpr ⟨hbits, hsub⟩)

/-! ### Removals -/

/-- A removal, whether it is refused or not, leaves no object at its index and the
others where they are. -/
theorem get?_remove {g : Group α} (hg : g.Coupled) (i j : UInt8) :
    (g.remove i).state.get? j = if j = i then none else g.get? j := by
  cases hx : g.get? i with
  | none =>
    have hstate : (g.remove i).state = g := by
      by_cases hi : i < g.capacity
      · rw [remove_vacant hi hx]
        rfl
      · rw [remove_beyond hi]
        rfl
    rw [hstate]
    split
    · rename_i hj
      rw [hj, hx]
    · rfl
  | some x =>
    obtain ⟨m, -, heq, -⟩ := hg.remove_ok hx
    rw [heq]
    exact get?_place (hg.lt_length (hg.of_get? hx).1) none m j

section

variable [FirmwareObject α]

/-- Removals in any order leave the objects at the other indices. -/
theorem removals {c : Capacity} (is : List UInt8) {g : Group α} (hg : g.CoupledAt c) :
    (Outcome.run step g (is.map .remove)).CoupledAt c ∧
      ∀ j, (Outcome.run step g (is.map .remove)).get? j = if j ∈ is then none else g.get? j := by
  -- over all coupled groups, since every removal leaves another one
  induction is generalizing g with
  | nil => exact ⟨hg, fun j => (if_neg List.not_mem_nil).symm⟩
  | cons i is ih =>
    obtain ⟨hcoupled, hget⟩ := ih (coupledAt_remove hg i)
    refine ⟨hcoupled, fun j => (hget j).trans ?_⟩
    rw [get?_remove hg.coupled]
    by_cases hi : j = i
    · rw [if_pos hi, if_pos (List.mem_cons.mpr (.inl hi)), ite_self]
    · rw [if_neg hi]
      exact if_congr (by rw [List.mem_cons, or_iff_right hi]) rfl rfl

/-! ### Payloads of two groups -/

theorem writeRecords_congr {g h : Group α} {is : List UInt8} (hget : ∀ i ∈ is, g.get? i = h.get? i)
    (bs : List UInt8) : g.writeRecords is bs = h.writeRecords is bs := by
  induction is generalizing bs with
  | nil => rfl
  | cons i is ih =>
    obtain ⟨hi, hrest⟩ := List.forall_mem_cons.mp hget
    rw [writeRecords, writeRecords, hi]
    simp only [ih hrest]

theorem payload_congr {g h : Group α} {filter filter' : Option Mask} {w : Mask}
    (hg : g.selection filter = .ok w) (hh : h.selection filter' = .ok w)
    (hget : ∀ i ∈ w.indices, g.get? i = h.get? i) : g.payload filter = h.payload filter' := by
  rw [payload_of_selection hg, payload_of_selection hh, writeRecords_congr hget]

end

theorem pick_filter (g : Group α) (is : List UInt8) (q : UInt8 → Bool) :
    g.pick (is.filter q) = (g.pick is).filter fun e => q e.1 := by
  rw [pick, pick, List.filterMap_filter, List.filter_filterMap]
  congr 1
  funext i
  cases hq : q i <;> cases g.get? i <;> simp [Option.filter, hq]

variable [BoardObject α]

/-- The records at the indices of a filter are cut from all records in order. -/
theorem records_filter {g : Group α} {f w : Mask} (hf : f.indices = g.mask.indices.filter w.get) :
    g.records f = (g.records g.mask).filter fun r => w.get r.index := by
  rw [records, records, hf, pick_filter, List.filter_map]
  rfl

section

omit [BoardObject α]

variable [FirmwareObject α] {g : Group α} {f w : Mask} {is : List UInt8}

/-- After every member outside of `w` has been removed, the mask of the group is the
filter that `w` gives. -/
theorem mask_removals (hg : g.Coupled) (hbits : f.bits = g.capacity) (hf : f.Clean)
    (hget : ∀ i, f.get i = (g.mask.get i && w.get i))
    (his : ∀ i, i ∈ is ↔ g.mask.get i = true ∧ w.get i = false) :
    (Outcome.run step g (is.map .remove)).mask = f := by
  obtain ⟨c, hc⟩ := hg.exists_coupledAt
  obtain ⟨⟨hcap, hg'⟩, hleft⟩ := removals is hc
  have hsame := hcap.trans (hc.capacity.symm.trans hbits.symm)
  refine Mask.eq_of_get_eq hg'.clean hf hsame fun i => ?_
  rw [hg'.get_eq, hleft, hget]
  by_cases hi : i ∈ is
  · rw [if_pos hi, ((his i).mp hi).2, Bool.and_false, Option.isSome_none]
  · rw [if_neg hi, ← hg.get_eq]
    cases hm : g.mask.get i with
    | false => rw [Bool.false_and]
    | true =>
      have hkept : w.get i = true := by
        rw [← Bool.not_eq_false]
        exact fun hout => hi ((his i).mpr ⟨hm, hout⟩)
      rw [hkept, Bool.and_true]

/-- A filtered payload is the payload of the group without the other objects. -/
theorem payload_removals (hg : g.Coupled) (hbits : f.bits = g.capacity) (hf : f.Clean)
    (hget : ∀ i, f.get i = (g.mask.get i && w.get i)) (hs : g.selection (some f) = .ok f)
    (his : ∀ i, i ∈ is ↔ g.mask.get i = true ∧ w.get i = false) :
    g.payload (some f) = (Outcome.run step g (is.map .remove)).payload none := by
  have hmask := mask_removals hg hbits hf hget his
  obtain ⟨c, hc⟩ := hg.exists_coupledAt
  obtain ⟨-, hleft⟩ := removals is hc
  refine payload_congr hs (congrArg Except.ok hmask) fun i hi => ?_
  have hmem := (Mask.mem_indices hf.bounded).mp hi
  rw [hget, Bool.and_eq_true] at hmem
  have hkept : i ∉ is := fun hout => by
    rw [((his i).mp hout).2] at hmem
    cases hmem.2
  rw [hleft, if_neg hkept]

end

/-- Where every object can be written, so can those of a filter. -/
theorem payload_filtered {g : Group α} {f w : Mask} (hs : g.selection (some f) = .ok f)
    (hf : f.indices = g.mask.indices.filter w.get) {p : Payload} (hp : g.payload none = .ok p) :
    p = ⟨⟨Block.zero.overwrite g.mask.words⟩, g.table g.mask.indices⟩ ∧
      g.payload (some f) = .ok ⟨⟨Block.zero.overwrite f.words⟩, g.table f.indices⟩ := by
  obtain ⟨m, hm, hall, rfl⟩ := payload_ok hp
  obtain rfl : g.mask = m := Except.ok.inj hm
  have hwritable : ∀ i ∈ f.indices, g.Writable i := fun i hi =>
    hall i (List.mem_of_mem_filter (hf ▸ hi))
  refine ⟨rfl, ?_⟩
  rw [payload_of_selection hs, writeRecords_eq hwritable]
  rfl

/-- **Filtering and removing agree.** A mask of the group's capacity leaves some of
its members. The payload that is filtered by them is the payload of the group after
every other member has been removed, in any order, the same error included. And when
the payload of all objects can be made, the filtered one can, and its records are
those of the full payload whose index is in the mask, in their order; so the firmware
reads from it what it would keep of the full one. -/
theorem filter_eq_removals {g : Group α} (hg : g.Reachable) {w : Mask} (hwf : w.Formed)
    (hw : w.bits = g.capacity) {is : List UInt8}
    (his : ∀ i, i ∈ is ↔ g.mask.get i = true ∧ w.get i = false) :
    ∃ f, g.filter w = .ok f ∧
      g.payload (some f) = (Outcome.run step g (is.map .remove)).payload none ∧
      ∀ p, g.payload none = .ok p → ∃ q, g.payload (some f) = .ok q ∧
        (∀ i : UInt8, q.mask.bit i.toNat = (p.mask.bit i.toNat && w.get i)) ∧
        ∃ rs : List Record, p.table = rs.flatMap Record.toBytes ∧
          rs.map Record.index = g.mask.indices ∧
          q.table = (rs.filter fun r => w.get r.index).flatMap Record.toBytes ∧
          ∀ len, g.Framed g.mask len → Record.decode? len p.table = some rs ∧
            Record.decode? len q.table = some (rs.filter fun r => w.get r.index) := by
  have hc : g.Coupled := hg.coupled
  obtain ⟨f, hf, hbits, hclean, hbit⟩ := filter_ok hc hwf hw
  have hget : ∀ i, f.get i = (g.mask.get i && w.get i) := get_of_filter hc hw hclean hbit
  have hs : g.selection (some f) = .ok f := 
    selection_of_subset hc hclean.formed hbits fun i hi => by
      rw [hbit, Bool.and_eq_true] at hi
      exact hi.1
  have hindices : f.indices = g.mask.indices.filter w.get :=
    Mask.indices_filter hclean.bounded hc.clean.bounded hget
  refine ⟨f, hf, payload_removals hc hbits hclean hget hs his, fun p hp => ?_⟩
  obtain ⟨rfl, hq⟩ := payload_filtered hs hindices hp
  have hall : g.selection none = .ok g.mask := rfl
  refine ⟨_, hq, fun i => ?_, g.records g.mask, table_eq g g.mask, ?_, ?_,
    fun len hlen => ⟨hlen.decode?_table hc.clean.bounded, ?_⟩⟩
  · rw [bit_wire_eq hclean.formed, bit_wire_eq hc.clean.formed, ← hclean.get_eq, ← hc.clean.get_eq, hget]
  · exact hc.index_records (fun _ hv => by cases hv) hall
  · rw [← records_filter hindices]
    exact table_eq g f
  · have hlen' : g.Framed f len := fun i x hi hx => by
      rw [hget, Bool.and_eq_true] at hi
      exact hlen i x hi.1 hx
    rw [← records_filter hindices]
    exact hlen'.decode?_table hclean.bounded

/-- Of three objects, two are removed in descending order, or left out by a mask that
also has an index without an object. -/
theorem filter_eq_removals_last :
    let g : Group Sample := Outcome.run step (construct .large).state
      [.insert 254 ⟨1, [9], none⟩, .insert 31 ⟨2, [], none⟩, .insert 3 ⟨7, [1, 2], none⟩]
    let w := (Mask.empty .large).load
      (.ofWords [0#32, 0#32, 0#32, 0#32, 0#32, 0#32, 1#32, 1#32 <<< 30])
    g.Reachable ∧ w.Formed ∧ w.bits = g.capacity ∧
      (∀ i, i ∈ [31, 3] ↔ g.mask.get i = true ∧ w.get i = false) ∧
      (∃ p, g.payload none = .ok p) ∧
      ∃ f q, g.filter w = .ok f ∧ g.payload (some f) = .ok q ∧
        (Outcome.run step g [.remove 31, .remove 3]).payload none = .ok q ∧
        q.mask.bit 254 = true ∧ q.mask.bit 3 = false := by
  intro g w
  have hg : g.Reachable := ⟨_, _, rfl⟩
  have hwf : w.Formed := (Mask.clean_load (Mask.clean_empty .large) _).formed
  have hw : w.bits = g.capacity := by decide +kernel
  have hlist : g.mask.indices = [3, 31, 254] := by decide +kernel
  have hlast : w.get 254 = true := by decide +kernel
  have his : ∀ i, i ∈ [31, 3] ↔ g.mask.get i = true ∧ w.get i = false := fun i => by
    rw [← Mask.mem_indices hg.coupled.clean.bounded, hlist, List.mem_pair]
    constructor
    · rintro (rfl | rfl)
      · exact ⟨by decide, by decide +kernel⟩
      · exact ⟨by decide, by decide +kernel⟩
    · rintro ⟨hi, hout⟩
      obtain rfl | hi := List.mem_cons.mp hi
      · exact .inr rfl
      · obtain rfl | rfl := List.mem_pair.mp hi
        · exact .inl rfl
        · rw [hlast] at hout
          cases hout
  obtain ⟨f, hf, heq, hall⟩ := filter_eq_removals hg hwf hw his
  have hp : g.payload none =
      .ok ⟨.ofWords [0x80000008#32, 0#32, 0#32, 0#32, 0#32, 0#32, 0#32, 1#32 <<< 30],
        [7, 3, 1, 2, 2, 31, 1, 254, 9]⟩ := by decide +kernel
  obtain ⟨q, hq, hbit, -⟩ := hall _ hp
  refine ⟨hg, hwf, hw, his, ⟨_, hp⟩, f, q, hf, hq, heq.symm.trans hq, ?_, ?_⟩
  · exact (hbit 254).trans (by decide +kernel)
  · exact (hbit 3).trans (by decide +kernel)

end Group

end BoardObjects
