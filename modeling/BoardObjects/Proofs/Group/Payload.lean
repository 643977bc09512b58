/-
# What a payload says

A payload is written object by object into one list of bytes, and the first object
that cannot be written ends it. What has been written in front of an object does
not matter to it (`writeRecords_append`), so the objects in front of the first one
that fails give their records, and that one gives the error.

The indices are written in ascending order. So the error is the one of the failing
object with the least index (`payload_fault`), and without a failing object the
records are those of the selected objects, ascending and each once
(`payload_written`). The wire mask is made from the selected mask alone and has the
same indices (`bit_wire`).
-/
import BoardObjects.Proofs.Group.Coupling

namespace BoardObjects

namespace Group

variable {α : Type}

/-! ### Filters -/

/-- A clean filter is accepted if it has the group's capacity and names members
only; the mask of the group is. -/
theorem selection_eq {g : Group α} (hg : g.mask.Formed) {filter : Option Mask}
    (hw : (filter.getD g.mask).Clean) :
    g.selection filter =
      if (filter.getD g.mask).bits = g.capacity ∧ (filter.getD g.mask).members ⊆ g.mask.members
      then .ok (filter.getD g.mask) else .error .invalidArgument := by
  cases filter with
  | none => exact (if_pos ⟨rfl, Finset.Subset.refl _⟩).symm
  | some v =>
    have hv : v.Clean := hw
    have hsub : g.containsAll v = true ↔ v.bits = g.capacity ∧ v.members ⊆ g.mask.members := by
      rw [containsAll, Mask.isSubset_iff_members hv hg]
      exact Iff.rfl
    exact if_congr hsub rfl rfl

/-! ### The wire mask -/

/-- A mask and its wire mask have the same bits. -/
theorem bit_wire_eq {w : Mask} (hw : w.Formed) (i : ℕ) :
    (⟨Block.zero.overwrite w.words⟩ : WireMask).bit i = w.bit i := by
  refine (Mask.bit_exported hw .empty i).trans ?_
  by_cases hi : i < 32 * w.wordCount
  · rw [if_pos hi]
  · have hlen : 32 * w.words.length ≤ i := by
      rw [hw.length_words]
      omega
    have hz : WireMask.empty.bit i = false := Words.bit_replicate_zero 8 i
    rw [if_neg hi, hz, Mask.bit, Words.bit_of_length_le _ _ hlen]

theorem bit_wire {w : Mask} (hw : w.Clean) (i : ℕ) :
    (⟨Block.zero.overwrite w.words⟩ : WireMask).bit i = true ↔ i ∈ w.members := by
  rw [bit_wire_eq hw.formed, hw.mem_members]

theorem spare_wire {w : Mask} (hw : w.Formed) (k : ℕ) (hk : k < 8) (hle : w.wordCount ≤ k) :
    (Block.zero.overwrite w.words)[k] = 0#32 := by
  have hnone : w.words[k]? = none := List.getElem?_eq_none (hw.length_words ▸ hle)
  rw [Block.getElem_overwrite, List.getD_eq_getElem?_getD, hnone, Option.getD_none, Block.zero,
    Vector.getElem_replicate]

/-! ### Payloads of any objects -/

section

variable [FirmwareObject α] {g : Group α} {filter : Option Mask}

theorem payload_refused {e : ErrorCode} (hs : g.selection filter = .error e) :
    g.payload filter = .error e := by
  rw [payload, hs]

/-- Once the filter is accepted, only a record can fail. -/
theorem payload_of_selection {w : Mask} (hs : g.selection filter = .ok w) :
    g.payload filter = (g.writeRecords w.indices []).1.map fun _ =>
      ⟨⟨Block.zero.overwrite w.words⟩, (g.writeRecords w.indices []).2⟩ := by
  simp only [payload, hs, selection_exportTo hs]
  rcases g.writeRecords w.indices [] with ⟨_ | _, bs⟩ <;> rfl

end

variable [BoardObject α]

/-! ### Records -/

def recordOf (e : UInt8 × α) : Record := ⟨BoardObject.kind e.2, e.1, BoardObject.body e.2⟩

/-- There is an object at index `i`, and it can be written. -/
def Writable (g : Group α) (i : UInt8) : Prop :=
  ∃ x, g.get? i = some x ∧ BoardObject.fault x = none

def table (g : Group α) (is : List UInt8) : List UInt8 :=
  (g.pick is).flatMap fun e => (recordOf e).toBytes

variable {g : Group α}

theorem table_append (g : Group α) (is js : List UInt8) :
    g.table (is ++ js) = g.table is ++ g.table js := by
  rw [table, pick, List.filterMap_append, List.flatMap_append]
  rfl

theorem table_singleton {i : UInt8} {x : α} (hx : g.get? i = some x) :
    g.table [i] = (recordOf (i, x)).toBytes := by
  have hpick : g.pick [i] = [(i, x)] :=
    List.filterMap_cons_some (by rw [hx, Option.map_some])
  rw [table, hpick, List.flatMap_cons, List.flatMap_nil, List.append_nil]

theorem writeRecords_cons {i : UInt8} (hi : g.Writable i) (is bs : List UInt8) :
    g.writeRecords (i :: is) bs = g.writeRecords is (bs ++ g.table [i]) := by
  obtain ⟨x, hx, hfault⟩ := hi
  have hbytes : bs ++ [FirmwareObject.kind x, i] ++ BoardObject.body x = bs ++ g.table [i] := by
    rw [table_singleton hx, List.append_assoc]
    rfl
  rw [writeRecords, hx]
  simp only [BoardObject.write_ok hfault, hbytes]

/-- Objects that can be written are written, and the others after them. -/
theorem writeRecords_append (is js : List UInt8) (his : ∀ i ∈ is, g.Writable i) (bs : List UInt8) :
    g.writeRecords (is ++ js) bs = g.writeRecords js (bs ++ g.table is) := by
  induction is generalizing bs with
  | nil =>
    have hnil : g.table [] = [] := rfl
    rw [List.nil_append, hnil, List.append_nil]
  | cons i is ih =>
    obtain ⟨hi, hrest⟩ := List.forall_mem_cons.mp his
    have htable : g.table (i :: is) = g.table [i] ++ g.table is := g.table_append [i] is
    calc g.writeRecords (i :: is ++ js) bs
        = g.writeRecords (is ++ js) (bs ++ g.table [i]) := writeRecords_cons hi _ _
      _ = g.writeRecords js (bs ++ g.table [i] ++ g.table is) := ih hrest _
      _ = g.writeRecords js (bs ++ g.table (i :: is)) := by rw [htable, List.append_assoc]

theorem writeRecords_eq {is : List UInt8} (h : ∀ i ∈ is, g.Writable i) :
    g.writeRecords is [] = (.ok (), g.table is) := by
  have happ := writeRecords_append is [] h []
  rwa [List.append_nil] at happ

/-- The first object that cannot be written decides the error, whatever it and the
objects in front of it have written. -/
theorem writeRecords_fault {is js : List UInt8} {i : UInt8} {x : α} {e : ErrorCode}
    (his : ∀ j ∈ is, g.Writable j) (hx : g.get? i = some x) (he : BoardObject.fault x = some e) :
    (g.writeRecords (is ++ i :: js) []).1 = .error e := by
  rw [writeRecords_append is _ his, writeRecords, hx]
  simp only [BoardObject.write_fault he]

/-- Only objects that can be written are written to the end. -/
theorem writable_of_writeRecords {is bs : List UInt8} (h : (g.writeRecords is bs).1 = .ok ()) :
    ∀ i ∈ is, g.Writable i := by
  induction is generalizing bs with
  | nil => exact fun i hi => (List.not_mem_nil hi).elim
  | cons i is ih =>
    have hi : g.Writable i := by
      cases hx : g.get? i with
      | none =>
        rw [writeRecords, hx] at h
        cases h
      | some x =>
        cases hfault : BoardObject.fault x with
        | none => exact ⟨x, hx, hfault⟩
        | some e =>
          simp only [writeRecords, hx, BoardObject.write_fault hfault] at h
          cases h
    rw [writeRecords_cons hi] at h
    exact List.forall_mem_cons.mpr ⟨hi, ih h⟩

/-! ### Payloads -/

section

variable {filter : Option Mask} {w : Mask}

/-- A payload that has been made describes what was selected, and every object of it
could be written. -/
theorem payload_ok {p : Payload} (h : g.payload filter = .ok p) :
    ∃ w, g.selection filter = .ok w ∧ (∀ i ∈ w.indices, g.Writable i) ∧
      p = ⟨⟨Block.zero.overwrite w.words⟩, g.table w.indices⟩ := by
  cases hs : g.selection filter with
  | error e =>
    rw [payload_refused hs] at h
    cases h
  | ok w =>
    rw [payload_of_selection hs] at h
    cases hw : (g.writeRecords w.indices []).1 with
    | error e =>
      rw [hw] at h
      cases h
    | ok =>
      have hall : ∀ i ∈ w.indices, g.Writable i := writable_of_writeRecords hw
      rw [writeRecords_eq hall] at h
      exact ⟨w, rfl, hall, (Except.ok.inj h).symm⟩

/-- The failing object with the least index decides the error. -/
theorem payload_fault (hg : g.Coupled) (hfilter : ∀ v ∈ filter, v.Formed)
    (hs : g.selection filter = .ok w) {i : UInt8} {x : α}
    {e : ErrorCode} (hi : i ∈ w.indices) (hx : g.get? i = some x)
    (he : BoardObject.fault x = some e)
    (hleast : ∀ j ∈ w.indices, j < i → ∀ y, g.get? j = some y → BoardObject.fault y = none) :
    g.payload filter = .error e := by
  obtain ⟨is, js, heq⟩ := List.append_of_mem hi
  have hbefore : ∀ j ∈ is, j < i := fun j hj => by
    have hasc := Mask.pairwise_indices (hg.bounded_selection hfilter hs)
    rw [heq, List.pairwise_append] at hasc
    exact hasc.2.2 j hj i List.mem_cons_self
  have hwritable : ∀ j ∈ is, g.Writable j := fun j hj => by
    have hmem : j ∈ w.indices := heq ▸ List.mem_append_left _ hj
    obtain ⟨-, y, hy⟩ := hg.of_mem_selection hfilter hs hmem
    exact ⟨y, hy, hleast j hmem (hbefore j hj) y hy⟩
  have hfault : (g.writeRecords w.indices []).1 = .error e :=
    heq ▸ writeRecords_fault hwritable hx he
  rw [payload_of_selection hs, hfault]
  rfl

theorem payload_written (hg : g.Coupled) (hfilter : ∀ v ∈ filter, v.Formed)
    (hs : g.selection filter = .ok w)
    (h : ∀ i ∈ w.indices, ∀ x, g.get? i = some x → BoardObject.fault x = none) :
    g.payload filter = .ok ⟨⟨Block.zero.overwrite w.words⟩, g.table w.indices⟩ := by
  have hwritable : ∀ i ∈ w.indices, g.Writable i := fun i hi => by
    obtain ⟨-, x, hx⟩ := hg.of_mem_selection hfilter hs hi
    exact ⟨x, hx, h i hi x hx⟩
  have hall : g.writeRecords w.indices [] = (.ok (), g.table w.indices) := writeRecords_eq hwritable
  rw [payload_of_selection hs, hall]
  rfl

omit [BoardObject α] in
/-- The objects that are selected lie at the members of the selected mask, ascending
and each once. -/
theorem indices_selection (hg : g.Coupled) (hfilter : ∀ v ∈ filter, v.Formed)
    (hs : g.selection filter = .ok w) :
    (g.pick w.indices).map (fun e => e.1.toNat) = w.members.sort := by
  have hall : ∀ i ∈ w.indices, ∃ x, g.get? i = some x := fun i hi =>
    (hg.of_mem_selection hfilter hs hi).2
  have hfst : (g.pick w.indices).map (fun e => e.1.toNat) =
      ((g.pick w.indices).map Prod.fst).map UInt8.toNat := by
    rw [List.map_map]
    rfl
  rw [hfst, indices_pick hall]
  exact Mask.toNat_indices (hg.bounded_selection hfilter hs)

end

/-- **The outcome of a payload.** Let `S` be the indices that a filter asks for, or the
members without one. A filter of the other capacity or with an index that is no member is
refused. Otherwise the failing object with the least index decides the error; and if none
fails, the payload has a mask of the indices of `S`, without a word behind those in use,
and the records of the objects of `S`, ascending and each once. -/
theorem payload_outcome (hg : g.Reachable) {filter : Option Mask}
    (hf : ∀ w, filter = some w → w.Reachable) :
    let w := filter.getD g.mask
    let S := w.members
    (w.bits ≠ g.capacity ∨ ¬ S ⊆ g.mask.members → g.payload filter = .error .invalidArgument) ∧
    (w.bits = g.capacity → S ⊆ g.mask.members →
      (∀ i ∈ S, ∃ x, g.slots[i]? = some (some x)) ∧
      (∀ i ∈ S, ∀ x e, g.slots[i]? = some (some x) → BoardObject.fault x = some e →
        (∀ j ∈ S, j < i → ∀ y, g.slots[j]? = some (some y) → BoardObject.fault y = none) →
        g.payload filter = .error e) ∧
      ((∀ i ∈ S, ∀ x, g.slots[i]? = some (some x) → BoardObject.fault x = none) →
        ∃ p, g.payload filter = .ok p ∧ (∀ i, p.mask.bit i = true ↔ i ∈ S) ∧
          (∀ k, (h : k < 8) → g.mask.wordCount ≤ k → p.mask.block[k] = 0#32) ∧
          ∃ es : List (UInt8 × α), es.map (fun e => e.1.toNat) = S.sort ∧
            (∀ e ∈ es, g.slots[e.1.toNat]? = some (some e.2)) ∧
            p.table =
              es.flatMap fun e => [BoardObject.kind e.2, e.1] ++ BoardObject.body e.2)) := by
  intro w S
  have hcoupled : g.Coupled := hg.coupled
  have hw : w.Clean := by
    cases filter with
    | none => exact hcoupled.clean
    | some v => exact Mask.reachable_iff_clean.mp (hf v rfl)
  have hfilter : ∀ v ∈ filter, v.Formed := fun v hv =>
    (Mask.reachable_iff_clean.mp (hf v hv)).formed
  have hselection := selection_eq hcoupled.clean.formed hw
  refine ⟨fun h => payload_refused ?_, fun hbits hsub => ?_⟩
  · rw [hselection, if_neg]
    exact fun hc => h.elim (fun hne => hne hc.1) fun hns => hns hc.2
  have hs : g.selection filter = .ok w := hselection.trans (if_pos ⟨hbits, hsub⟩)
  refine ⟨fun i hi => ?_, fun i hi x e hx he hleast => ?_, fun hnone => ?_⟩
  · obtain ⟨i, hmem, rfl⟩ := Mask.exists_mem_indices hw.bounded hi
    obtain ⟨-, x, hx⟩ := hcoupled.of_mem_selection hfilter hs hmem
    exact ⟨x, get?_eq_some_iff.mp hx⟩
  · obtain ⟨i, hmem, rfl⟩ := Mask.exists_mem_indices hw.bounded hi
    refine payload_fault hcoupled hfilter hs hmem (get?_eq_some_iff.mpr hx) he
      fun j hj hji y hy => ?_
    exact hleast j.toNat (Mask.toNat_mem_of_mem_indices hw.bounded hj) (UInt8.lt_iff_toNat_lt.mp hji) y
      (get?_eq_some_iff.mp hy)
  · have hwritten := payload_written hcoupled hfilter hs fun i hi x hx =>
      hnone i.toNat (Mask.toNat_mem_of_mem_indices hw.bounded hi) x (get?_eq_some_iff.mp hx)
    refine ⟨_, hwritten, bit_wire hw, fun k hk hle => ?_, g.pick w.indices, ?_, fun e he => ?_,
      rfl⟩
    · have hcount : w.wordCount = g.mask.wordCount :=
        hw.formed.wordCount_eq hcoupled.clean.formed hbits
      exact spare_wire hw.formed k hk (hcount ▸ hle)
    · exact indices_selection hcoupled hfilter hs
    · exact get?_eq_some_iff.mp (mem_pick.mp he).2

/-- An object that is no more than what is written for it. -/
structure Sample where
  kind : UInt8
  body : List UInt8
  fault : Option ErrorCode
  deriving DecidableEq

instance : BoardObject Sample where
  kind := Sample.kind
  body := Sample.body
  fault := Sample.fault

/-- Two of three objects fail, and have written bytes by then. The one at 31 decides
for the whole group; a filter that leaves both out gets its payload; and one of the
other capacity is refused. -/
theorem payload_outcome_two_faults :
    let g : Group Sample := Outcome.run step (construct .large).state
      [.insert 254 ⟨1, [9], some .ioError⟩, .insert 31 ⟨2, [8, 8], some .noMemory⟩,
        .insert 3 ⟨7, [1, 2], none⟩]
    let v := (Mask.empty .large).load (.ofWords [8#32])
    g.Reachable ∧ v.Reachable ∧ (Mask.empty .small).Reachable ∧
      g.payload none = .error .noMemory ∧
      (∃ p, g.payload (some v) = .ok p ∧ p.mask.bit 3 = true ∧ p.mask.bit 31 = false) ∧
      g.payload (some (Mask.empty .small)) = .error .invalidArgument := by
  intro g v
  have hg : g.Reachable := ⟨_, _, rfl⟩
  have hv : v.Reachable :=
    Mask.reachable_iff_clean.mpr (Mask.clean_load (Mask.clean_empty .large) _)
  have hsmall : (Mask.empty .small).Reachable :=
    Mask.reachable_iff_clean.mpr (Mask.clean_empty .small)
  refine ⟨hg, hv, hsmall, ?_, ?_, ?_⟩
  · obtain ⟨-, hout⟩ := @payload_outcome Sample _ g hg none fun _ h => (by cases h)
    obtain ⟨-, hfault, -⟩ := hout rfl (Finset.Subset.refl _)
    have hmem : 31 ∈ g.mask.members := Mask.mem_members.mpr (by decide +kernel)
    have hslot : g.slots[31]? = some (some ⟨2, [8, 8], some .noMemory⟩) := by decide +kernel
    have hquiet : ∀ j < 31, g.slots[j]?.join.bind BoardObject.fault = none := by decide +kernel
    refine hfault 31 hmem _ _ hslot rfl fun j _ hj y hy => ?_
    have hj' := hquiet j hj
    rwa [hy] at hj'
  · obtain ⟨-, hout⟩ := @payload_outcome Sample _ g hg (some v) fun w h => Option.some.inj h ▸ hv
    have hone : v.members = {3} := by decide +kernel
    have hslot : g.slots[3]? = some (some ⟨7, [1, 2], none⟩) := by decide +kernel
    have hsub : v.members ⊆ g.mask.members := by
      rw [hone, Finset.singleton_subset_iff]
      exact Mask.mem_members.mpr (by decide +kernel)
    obtain ⟨-, -, hok⟩ := hout (by decide +kernel) hsub
    obtain ⟨p, hp, hbit, -⟩ := hok fun i hi x hx => by
      obtain rfl : i = 3 := Finset.mem_singleton.mp (hone ▸ hi)
      obtain rfl := Option.some.inj (Option.some.inj (hslot.symm.trans hx))
      rfl
    have hset : ∀ i, p.mask.bit i = true ↔ i ∈ ({3} : Finset ℕ) := fun i => hone ▸ hbit i
    have hthree : p.mask.bit 3 = true := (hset 3).mpr (by decide)
    have hnot : p.mask.bit 31 = false := by
      rw [← Bool.not_eq_true, hset]
      decide
    exact ⟨p, hp, hthree, hnot⟩
  · obtain ⟨hrefused, -⟩ :=
      @payload_outcome Sample _ g hg (some (Mask.empty .small)) fun w h =>
        Option.some.inj h ▸ hsmall
    exact hrefused (.inl (by decide +kernel))

end Group

end BoardObjects
