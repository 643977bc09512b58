/-
# The firmware can read a payload

The firmware knows how long the body of each kind of object is. If the bodies that
are written have these lengths, it finds its way through a payload: the first 32
bytes give the wire mask, the group reads that as the mask that was selected, and
the bytes behind it fall apart into the records of the selected objects, ascending
by index, with nothing left over (`payload_readback`).

So the bytes decide what is meant. Two payloads with the same bytes, of whatever
groups, have the same indices and the same records (`payload_bytes_inj`).
-/
import BoardObjects.Proofs.Group.Payload
import BoardObjects.Proofs.Wire.Bytes

namespace BoardObjects

/-- Records are read back one by one, each as long as its kind says. -/
theorem Record.decode?_flatMap {len : UInt8 → ℕ} : ∀ {rs : List Record},
    (∀ r ∈ rs, r.body.length = len r.kind) → decode? len (rs.flatMap toBytes) = some rs
  | [], _ => by rw [List.flatMap_nil, decode?]
  | r :: rs, h => by
    obtain ⟨hr, hrest⟩ := List.forall_mem_cons.mp h
    rw [List.flatMap_cons, decode?_toBytes_append len r _ hr, decode?_flatMap hrest, Option.map_some]

namespace Group

variable {α : Type}

theorem parseMask_wire {g : Group α} {w : Mask} (hbits : w.bits = g.capacity) (hw : w.Bounded) :
    ∃ m, g.parseMask ⟨Block.zero.overwrite w.words⟩ = .ok m ∧ m.Clean ∧ (m == w) = true := by
  obtain ⟨c, hc⟩ := hw.formed.exists_capacity
  have hload := Mask.load_rewritten (Mask.formed_empty c) ⟨Block.zero.overwrite w.words⟩
  have hclean := Mask.clean_load (Mask.clean_empty c) ⟨Block.zero.overwrite w.words⟩
  have hloaded : ((Mask.empty c).load ⟨Block.zero.overwrite w.words⟩).bits = w.bits :=
    hload.bits_eq.trans hc.symm
  refine ⟨_, ?_, hclean, (Mask.beq_iff _ _).mpr ⟨hloaded, ?_⟩⟩
  · rw [parseMask, ← hbits, hc]
    exact Mask.create_load _ _
  · refine Words.ext_bit (hclean.formed.length_words_eq hw.formed hloaded) fun i =>
      (hload.bit i).trans ?_
    have hsize : (Mask.empty c).size = w.size := congrArg UInt8.toNat hc.symm
    show _ = w.bit i
    rw [bit_wire_eq hw.formed, hsize]
    by_cases hi : i < w.size
    · rw [decide_eq_true hi, Bool.and_true]
    · rw [hw.bit i (Nat.le_of_not_lt hi), Bool.false_and]

variable [BoardObject α]

/-- The records of the objects at the indices of `w`, ascending. -/
def records (g : Group α) (w : Mask) : List Record := (g.pick w.indices).map recordOf

/-- The body of every object at an index of `w` has the length that goes with its
kind. -/
def Framed (g : Group α) (w : Mask) (len : UInt8 → ℕ) : Prop :=
  ∀ i x, w.get i = true → g.get? i = some x →
    (BoardObject.body x).length = len (BoardObject.kind x)

variable {g : Group α} {filter : Option Mask} {w : Mask} {p : Payload} {len : UInt8 → ℕ}

theorem table_eq (g : Group α) (w : Mask) :
    g.table w.indices = (g.records w).flatMap Record.toBytes := by
  rw [table, records, List.flatMap_map]

/-- The records are those of the selected indices, none of them left out. -/
theorem Coupled.index_records (hg : g.Coupled) (hfilter : ∀ v ∈ filter, v.Formed)
    (hs : g.selection filter = .ok w) :
    (g.records w).map Record.index = w.indices := by
  have hfst : (g.records w).map Record.index = (g.pick w.indices).map Prod.fst := by
    rw [records, List.map_map]
    rfl
  rw [hfst]
  exact indices_pick fun i hi => (hg.of_mem_selection hfilter hs hi).2

theorem Framed.decode?_table (hlen : g.Framed w len) (hw : w.Bounded) :
    Record.decode? len (g.table w.indices) = some (g.records w) := by
  rw [table_eq]
  refine Record.decode?_flatMap fun r hr => ?_
  obtain ⟨⟨i, x⟩, he, rfl⟩ := List.mem_map.mp hr
  obtain ⟨hi, hx⟩ := mem_pick.mp he
  exact hlen i x ((Mask.mem_indices hw).mp hi) hx

theorem payload_readback (hg : g.Coupled) (hfilter : ∀ v ∈ filter, v.Formed)
    (hp : g.payload filter = .ok p) (hlen : g.Framed (filter.getD g.mask) len) :
    WireMask.ofBytes p.toBytes = .ok p.mask ∧
      (∀ i, p.mask.bit i = (filter.getD g.mask).bit i) ∧
      Record.decode? len (p.toBytes.drop WireMask.byteCount) =
        some (g.records (filter.getD g.mask)) := by
  obtain ⟨w, hs, -, rfl⟩ := payload_ok hp
  obtain rfl := selection_getD hs
  have hw : (filter.getD g.mask).Bounded := hg.bounded_selection hfilter hs
  refine ⟨WireMask.ofBytes_toBytes_append _ _, bit_wire_eq hw.formed, ?_⟩
  rw [Payload.toBytes, List.drop_left' (WireMask.length_toBytes _)]
  exact hlen.decode?_table hw

theorem payload_bytes_inj {β : Type} [BoardObject β] {h : Group β} {filter' : Option Mask}
    {q : Payload} (hg : g.Coupled) (hfilter : ∀ v ∈ filter, v.Formed)
    (hp : g.payload filter = .ok p) (hlen : g.Framed (filter.getD g.mask) len) (hh : h.Coupled)
    (hfilter' : ∀ v ∈ filter', v.Formed) (hq : h.payload filter' = .ok q)
    (hlen' : h.Framed (filter'.getD h.mask) len) (hbytes : p.toBytes = q.toBytes) :
    (filter.getD g.mask).members = (filter'.getD h.mask).members ∧
      g.records (filter.getD g.mask) = h.records (filter'.getD h.mask) := by
  obtain ⟨hpmask, hpbit, hprec⟩ := payload_readback hg hfilter hp hlen
  obtain ⟨hqmask, hqbit, hqrec⟩ := payload_readback hh hfilter' hq hlen'
  obtain ⟨w, hs, -⟩ := payload_ok hp
  obtain ⟨v, hs', -⟩ := payload_ok hq
  obtain rfl := selection_getD hs
  obtain rfl := selection_getD hs'
  have hmask : p.mask = q.mask := Except.ok.inj (hpmask.symm.trans (hbytes ▸ hqmask))
  constructor
  · ext i
    rw [(hg.bounded_selection hfilter hs).mem_members,
      (hh.bounded_selection hfilter' hs').mem_members, ← hpbit, ← hqbit, hmask]
  · rw [hbytes, hqrec] at hprec
    exact (Option.some.inj hprec).symm

/-- **The firmware reads a payload back.** Let every selected object write a body as long as
its kind says. Then the bytes of a payload begin with a wire mask that the group reads as a
mask equal to the selected one, and the rest are the records of the objects in the slots of
that mask, in order. So a payload with the same bytes, of this or another group, has
selected the same indices and carries the same records. -/
theorem payload_decodes (hg : g.Reachable) (hfilter : ∀ v ∈ filter, v.Formed)
    (hp : g.payload filter = .ok p) (hlen : g.Framed (filter.getD g.mask) len) :
    WireMask.ofBytes p.toBytes = .ok p.mask ∧
    (∃ m rs, g.parseMask p.mask = .ok m ∧ (m == filter.getD g.mask) = true ∧
      Record.decode? len (p.toBytes.drop WireMask.byteCount) = some rs ∧
      rs.map Record.index = m.indices ∧
      ∀ r ∈ rs, ∃ x, g.slots[r.index.toNat]? = some (some x) ∧
        r = ⟨BoardObject.kind x, r.index, BoardObject.body x⟩) ∧
    ∀ (β : Type) [BoardObject β] (h : Group β) (filter' : Option Mask) (q : Payload),
      h.Reachable → (∀ v ∈ filter', v.Formed) → h.payload filter' = .ok q →
      h.Framed (filter'.getD h.mask) len → p.toBytes = q.toBytes →
      (filter.getD g.mask).members = (filter'.getD h.mask).members ∧
        g.records (filter.getD g.mask) = h.records (filter'.getD h.mask) := by
  have hc : g.Coupled := hg.coupled
  obtain ⟨hmask, -, hrec⟩ := payload_readback hc hfilter hp hlen
  refine ⟨hmask, ?_, fun β _ h filter' q hh hfilter' hq hlen' hbytes =>
    payload_bytes_inj hc hfilter hp hlen hh.coupled hfilter' hq hlen' hbytes⟩
  obtain ⟨w, hs, -, rfl⟩ := payload_ok hp
  obtain rfl := selection_getD hs
  have hw := hc.bounded_selection hfilter hs
  obtain ⟨m, hm, hclean, hbeq⟩ := parseMask_wire (bits_selection hs) hw
  refine ⟨m, _, hm, hbeq, hrec, ?_, fun r hr => ?_⟩
  · rw [hc.index_records hfilter hs]
    exact (Mask.indices_congr hclean.bounded hw (Mask.members_eq_of_beq hbeq)).symm
  · obtain ⟨⟨i, x⟩, he, rfl⟩ := List.mem_map.mp hr
    exact ⟨x, get?_eq_some_iff.mp (mem_pick.mp he).2, rfl⟩

/-- Two of three objects of a group of 255 are read back from their payload, at both
ends of the mask and with bodies of different lengths; and another group, which has
these two only, sends the same bytes. -/
theorem payload_decodes_filtered :
    let a : Sample := ⟨7, [1, 2], none⟩
    let b : Sample := ⟨1, [9], none⟩
    let g : Group Sample := Outcome.run step (construct .large).state
      [.insert 254 b, .insert 31 ⟨1, [0], some .ioError⟩, .insert 3 a]
    let h : Group Sample := Outcome.run step (construct .large).state
      [.insert 3 a, .insert 254 b, .send]
    let v := (Mask.empty .large).load (.ofWords [8#32, 0#32, 0#32, 0#32, 0#32, 0#32, 0#32, 1#32 <<< 30])
    let len : UInt8 → ℕ := fun k => if k = 7 then 2 else 1
    ∃ p, g.Reachable ∧ v.Formed ∧ g.payload (some v) = .ok p ∧ g.Framed v len ∧ h.Reachable ∧
      h.payload none = .ok p ∧ h.Framed h.mask len ∧
      (∃ rs, Record.decode? len (p.toBytes.drop WireMask.byteCount) = some rs ∧
        rs.map Record.index = [3, 254]) ∧
      v.members = h.mask.members := by
  intro a b g h v len
  let p : Payload := ⟨⟨v.block⟩, [7, 3, 1, 2, 1, 254, 9]⟩
  have hg : g.Reachable := ⟨_, _, rfl⟩
  have hv : ∀ u ∈ some v, u.Formed := fun u hu =>
    Option.some.inj hu ▸ (Mask.clean_load (Mask.clean_empty .large) _).formed
  have hh : h.Reachable := ⟨_, _, rfl⟩
  have hp : g.payload (some v) = .ok p := by decide +kernel
  have hq : h.payload none = .ok p := by decide +kernel
  have hframed : ∀ k : Group Sample, (∀ i < 256, (k.slots[i]?.join).all
      (fun x => x.body.length == len x.kind) = true) → ∀ w, k.Framed w len := by
    intro k hk w i x _ hx
    have hx' := hk i.toNat i.toNat_lt
    rw [show k.slots[i.toNat]?.join = some x from hx] at hx'
    exact beq_iff_eq.mp hx'
  have hgl : ∀ w, g.Framed w len := hframed g (by decide +kernel)
  have hhl : ∀ w, h.Framed w len := hframed h (by decide +kernel)
  obtain ⟨-, ⟨m, rs, hm, -, hrs, hindex, -⟩, hinj⟩ := payload_decodes hg hv hp (hgl v)
  have hparsed : (g.parseMask p.mask).map Mask.indices = .ok [3, 254] := by decide +kernel
  rw [hm] at hparsed
  exact ⟨p, hg, hv v rfl, hp, hgl v, hh, hq, hhl h.mask, ⟨rs, hrs, hindex.trans (Except.ok.inj hparsed)⟩,
    (hinj Sample h none p hh (fun _ hu => by cases hu) hq (hhl h.mask) rfl).1⟩

end Group

end BoardObjects
