/-
# A group does not remember how it came about

Two groups that give the same objects are the same but for their flags
(`CoupledAt.eq_of_get?`): no bit is left over in the mask and no slot has anything else in
it. And the flags are not read when a payload is made (`payload_withFlags`).

What a program leaves at an index are the commands at that index, one after the other
(`get?_run`), and a removal undoes whatever has been done at its index. So a program that
ends, at each index, with the insertion that a list of objects has there, or with a removal
or nothing where it has none, leaves exactly the objects of that list
(`Assembles.get?_run`), in whatever order, and whatever has come and gone meanwhile.
-/
import BoardObjects.Proofs.Group.Filtering
import BoardObjects.Proofs.Group.ObjectMap

namespace BoardObjects

namespace Group

variable {α : Type}

/-! ### Groups with the same objects -/

def withFlags (g : Group α) (f : Flags) : Group α := { g with flags := f }

/-- There are objects below the capacity only. -/
theorem CoupledAt.lt_bits {c : Capacity} {g : Group α} (hg : g.CoupledAt c) {i : UInt8} {x : α}
    (hx : g.get? i = some x) : i < c.bits := by
  rw [← hg.capacity]
  exact (hg.coupled.of_get? hx).1

/-- Coupled groups of one capacity that give the same objects differ in their flags
only. -/
theorem CoupledAt.eq_of_get? {c : Capacity} {g h : Group α} (hg : g.CoupledAt c)
    (hh : h.CoupledAt c) (hget : ∀ i, i < c.bits → g.get? i = h.get? i) :
    g = h.withFlags g.flags := by
  have hh' : (h.withFlags g.flags).Coupled := hh.coupled
  refine hg.coupled.eq_of_objectMap_eq hh' ?_ rfl
  refine ObjectMap.ext_byte (hg.capacity.trans hh.capacity.symm) fun i => ?_
  rw [hg.coupled.lookup_eq, hh'.lookup_eq]
  show g.get? i = h.get? i
  by_cases hi : i < c.bits
  · exact hget i hi
  · exact Option.ext fun x => iff_of_false (fun hx => hi (hg.lt_bits hx)) fun hx => hi (hh.lt_bits hx)

/-! ### Commands at an index -/

def Command.index? : Command α → Option UInt8
  | .insert i _ => some i
  | .remove i => some i
  | .modify i _ => some i
  | .send => none
  | .ask _ => none

/-- What a command leaves in the slot that it is about. -/
def Command.onSlot : Command α → Option α → Option α
  | .insert _ x, o => o.or (some x)
  | .remove _, _ => none
  | .modify _ f, o => o.map f
  | .send, o => o
  | .ask _, o => o

/-- What commands about a slot leave in it, one after the other. -/
def slotAfter (ds : List (Command α)) (o : Option α) : Option α :=
  ds.foldl (fun o d => d.onSlot o) o

theorem slotAfter_append (ds ds' : List (Command α)) (o : Option α) :
    slotAfter (ds ++ ds') o = slotAfter ds' (slotAfter ds o) := List.foldl_append

def commandsAt (i : UInt8) (cs : List (Command α)) : List (Command α) :=
  cs.filter fun d => d.index? = some i

theorem commandsAt_cons (i : UInt8) (d : Command α) (cs : List (Command α)) :
    commandsAt i (d :: cs) = if d.index? = some i then d :: commandsAt i cs else commandsAt i cs := by
  rw [commandsAt, List.filter_cons]
  simp only [decide_eq_true_eq]
  rfl

/-- A free slot takes the first object that is offered, an occupied one none. -/
theorem slotAfter_insert (es : List (UInt8 × α)) (o : Option α) :
    slotAfter (es.map fun e => .insert e.1 e.2) o = o.or (es.head?.map Prod.snd) := by
  induction es generalizing o with
  | nil => exact Option.or_none.symm
  | cons e es ih =>
    show slotAfter (es.map fun e => .insert e.1 e.2) (o.or (some e.2)) = o.or (some e.2)
    rw [ih, Option.or_assoc, Option.some_or]

/-- A removal leaves nothing of what has been done before it. -/
theorem slotAfter_removed {i : UInt8} {ds : List (Command α)}
    (h : ∀ d ∈ ds.getLast?, d = .remove i) : slotAfter ds none = none := by
  rcases List.eq_nil_or_concat' ds with rfl | ⟨init, d, rfl⟩
  · rfl
  · obtain rfl : d = .remove i := h d (by simp)
    rw [slotAfter_append]
    rfl

/-- An insertion at an index that the group has fills a free slot, and leaves the other
objects where they are. -/
theorem get?_insert {g : Group α} (hg : g.Coupled) {i : UInt8} (hi : i < g.capacity) (x : α)
    (j : UInt8) :
    (g.insert i x).state.get? j = if j = i then (g.get? j).or (some x) else g.get? j := by
  have hslot : g.mask.get i = (g.get? i).isSome := hg.get_eq i
  cases hm : g.mask.get i with
  | true =>
    obtain ⟨y, hy⟩ := Option.isSome_iff_exists.mp (hslot.symm.trans hm)
    rw [insert_occupied hi hm]
    show g.get? j = _
    split
    · rename_i hji
      rw [hji, hy, Option.some_or]
    · rfl
  | false =>
    obtain ⟨m, -, heq, -⟩ := hg.insert_ok hi hm x
    have hfree : g.get? i = none := Option.not_isSome_iff_eq_none.mp (by rw [← hslot, hm]; decide)
    rw [heq]
    show (g.place i (some x) m).get? j = _
    rw [get?_place (hg.lt_length hi)]
    split
    · rename_i hji
      rw [hji, hfree, Option.none_or]
    · rfl

variable [FirmwareObject α]

theorem payload_withFlags (g : Group α) (f : Flags) (filter : Option Mask) :
    (g.withFlags f).payload filter = g.payload filter := by
  have hs : (g.withFlags f).selection filter = g.selection filter := by cases filter <;> rfl
  cases hw : g.selection filter with
  | error e => rw [payload_refused hw, payload_refused (hs.trans hw)]
  | ok w => exact payload_congr (hs.trans hw) hw fun _ _ => rfl

/-- A step does to a slot what its command does there, if it is about that slot. -/
theorem get?_step {g : Group α} (hg : g.Coupled) {i : UInt8} (hi : i < g.capacity) (d : Command α) :
    (g.step d).state.get? i = if d.index? = some i then d.onSlot (g.get? i) else g.get? i := by
  cases d with
  | insert j x =>
    simp only [Command.index?, Option.some.injEq, Command.onSlot, eq_comm (a := j)]
    by_cases hj : j < g.capacity
    · exact get?_insert hg hj x i
    · have hne : i ≠ j := fun h => hj (h ▸ hi)
      rw [if_neg hne]
      show (g.insert j x).state.get? i = _
      rw [insert_beyond hj]
      rfl
  | remove j =>
    simp only [Command.index?, Option.some.injEq, Command.onSlot, eq_comm (a := j)]
    exact get?_remove hg j i
  | modify j f =>
    simp only [Command.index?, Option.some.injEq, Command.onSlot, eq_comm (a := j)]
    exact get?_modify g j f i
  | send =>
    show g.send.state.get? i = g.get? i
    unfold send
    split <;> rfl
  | ask q => rfl

theorem get?_run {c : Capacity} {i : UInt8} (hi : i < c.bits) (cs : List (Command α)) {g : Group α}
    (hg : g.CoupledAt c) :
    (Outcome.run step g cs).get? i = slotAfter (commandsAt i cs) (g.get? i) := by
  induction cs generalizing g with
  | nil => rfl
  | cons d cs ih =>
    have hcap : i < g.capacity := by rwa [hg.capacity]
    show (Outcome.run step (g.step d).state cs).get? i = _
    rw [ih (coupledAt_step g d hg), get?_step hg.coupled hcap, commandsAt_cons]
    split <;> rfl

/-! ### Programs that leave given objects -/

/-- At every index, what the program does there before the insertion of the object
that `es` has there, if it has one, is nothing or ends with a removal. -/
def Assembles (es : List (UInt8 × α)) (cs : List (Command α)) : Prop :=
  ∀ i, ∃ before : List (Command α), (∀ d ∈ before.getLast?, d = .remove i) ∧
    commandsAt i cs =
      before ++ (es.filter fun e => e.1 = i).map fun e => .insert e.1 e.2

omit [FirmwareObject α] in
theorem assembles_insert (es : List (UInt8 × α)) :
    Assembles es (es.map fun e => .insert e.1 e.2) := by
  refine fun i => ⟨[], fun d hd => (by cases hd), ?_⟩
  rw [commandsAt, List.filter_map, List.nil_append]
  simp only [Function.comp_def, Command.index?, Option.some.injEq]

omit [FirmwareObject α] in
/-- Objects at different indices are found by their index. -/
theorem find?_index_eq_some_iff {es : List (UInt8 × α)} (hes : (es.map Prod.fst).Nodup) {i : UInt8}
    {x : α} : (es.find? fun e => e.1 = i).map Prod.snd = some x ↔ (i, x) ∈ es := by
  constructor
  · intro h
    obtain ⟨e, he, rfl⟩ := Option.map_eq_some_iff.mp h
    have hi : e.1 = i := by simpa using List.find?_some he
    rw [← hi]
    exact List.mem_of_find?_eq_some he
  · intro hmem
    cases hf : es.find? fun e => e.1 = i with
    | none => exact absurd (List.find?_eq_none.mp hf _ hmem) (by simp)
    | some e =>
      have hi : e.1 = i := by simpa using List.find?_some hf
      have he : e = (i, x) := List.inj_on_of_nodup_map hes (List.mem_of_find?_eq_some hf) hmem hi
      rw [he, Option.map_some]

/-- A program that assembles objects leaves them, and no other. -/
theorem Assembles.get?_run {c : Capacity} {es : List (UInt8 × α)} {cs : List (Command α)}
    (h : Assembles es cs) (hes : (es.map Prod.fst).Nodup) {i : UInt8} (hi : i < c.bits) {x : α} :
    (Outcome.run step (construct c).state cs).get? i = some x ↔ (i, x) ∈ es := by
  obtain ⟨before, hbefore, hcs⟩ := h i
  have hslot : (Outcome.run step (construct c).state cs).get? i =
      slotAfter (commandsAt i cs) ((empty c).get? i) := Group.get?_run hi cs ⟨rfl, coupled_empty c⟩
  rw [hslot, hcs, get?_empty, slotAfter_append, slotAfter_removed hbefore, slotAfter_insert,
    Option.none_or, List.head?_filter, find?_index_eq_some_iff hes]

/-- **A group does not remember how it came about.** Groups of one capacity that give the
same objects, after whatever programs, have the same mask and slots, answer alike, and make
the same payload or fail to for the same cause. So objects may be inserted in any order,
and others may come and go in between: where in the end every index has been left to its
object, or to none, the payload is the one of inserting the objects in turn. -/
theorem history_forgotten (c : Capacity) :
    (∀ cs ds : List (Command α),
      let g := Outcome.run step (construct c).state cs
      let h := Outcome.run step (construct c).state ds
      (∀ i, i < c.bits → g.get? i = h.get? i) →
        g.mask = h.mask ∧ g.slots = h.slots ∧ g.count = h.count ∧ g.entries = h.entries ∧
        (∀ w, g.containsAll w = h.containsAll w) ∧ (∀ w, g.filter w = h.filter w) ∧
        ∀ filter, g.payload filter = h.payload filter) ∧
    ∀ es : List (UInt8 × α), (es.map Prod.fst).Nodup → (∀ e ∈ es, e.1 < c.bits) →
      let g := Outcome.run step (construct c).state (es.map fun e => .insert e.1 e.2)
      (∀ i x, g.get? i = some x ↔ (i, x) ∈ es) ∧
      ∀ es' cs, es'.Perm es → Assembles es' cs →
        ∀ filter, (Outcome.run step (construct c).state cs).payload filter = g.payload filter := by
  constructor
  · intro cs ds g h hget
    obtain ⟨f, hgh⟩ : ∃ f, g = h.withFlags f :=
      ⟨_, (run_coupledAt c cs).eq_of_get? (run_coupledAt c ds) hget⟩
    rw [hgh]
    exact ⟨rfl, rfl, rfl, rfl, fun _ => rfl, fun _ => rfl, h.payload_withFlags f⟩
  · intro es hes hin g
    have hg : g.CoupledAt c := run_coupledAt c _
    have hget : ∀ i x, i < c.bits → (g.get? i = some x ↔ (i, x) ∈ es) := fun i x hi =>
      (assembles_insert es).get?_run hes hi
    refine ⟨fun i x => ?_, fun es' cs hperm hcs filter => ?_⟩
    · by_cases hi : i < c.bits
      · exact hget i x hi
      · exact iff_of_false (fun hx => hi (hg.lt_bits hx)) fun hmem => hi (hin _ hmem)
    · have hes' : (es'.map Prod.fst).Nodup := (hperm.map Prod.fst).nodup_iff.mpr hes
      have hsame : ∀ i, i < c.bits →
          (Outcome.run step (construct c).state cs).get? i = g.get? i := fun i hi =>
        Option.ext fun x => by rw [hcs.get?_run hes' hi, hget i x hi, hperm.mem_iff]
      obtain ⟨f, hgh⟩ : ∃ f, Outcome.run step (construct c).state cs = g.withFlags f :=
        ⟨_, (run_coupledAt c cs).eq_of_get? hg hsame⟩
      rw [hgh, payload_withFlags]

/-- Two objects are put in, the greater index first. Before, another one has been at
each of their indices and been taken out, one has been refused at an index that was
taken, and one has been at a third index; the table was sent meanwhile. -/
theorem history_forgotten_detours :
    let a : Sample := ⟨7, [1, 2], none⟩
    let b : Sample := ⟨1, [9], none⟩
    let bad : Sample := ⟨2, [8], some .ioError⟩
    let es : List (UInt8 × Sample) := [(3, a), (254, b)]
    let cs : List (Command Sample) := [.insert 254 bad, .insert 40 bad, .remove 254, .insert 3 b,
      .insert 254 b, .insert 3 bad, .remove 40, .send, .remove 3, .insert 3 a]
    let g := Outcome.run step (construct .large).state cs
    let h := Outcome.run step (construct .large).state (es.map fun e => .insert e.1 e.2)
    Assembles es.reverse cs ∧ g.get? 3 = some a ∧ g.flags ≠ h.flags ∧
      g.mask = h.mask ∧ g.slots = h.slots ∧ g.payload none = h.payload none ∧
      g.payload none = .ok ⟨.ofWords [8#32, 0#32, 0#32, 0#32, 0#32, 0#32, 0#32, 1#32 <<< 30],
        [7, 3, 1, 2, 1, 254, 9]⟩ := by
  intro a b bad es cs g h
  obtain ⟨hsame, hinserted⟩ := history_forgotten (α := Sample) .large
  obtain ⟨hget, hpayload⟩ := hinserted es (by decide) (by decide)
  have hcs : Assembles es.reverse cs := by
    intro i
    have hlast : ∀ d : Command Sample, d ∈ some (.remove i) → d = .remove i :=
      fun d hd => (Option.some.inj hd).symm
    by_cases h3 : i = 3
    · subst h3
      exact ⟨[.insert 3 b, .insert 3 bad, .remove 3], hlast, rfl⟩
    · by_cases h40 : i = 40
      · subst h40
        exact ⟨[.insert 40 bad, .remove 40], hlast, rfl⟩
      · by_cases h254 : i = 254
        · subst h254
          exact ⟨[.insert 254 bad, .remove 254], hlast, rfl⟩
        · refine ⟨[], fun d hd => (by cases hd), ?_⟩
          simp [commandsAt, Command.index?, cs, es, Ne.symm h3, Ne.symm h40, Ne.symm h254]
  have hobjects : ∀ i, i < Capacity.large.bits → g.get? i = h.get? i := fun i hi =>
    Option.ext fun x => by
      rw [hcs.get?_run (by decide) hi, hget, List.mem_reverse]
  obtain ⟨hmask, hslots, -⟩ := hsame cs _ hobjects
  have hall : g.payload none = h.payload none := hpayload _ cs es.reverse_perm hcs none
  refine ⟨hcs, ?_, by decide +kernel, hmask, hslots, hall, hall.trans (by decide +kernel)⟩
  rw [hobjects 3 (by decide)]
  exact (hget 3 a).mpr (by decide)

end Group

end BoardObjects
