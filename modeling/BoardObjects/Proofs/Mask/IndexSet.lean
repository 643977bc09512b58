/-
# A mask is a set of indices

What a mask means is its capacity and the set of the indices in it. `IndexSet` is
this meaning, with the operations on masks told in terms of sets: what each does,
and when it is refused. `Mask.indexSet` is the meaning of a mask, and for each
operation one theorem says that it does to the mask what its namesake does to the
set. Where that is refused, the operation is refused for the same cause and leaves
the very mask that it found (`Change.Realizes`), with the words out of use. Two clean
masks of one meaning are equal.
-/
import BoardObjects.Proofs.Mask.Runs
import Mathlib.Data.Finset.SymmDiff
import Mathlib.Data.Finset.Range

namespace BoardObjects

open scoped symmDiff

/-- A set of indices below a capacity. -/
@[ext]
structure IndexSet where
  capacity : UInt8
  members : Finset ℕ
  subset_range : members ⊆ Finset.range capacity.toNat

/-- The operation on sets of indices. -/
def SetOp.onSets : SetOp → Finset ℕ → Finset ℕ → Finset ℕ
  | inter, a, b => a ∩ b
  | union, a, b => a ∪ b
  | symmDiff, a, b => a ∆ b

theorem SetOp.mem_onSets (op : SetOp) (a b : Finset ℕ) (i : ℕ) :
    i ∈ op.onSets a b ↔ op.onBits (decide (i ∈ a)) (decide (i ∈ b)) = true := by
  by_cases ha : i ∈ a <;> by_cases hb : i ∈ b <;>
    cases op <;> simp [onSets, onBits, ha, hb, Finset.mem_symmDiff]

theorem SetOp.onSets_subset_union (op : SetOp) (a b : Finset ℕ) : op.onSets a b ⊆ a ∪ b := by
  cases op with
  | inter => exact Finset.inter_subset_left.trans Finset.subset_union_left
  | union => exact Finset.Subset.refl _
  | symmDiff => exact Finset.symmDiff_subset_union

namespace IndexSet

/-- The indices below a capacity at which `p` holds. -/
def below (c : UInt8) (p : ℕ → Bool) : IndexSet :=
  ⟨c, (Finset.range c.toNat).filter fun i => p i = true, Finset.filter_subset _ _⟩

/-- A set for `bits` indices, of which there have to be 32 or 255. -/
def create (bits : UInt8) (p : ℕ → Bool) : Except ErrorCode IndexSet :=
  if bits = 32 ∨ bits = 255 then .ok (below bits p) else .error .invalidArgument

/-- No index, every index, or those that are not in the set. -/
def sweep (s : IndexSet) : Mask.Sweep → IndexSet
  | .clear => ⟨s.capacity, ∅, Finset.empty_subset _⟩
  | .fill => ⟨s.capacity, Finset.range s.capacity.toNat, Finset.Subset.refl _⟩
  | .invert => ⟨s.capacity, Finset.range s.capacity.toNat \ s.members, Finset.sdiff_subset⟩

/-- The members after a change at `i`. -/
def editMembers (s : IndexSet) (i : ℕ) : Mask.Edit → Finset ℕ
  | .set => insert i s.members
  | .clear => s.members.erase i
  | .toggle => s.members ∆ {i}
  | .toggleOthers =>
    s.members ∆ (Finset.range s.capacity.toNat).filter fun j => j / 32 = i / 32 ∧ j ≠ i

theorem editMembers_subset (s : IndexSet) {i : ℕ} (h : i < s.capacity.toNat) (f : Mask.Edit) :
    s.editMembers i f ⊆ Finset.range s.capacity.toNat := by
  have hi : {i} ⊆ Finset.range s.capacity.toNat :=
    Finset.singleton_subset_iff.mpr (Finset.mem_range.mpr h)
  cases f with
  | set => exact Finset.insert_subset (Finset.mem_range.mpr h) s.subset_range
  | clear => exact (Finset.erase_subset _ _).trans s.subset_range
  | toggle => exact Finset.symmDiff_subset_union.trans (Finset.union_subset s.subset_range hi)
  | toggleOthers =>
    exact Finset.symmDiff_subset_union.trans
      (Finset.union_subset s.subset_range (Finset.filter_subset _ _))

/-- A change at `i`, which has to lie below the capacity. -/
def edit (s : IndexSet) (i : UInt8) (f : Mask.Edit) : Except ErrorCode IndexSet :=
  if h : i.toNat < s.capacity.toNat then
    .ok ⟨s.capacity, s.editMembers i.toNat f, s.editMembers_subset h f⟩
  else .error .invalidArgument

/-- The indices below the capacity at which `p` holds, if `p` is meant for as many
indices as the set has. -/
def importFrom (s : IndexSet) (bits : UInt8) (p : ℕ → Bool) : Except ErrorCode IndexSet :=
  if s.capacity = bits then .ok (below s.capacity p) else .error .invalidArgument

/-- The bits `p` after the words that the capacity needs have been written over
them, if as many indices are expected as the set has. -/
def exportTo (s : IndexSet) (bits : UInt8) (p : ℕ → Bool) : Except ErrorCode (ℕ → Bool) :=
  if s.capacity = bits then
    .ok fun i => if i < 32 * Words.wordCount s.capacity.toNat then decide (i ∈ s.members) else p i
  else .error .invalidArgument

/-- The join of two sets, if the capacities of all three are equal. -/
def combine (op : SetOp) (dst a b : IndexSet) : Except ErrorCode IndexSet :=
  if h : dst.capacity = a.capacity ∧ dst.capacity = b.capacity then
    .ok ⟨dst.capacity, op.onSets a.members b.members,
      (op.onSets_subset_union _ _).trans (Finset.union_subset (h.1 ▸ a.subset_range)
        (h.2 ▸ b.subset_range))⟩
  else .error .invalidArgument

/-- The set `src`, if the capacities are equal. -/
def copy (dst src : IndexSet) : Except ErrorCode IndexSet :=
  if dst.capacity = src.capacity then .ok src else .error .invalidArgument

end IndexSet

/-- A change of `s`, of which `view` is seen, has the outcome `x`. If `x` is a refusal, the
change is refused for the same cause, which is an invalid argument, and leaves `s`. -/
structure Change.Realizes {σ τ : Type} (view : σ → τ) (s : σ) (o : Change σ)
    (x : Except ErrorCode τ) : Prop where
  verdict : o.1 = x.map fun _ => ()
  accepted : ∀ t, x = .ok t → view o.2 = t
  refused : ∀ e, x = .error e → e = .invalidArgument ∧ o.2 = s

namespace Change

variable {σ τ : Type} {view : σ → τ}

theorem realizes_ok (s : σ) {s' : σ} {t : τ} (h : view s' = t) :
    Realizes view s (.ok (), s') (.ok t) :=
  ⟨rfl, fun _ ht => h.trans (Except.ok.inj ht), fun _ he => (by cases he)⟩

theorem realizes_refused (view : σ → τ) (s : σ) :
    Realizes view s (.error .invalidArgument, s) (.error .invalidArgument) :=
  ⟨rfl, fun _ ht => (by cases ht), fun _ he => ⟨(Except.error.inj he).symm, rfl⟩⟩

end Change

namespace Mask

/-- The indices in a mask. -/
def members (m : Mask) : Finset ℕ :=
  (Finset.range m.size).filter fun i => m.get (UInt8.ofNat i) = true

def indexSet (m : Mask) : IndexSet := ⟨m.bits, m.members, Finset.filter_subset _ _⟩

theorem mem_members {m : Mask} {i : ℕ} : i ∈ m.members ↔ i < m.size ∧ m.bit i = true := by
  rw [members, Finset.mem_filter, Finset.mem_range]
  refine and_congr_right fun hi => ?_
  have hn : (UInt8.ofNat i).toNat = i :=
    UInt8.toNat_ofNat_of_lt' (hi.trans m.size_lt)
  rw [get_eq, hn, decide_eq_true hi, Bool.true_and]

/-- A byte is a member exactly if the mask has its bit. -/
theorem toNat_mem_members {m : Mask} {i : UInt8} : i.toNat ∈ m.members ↔ m.get i = true := by
  rw [mem_members, get_eq, Bool.and_eq_true, decide_eq_true_eq]

theorem Bounded.mem_members {m : Mask} (hm : m.Bounded) {i : ℕ} :
    i ∈ m.members ↔ m.bit i = true := by
  rw [Mask.mem_members]
  exact ⟨fun h => h.2, fun h => ⟨hm.lt_size h, h⟩⟩

theorem Bounded.members_eq_empty_iff {m : Mask} (hm : m.Bounded) :
    m.members = ∅ ↔ ∀ i, Words.bit m.words i = false := by
  rw [Finset.eq_empty_iff_forall_notMem]
  refine forall_congr' fun i => ?_
  rw [hm.mem_members, Mask.bit, Bool.not_eq_true]

theorem Clean.mem_members {m : Mask} (hm : m.Clean) {i : ℕ} :
    i ∈ m.members ↔ m.bit i = true := hm.bounded.mem_members

theorem members_eq_of_beq {a b : Mask} (h : (a == b) = true) : a.members = b.members := by
  obtain ⟨hc, hw⟩ := (beq_iff a b).mp h
  ext i
  rw [Mask.mem_members, Mask.mem_members, size, size, bit, bit, hc, hw]

/-- Clean masks that mean the same are equal. -/
theorem eq_of_indexSet_eq {a b : Mask} (ha : a.Clean) (hb : b.Clean)
    (h : a.indexSet = b.indexSet) : a = b := by
  have hm : a.members = b.members := congrArg IndexSet.members h
  refine eq_of_bit_eq ha hb (congrArg IndexSet.capacity h) fun i => ?_
  rw [Bool.eq_iff_iff, ← ha.mem_members, ← hb.mem_members, hm]

/-- A clean mask is a subset if its set is, and if the capacities are equal. -/
theorem isSubset_iff_members {a b : Mask} (ha : a.Clean) (hb : b.Formed) :
    a.isSubset b = true ↔ a.bits = b.bits ∧ a.members ⊆ b.members := by
  rw [isSubset_iff ha.formed hb]
  refine and_congr_right fun hc => ⟨fun h i hi => ?_, fun h i hi => ?_⟩
  · obtain ⟨hlt, hbit⟩ := Mask.mem_members.mp hi
    refine Mask.mem_members.mpr ⟨?_, h i hbit⟩
    rwa [size, ← hc]
  · exact (Mask.mem_members.mp (h (ha.mem_members.mpr hi))).2

/-! ### What the functions on masks do to the set -/

theorem indexSet_of_rewritten {m m' : Mask} {p : ℕ → Bool} (h : Rewritten m p m') :
    m'.indexSet = IndexSet.below m.bits p := by
  refine IndexSet.ext h.bits_eq (Finset.ext fun i => ?_)
  show i ∈ m'.members ↔ i ∈ (Finset.range m.size).filter fun i => p i = true
  rw [mem_members, Finset.mem_filter, Finset.mem_range, h.size_eq, h.bit]

theorem below_eq {c : UInt8} {p : ℕ → Bool} {s : IndexSet} (hc : s.capacity = c)
    (h : ∀ i, i < c.toNat → (p i = true ↔ i ∈ s.members)) : IndexSet.below c p = s := by
  subst hc
  refine IndexSet.ext rfl (Finset.ext fun i => ?_)
  show i ∈ (Finset.range s.capacity.toNat).filter (fun i => p i = true) ↔ i ∈ s.members
  rw [Finset.mem_filter, Finset.mem_range]
  constructor
  · rintro ⟨hi, hp⟩
    exact (h i hi).mp hp
  · intro hi
    have hlt := Finset.mem_range.mp (s.subset_range hi)
    exact ⟨hlt, (h i hlt).mpr hi⟩

theorem indexSet_sweep {m : Mask} (hm : m.Formed) (f : Sweep) :
    (m.sweep f).indexSet = m.indexSet.sweep f := by
  rw [indexSet_of_rewritten (sweep_rewritten hm f)]
  cases f with
  | clear => exact below_eq rfl fun i _ => by simp [sweepBits, IndexSet.sweep]
  | fill =>
    refine below_eq rfl fun i _ => ?_
    show decide (i < m.size) = true ↔ i ∈ Finset.range m.size
    rw [decide_eq_true_eq, Finset.mem_range]
  | invert =>
    refine below_eq rfl fun i hi => ?_
    have hs : i < m.size := hi
    simp [sweepBits, IndexSet.sweep, indexSet, mem_members, hs, hi]

/-- The bits after a change at an index are those of the changed set. -/
theorem editBits_iff {m : Mask} {i : UInt8} {f : Edit} {j : ℕ} (hj : j < m.size) :
    m.editBits i f j = true ↔ j ∈ m.indexSet.editMembers i.toNat f := by
  have hm : j ∈ m.indexSet.members ↔ m.bit j = true := by
    show j ∈ m.members ↔ _
    rw [mem_members]
    exact and_iff_right hj
  have hr : j ∈ Finset.range m.indexSet.capacity.toNat := Finset.mem_range.mpr hj
  cases f with
  | set =>
    show (if j = i.toNat then true else m.bit j) = true ↔ j ∈ insert i.toNat m.indexSet.members
    rw [Finset.mem_insert, hm]
    split <;> simp [*]
  | clear =>
    show (if j = i.toNat then false else m.bit j) = true ↔ j ∈ m.indexSet.members.erase i.toNat
    rw [Finset.mem_erase, hm]
    split <;> simp [*]
  | toggle =>
    show (m.bit j ^^ decide (j = i.toNat)) = true ↔ j ∈ m.indexSet.members ∆ {i.toNat}
    rw [Finset.mem_symmDiff, hm, Finset.mem_singleton]
    by_cases hji : j = i.toNat <;> cases m.bit j <;> simp [hji]
  | toggleOthers =>
    show ((m.bit j ^^ (decide (j / 32 = i.toNat / 32) && decide (j ≠ i.toNat))) &&
      decide (j < m.size)) = true ↔ j ∈ m.indexSet.members ∆
        (Finset.range m.indexSet.capacity.toNat).filter fun j => j / 32 = i.toNat / 32 ∧ j ≠ i.toNat
    rw [Finset.mem_symmDiff, hm, Finset.mem_filter, and_iff_right hr, decide_eq_true hj,
      Bool.and_true, ← Bool.decide_and]
    by_cases hji : j / 32 = i.toNat / 32 ∧ j ≠ i.toNat <;> cases m.bit j <;> simp [hji]

theorem edit_realizes {m : Mask} (hm : m.Formed) (i : UInt8) (f : Edit) :
    Change.Realizes indexSet m (m.edit i f) (m.indexSet.edit i f) := by
  by_cases h : i < m.bits
  · have hn : i.toNat < m.indexSet.capacity.toNat := lt_bits_iff.mp h
    obtain ⟨m', hm', hw⟩ := edit_rewritten hm h f
    rw [hm', IndexSet.edit, dif_pos hn]
    refine Change.realizes_ok m ((indexSet_of_rewritten hw).trans ?_)
    exact below_eq rfl fun j hj => editBits_iff hj
  · have hn : ¬ i.toNat < m.indexSet.capacity.toNat := fun hn => h (lt_bits_iff.mpr hn)
    rw [edit_refused h, IndexSet.edit, dif_neg hn]
    exact Change.realizes_refused indexSet m

theorem indexSet_load {m : Mask} (hm : m.Formed) (w : WireMask) :
    (m.load w).indexSet = IndexSet.below m.bits w.bit := by
  refine (indexSet_of_rewritten (load_rewritten hm w)).trans (below_eq rfl fun i hi => ?_)
  show (w.bit i && decide (i < m.size)) = true ↔
    i ∈ (Finset.range m.size).filter fun i => w.bit i = true
  rw [Finset.mem_filter, Finset.mem_range, decide_eq_true (show i < m.size from hi), Bool.and_true]
  exact (and_iff_right hi).symm

theorem importFrom_realizes {m : Mask} (hm : m.Formed) (bits : UInt8) (w : WireMask) :
    Change.Realizes indexSet m (m.importFrom bits w) (m.indexSet.importFrom bits w.bit) := by
  unfold IndexSet.importFrom
  by_cases h : m.bits = bits
  · rw [if_pos (show m.indexSet.capacity = bits from h), ← h, importFrom_self]
    exact Change.realizes_ok m (indexSet_load hm w)
  · rw [if_neg (show ¬ m.indexSet.capacity = bits from h), importFrom_refused h]
    exact Change.realizes_refused indexSet m

theorem indexSet_empty (c : Capacity) :
    (empty c).indexSet = IndexSet.below c.bits fun _ => false := by
  refine (below_eq rfl fun i _ => ?_).symm
  show false = true ↔ i ∈ (empty c).members
  rw [mem_members, bit_empty]
  simp

theorem indexSet_create (bits : UInt8) (seed : Option WireMask) :
    (create bits seed).map indexSet =
      IndexSet.create bits ((seed.map WireMask.bit).getD fun _ => false) := by
  unfold IndexSet.create
  cases hc : Capacity.ofBits? bits with
  | none =>
    have hne : ∀ c : Capacity, bits ≠ c.bits := fun c h => by
      rw [Capacity.ofBits?_eq_some_iff.mpr h] at hc
      cases hc
    have hneither : ¬ (bits = 32 ∨ bits = 255) := not_or.mpr ⟨hne .small, hne .large⟩
    rw [if_neg hneither, create, hc]
    rfl
  | some c =>
    obtain rfl := Capacity.ofBits?_eq_some_iff.mp hc
    rw [if_pos (show c.bits = 32 ∨ c.bits = 255 from (formed_empty c).bits)]
    cases seed with
    | none =>
      rw [create_empty]
      exact congrArg Except.ok (indexSet_empty c)
    | some w =>
      rw [create_load]
      exact congrArg Except.ok (indexSet_load (formed_empty c) w)

theorem combine_realizes (op : SetOp) {dst a b : Mask} (hdst : dst.Formed) (ha : a.Formed)
    (hb : b.Formed) :
    Change.Realizes indexSet dst (combine op dst a b)
      (IndexSet.combine op dst.indexSet a.indexSet b.indexSet) := by
  by_cases h : dst.bits = a.bits ∧ dst.bits = b.bits
  · rw [combine_eq_merge op h.1 h.2, IndexSet.combine,
      dif_pos (show dst.indexSet.capacity = a.indexSet.capacity ∧
        dst.indexSet.capacity = b.indexSet.capacity from h)]
    have hw := merge_rewritten op hdst ha hb h.1 h.2
    refine Change.realizes_ok dst ((indexSet_of_rewritten hw).trans (below_eq rfl fun i hi => ?_))
    have hia : i < a.size := (congrArg (i < UInt8.toNat ·) h.1).mp hi
    have hib : i < b.size := (congrArg (i < UInt8.toNat ·) h.2).mp hi
    show op.onBits (a.bit i) (b.bit i) = true ↔ i ∈ op.onSets a.members b.members
    rw [SetOp.mem_onSets]
    simp only [mem_members, hia, hib, true_and, Bool.decide_eq_true]
  · rw [combine_refused op h, IndexSet.combine,
      dif_neg (show ¬ (dst.indexSet.capacity = a.indexSet.capacity ∧
        dst.indexSet.capacity = b.indexSet.capacity) from h)]
    exact Change.realizes_refused indexSet dst

theorem copy_realizes {dst src : Mask} (hdst : dst.Formed) (hsrc : src.Formed) :
    Change.Realizes indexSet dst (copy dst src) (dst.indexSet.copy src.indexSet) := by
  unfold IndexSet.copy
  by_cases h : dst.bits = src.bits
  · obtain ⟨m', hm', hw⟩ := copy_rewritten hdst hsrc h
    rw [hm', if_pos (show dst.indexSet.capacity = src.indexSet.capacity from h)]
    refine Change.realizes_ok dst
      ((indexSet_of_rewritten hw).trans (below_eq h.symm fun i hi => ?_))
    have hs : i < src.size := (congrArg (i < UInt8.toNat ·) h).mp hi
    show src.bit i = true ↔ i ∈ src.members
    rw [mem_members]
    exact (and_iff_right hs).symm
  · rw [copy_refused h, if_neg (show ¬ dst.indexSet.capacity = src.indexSet.capacity from h)]
    exact Change.realizes_refused indexSet dst

/-- Writing out a clean mask shows its set in the words it needs. -/
theorem exportTo_realizes {m : Mask} (hm : m.Clean) (bits : UInt8) (w : WireMask) :
    Change.Realizes WireMask.bit w (m.exportTo bits w) (m.indexSet.exportTo bits w.bit) := by
  unfold IndexSet.exportTo
  by_cases h : m.bits = bits
  · rw [if_pos (show m.indexSet.capacity = bits from h), ← h, exportTo_self]
    refine Change.realizes_ok w (funext fun i => ?_)
    rw [bit_exported hm.formed, hm.formed.wordCount]
    refine if_congr Iff.rfl ?_ rfl
    rw [Bool.eq_iff_iff, decide_eq_true_eq]
    exact hm.mem_members.symm
  · rw [if_neg (show ¬ m.indexSet.capacity = bits from h), exportTo_refused h]
    exact Change.realizes_refused WireMask.bit w

end Mask

end BoardObjects
