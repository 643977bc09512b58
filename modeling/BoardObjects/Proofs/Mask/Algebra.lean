/-
# Masks of one capacity form a Boolean algebra

`ReachableMask c` holds the masks of capacity `c` that some program leaves behind. Such a
mask is known by the places of its bits below the capacity (`ReachableMask.places`), on
which the functions on masks are the operations on finite sets. So the laws of sets are
laws of masks.

Intersection, union and symmetric difference do not clear what lies at or above the
capacity, the complement and the full mask do. The laws that mix them hold because
neither side has a bit there. The join of two masks is the same in every destination of
their capacity (`ReachableMask.combine_eq`).

The count of a mask is the number of its places (`ReachableMask.toNat_count`), so it is
a measure on this algebra.
-/
import BoardObjects.Proofs.Mask.Counting
import Mathlib.Data.Fintype.Card
import Mathlib.Order.Bounds.Lattice
import Mathlib.Order.SymmDiff
import Mathlib.Tactic.TFAE

namespace BoardObjects

open scoped symmDiff

/-- A mask of capacity `c` that some program leaves behind. -/
structure ReachableMask (c : Capacity) extends SizedMask c where
  reachable : mask.Reachable

namespace ReachableMask

variable {c : Capacity}

theorem clean (a : ReachableMask c) : a.mask.Clean := Mask.reachable_iff_clean.mp a.reachable

theorem formed (a : ReachableMask c) : a.mask.Formed := a.clean.formed

theorem bits_eq_bits (a b : ReachableMask c) : a.mask.bits = b.mask.bits :=
  a.toSizedMask.bits_eq_bits b.toSizedMask

theorem size_mask (a : ReachableMask c) : a.mask.size = c.size := congrArg UInt8.toNat a.bits_eq

theorem bit_eq_false (a : ReachableMask c) {i : ℕ} (h : c.size ≤ i) : a.mask.bit i = false :=
  a.clean.bit_eq_false (a.size_mask ▸ h)

theorem lt_size_of_bit (a : ReachableMask c) {i : ℕ} (h : a.mask.bit i = true) : i < c.size :=
  a.size_mask ▸ a.clean.lt_size h

theorem eq_of_mask_eq {a b : ReachableMask c} (h : a.mask = b.mask) : a = b := by
  obtain ⟨⟨m, hm⟩, hr⟩ := a
  obtain ⟨⟨m', hm'⟩, hr'⟩ := b
  obtain rfl : m = m' := h
  rfl

/-- A reachable mask of a given capacity is its bits. -/
theorem ext_bit {a b : ReachableMask c} (h : ∀ i, a.mask.bit i = b.mask.bit i) : a = b :=
  eq_of_mask_eq (Mask.eq_of_bit_eq a.clean b.clean (a.bits_eq_bits b) h)

/-- A clean mask of capacity `c`. -/
def ofClean (m : Mask) (h : m.Clean) (hc : m.bits = c.bits) : ReachableMask c :=
  ⟨⟨m, hc⟩, Mask.reachable_iff_clean.mpr h⟩

/-! ### The operations -/

/-- The join of two masks, written over the first one. -/
def join (op : SetOp) (a b : ReachableMask c) : ReachableMask c :=
  ofClean (Mask.merge op a.mask a.mask b.mask)
    (Mask.clean_merge op rfl (a.bits_eq_bits b) a.clean a.clean b.clean) a.bits_eq

instance : Min (ReachableMask c) := ⟨join .inter⟩
instance : Max (ReachableMask c) := ⟨join .union⟩
instance : Bot (ReachableMask c) :=
  ⟨ofClean (Mask.empty c) (Mask.clean_empty c) (SizedMask.empty c).bits_eq⟩
instance : Top (ReachableMask c) :=
  ⟨ofClean (Mask.empty c).fill (Mask.clean_sweep (Mask.clean_empty c) .fill) rfl⟩
instance : Compl (ReachableMask c) :=
  ⟨fun a => ofClean a.mask.invert (Mask.clean_sweep a.clean .invert) a.bits_eq⟩
instance : SDiff (ReachableMask c) := ⟨fun a b => a ⊓ bᶜ⟩
instance : HImp (ReachableMask c) := ⟨fun a b => b ⊔ aᶜ⟩
instance : LE (ReachableMask c) := ⟨fun a b => a.mask.isSubset b.mask = true⟩
instance : LT (ReachableMask c) := ⟨fun a b => a ≤ b ∧ ¬ b ≤ a⟩

theorem bit_join (op : SetOp) (a b : ReachableMask c) (i : ℕ) :
    (join op a b).mask.bit i = op.onBits (a.mask.bit i) (b.mask.bit i) :=
  (Mask.merge_rewritten op a.formed a.formed b.formed rfl (a.bits_eq_bits b)).bit i

theorem bit_inf (a b : ReachableMask c) (i : ℕ) :
    (a ⊓ b).mask.bit i = (a.mask.bit i && b.mask.bit i) := bit_join .inter a b i

theorem bit_sup (a b : ReachableMask c) (i : ℕ) :
    (a ⊔ b).mask.bit i = (a.mask.bit i || b.mask.bit i) := bit_join .union a b i

theorem bit_bot (i : ℕ) : (⊥ : ReachableMask c).mask.bit i = false := Mask.bit_empty c i

theorem bit_top (i : ℕ) : (⊤ : ReachableMask c).mask.bit i = decide (i < c.size) :=
  (Mask.fill_rewritten (Mask.formed_empty c)).bit i

theorem bit_compl (a : ReachableMask c) (i : ℕ) :
    aᶜ.mask.bit i = (!a.mask.bit i && decide (i < c.size)) := by
  have h := (Mask.invert_rewritten a.formed).bit i
  rwa [size_mask] at h

theorem eq_mask_of_bit_eq {m : Mask} {a : ReachableMask c} (hm : m.Clean) (hc : m.bits = c.bits)
    (h : ∀ i, m.bit i = a.mask.bit i) : m = a.mask :=
  Mask.eq_of_bit_eq hm a.clean (hc.trans a.bits_eq.symm) h

theorem clear_eq_bot (a : ReachableMask c) : a.mask.clear = (⊥ : ReachableMask c).mask :=
  eq_mask_of_bit_eq (Mask.clean_sweep a.clean .clear)
    ((Mask.clear_rewritten a.formed).bits_eq.trans a.bits_eq) fun i =>
      ((Mask.clear_rewritten a.formed).bit i).trans (bit_bot i).symm

theorem fill_eq_top (a : ReachableMask c) : a.mask.fill = (⊤ : ReachableMask c).mask := by
  apply eq_mask_of_bit_eq (Mask.clean_sweep a.clean .fill)
    ((Mask.fill_rewritten a.formed).bits_eq.trans a.bits_eq)
  intro i
  rw [bit_top, ← a.size_mask]
  exact (Mask.fill_rewritten a.formed).bit i

/-- The join is the same in every destination. -/
theorem combine_eq (op : SetOp) (d a b : ReachableMask c) :
    Mask.combine op d.mask a.mask b.mask = (.ok (), (join op a b).mask) := by
  have hda := d.bits_eq_bits a
  have hdb := d.bits_eq_bits b
  rw [Mask.combine_eq_merge op hda hdb]
  refine congrArg (Prod.mk (Except.ok ())) (eq_mask_of_bit_eq ?_ d.bits_eq fun i => ?_)
  · exact Mask.clean_merge op hda hdb d.clean a.clean b.clean
  · rw [(Mask.merge_rewritten op d.formed a.formed b.formed hda hdb).bit, bit_join]

/-! ### Places -/

/-- The indices of a mask among those below the capacity. -/
def places (a : ReachableMask c) : Finset (Fin c.size) :=
  Finset.univ.filter fun i => a.mask.bit i = true

theorem mem_places {a : ReachableMask c} {i : Fin c.size} : i ∈ a.places ↔ a.mask.bit i = true := by
  rw [places, Finset.mem_filter, and_iff_right (Finset.mem_univ i)]

/-- The order of masks is that of their places. -/
theorem places_subset_iff {a b : ReachableMask c} : a.places ⊆ b.places ↔ a ≤ b := by
  show _ ↔ a.mask.isSubset b.mask = true
  rw [Mask.isSubset_iff a.formed b.formed, and_iff_right (a.bits_eq_bits b)]
  constructor
  · intro h i hi
    have hplace : (⟨i, a.lt_size_of_bit hi⟩ : Fin c.size) ∈ a.places := mem_places.mpr hi
    have hmem := mem_places.mp (h hplace)
    exact hmem
  · intro h i hi
    have hbit := h i (mem_places.mp hi)
    exact mem_places.mpr hbit

theorem places_injective : Function.Injective (places (c := c)) := by
  intro a b h
  apply ext_bit
  intro i
  rcases Nat.lt_or_ge i c.size with hi | hi
  · have hmem : (⟨i, hi⟩ : Fin c.size) ∈ a.places ↔ ⟨i, hi⟩ ∈ b.places := by rw [h]
    rw [mem_places, mem_places] at hmem
    exact Bool.eq_iff_iff.mpr hmem
  · rw [a.bit_eq_false hi, b.bit_eq_false hi]

theorem places_lt_iff {a b : ReachableMask c} : a.places < b.places ↔ a < b := by
  rw [lt_iff_le_not_ge]
  exact and_congr places_subset_iff (not_congr places_subset_iff)

theorem places_inf (a b : ReachableMask c) : (a ⊓ b).places = a.places ∩ b.places := by
  ext i
  rw [Finset.mem_inter, mem_places, mem_places, mem_places, bit_inf, Bool.and_eq_true]

theorem places_sup (a b : ReachableMask c) : (a ⊔ b).places = a.places ∪ b.places := by
  ext i
  rw [Finset.mem_union, mem_places, mem_places, mem_places, bit_sup, Bool.or_eq_true]

theorem places_bot : (⊥ : ReachableMask c).places = ∅ := by
  ext i
  rw [mem_places, bit_bot]
  simp

theorem places_top : (⊤ : ReachableMask c).places = Finset.univ := by
  ext i
  rw [mem_places, bit_top, decide_eq_true i.isLt]
  simp

theorem places_compl (a : ReachableMask c) : aᶜ.places = a.placesᶜ := by
  ext i
  rw [Finset.mem_compl, mem_places, mem_places, bit_compl, decide_eq_true i.isLt, Bool.and_true,
    Bool.not_eq_true, Bool.not_eq_true']

theorem places_sdiff (a b : ReachableMask c) : (a \ b).places = a.places \ b.places := by
  show (a ⊓ bᶜ).places = _
  rw [places_inf, places_compl, Finset.sdiff_eq_inter_compl]

theorem places_himp (a b : ReachableMask c) : (a ⇨ b).places = a.places ⇨ b.places := by
  show (b ⊔ aᶜ).places = _
  rw [places_sup, places_compl, himp_eq]
  rfl

instance : BooleanAlgebra (ReachableMask c) :=
  places_injective.booleanAlgebra places places_subset_iff places_lt_iff places_sup places_inf
    places_top places_bot places_compl places_sdiff places_himp

/-! ### Symmetric difference, equality and order -/

theorem join_symmDiff (a b : ReachableMask c) : join .symmDiff a b = a ∆ b := by
  apply ext_bit
  intro i
  have hdiff : (a ∆ b).mask.bit i = ((a ⊓ bᶜ) ⊔ (b ⊓ aᶜ)).mask.bit i := rfl
  rw [hdiff, bit_join, bit_sup, bit_inf, bit_inf, bit_compl, bit_compl, SetOp.onBits]
  rcases Nat.lt_or_ge i c.size with hi | hi
  · rw [decide_eq_true hi]
    cases a.mask.bit i <;> cases b.mask.bit i <;> rfl
  · rw [a.bit_eq_false hi, b.bit_eq_false hi]
    rfl

theorem beq_mask_iff {a b : ReachableMask c} : (a.mask == b.mask) = true ↔ a = b := by
  rw [Mask.beq_iff]
  constructor
  · rintro ⟨hc, hw⟩
    exact eq_of_mask_eq (Mask.eq_of_words_eq a.clean b.clean hc hw)
  · rintro rfl
    exact ⟨rfl, rfl⟩

theorem isZero_mask_iff {a : ReachableMask c} : a.mask.isZero = true ↔ a = ⊥ := by
  rw [Mask.isZero, Words.isEmpty_iff]
  constructor
  · intro h
    exact ext_bit fun i => (h i).trans (bit_bot i).symm
  · rintro rfl
    exact bit_bot

theorem le_iff_indices {a b : ReachableMask c} :
    a ≤ b ↔ ∀ i ∈ a.mask.indices, b.mask.get i = true := by
  show a.mask.isSubset b.mask = true ↔ _
  rw [Mask.isSubset_iff_members a.clean b.formed, and_iff_right (a.bits_eq_bits b),
    Mask.members_subset_iff]
  exact forall_congr' fun i => by rw [Mask.mem_indices a.clean.bounded]

/-- The test for a subset told by the operations, by the complement and by the indices. -/
theorem le_tfae (a b : ReachableMask c) :
    List.TFAE [a.mask.isSubset b.mask = true, ((a ⊓ b).mask == a.mask) = true,
      ((a ⊔ b).mask == b.mask) = true, (a ⊓ bᶜ).mask.isZero = true,
      ∀ i ∈ a.mask.indices, b.mask.get i = true] := by
  tfae_have 1 ↔ 2 := inf_eq_left.symm.trans beq_mask_iff.symm
  tfae_have 1 ↔ 3 := sup_eq_right.symm.trans beq_mask_iff.symm
  tfae_have 1 ↔ 4 :=
    disjoint_compl_right_iff.symm.trans (disjoint_iff.trans isZero_mask_iff.symm)
  tfae_have 1 ↔ 5 := le_iff_indices
  tfae_finish

/-! ### Counts -/

theorem toNat_count (a : ReachableMask c) : a.mask.count.toNat = a.places.card := by
  have hmembers : a.mask.members = a.places.map Fin.valEmbedding := by
    ext i
    rw [a.clean.mem_members, Finset.mem_map]
    constructor
    · intro hi
      exact ⟨⟨i, a.lt_size_of_bit hi⟩, mem_places.mpr hi, rfl⟩
    · rintro ⟨j, hj, rfl⟩
      exact mem_places.mp hj
  rw [Mask.toNat_count a.clean.bounded, hmembers, Finset.card_map]

theorem count_sup_add_count_inf (a b : ReachableMask c) :
    (a ⊔ b).mask.count.toNat + (a ⊓ b).mask.count.toNat =
      a.mask.count.toNat + b.mask.count.toNat := by
  simp only [toNat_count, places_sup, places_inf, Finset.card_union_add_card_inter]

/-- A smaller mask counts no more, and as many only if it is the same. -/
theorem count_le_of_le {a b : ReachableMask c} (h : a ≤ b) :
    a.mask.count ≤ b.mask.count ∧ (a.mask.count = b.mask.count → a = b) := by
  have hsub := places_subset_iff.mpr h
  refine ⟨?_, fun heq => places_injective (Finset.eq_of_subset_of_card_le hsub ?_)⟩
  · rw [UInt8.le_iff_toNat_le, toNat_count, toNat_count]
    exact Finset.card_le_card hsub
  · rw [← toNat_count, ← toNat_count, heq]

/-- The symmetric difference is the union without the intersection. -/
theorem count_symmDiff (a b : ReachableMask c) :
    (a ⊓ b).mask.count ≤ (a ⊔ b).mask.count ∧
      (a ∆ b).mask.count = (a ⊔ b).mask.count - (a ⊓ b).mask.count := by
  have hle := (count_le_of_le (inf_le_sup : a ⊓ b ≤ a ⊔ b)).1
  have hplaces : (a ∆ b).places = (a ⊔ b).places \ (a ⊓ b).places := by
    rw [symmDiff_eq_sup_sdiff_inf, places_sdiff]
  have hsub : (a ⊓ b).places ⊆ (a ⊔ b).places := places_subset_iff.mpr inf_le_sup
  refine ⟨hle, UInt8.toNat_inj.mp ?_⟩
  rw [UInt8.toNat_sub_of_le _ _ hle, toNat_count, toNat_count, toNat_count, hplaces,
    Finset.card_sdiff_of_subset hsub]

/-- The complement counts what is left of the capacity. -/
theorem count_compl (a : ReachableMask c) :
    a.mask.count ≤ c.bits ∧ aᶜ.mask.count = c.bits - a.mask.count := by
  have hcard : a.mask.count.toNat + aᶜ.mask.count.toNat = c.bits.toNat := by
    rw [toNat_count, toNat_count, places_compl, Finset.card_add_card_compl, Fintype.card_fin]
    rfl
  have hle : a.mask.count ≤ c.bits := by
    rw [UInt8.le_iff_toNat_le]
    omega
  refine ⟨hle, UInt8.toNat_inj.mp ?_⟩
  rw [UInt8.toNat_sub_of_le _ _ hle]
  omega

/-- **Masks of one capacity form a Boolean algebra.** Its meet, join and symmetric
difference are what "and", "or" and "xor" write into any destination; its complement,
bottom and top are the inverted, the cleared and the filled mask; and masks are equal if
they compare as equal. Its order is the test for a subset, which is told as well by the
meet, by the join, by the meet with the complement and by the indices that are listed.
The count is a measure on it, and no sum or difference of counts is cut off in a byte. -/
theorem boolean_laws (c : Capacity) :
    (∀ d a b : ReachableMask c,
      Mask.combine .inter d.mask a.mask b.mask = (.ok (), (a ⊓ b).mask) ∧
      Mask.combine .union d.mask a.mask b.mask = (.ok (), (a ⊔ b).mask) ∧
      Mask.combine .symmDiff d.mask a.mask b.mask = (.ok (), (a ∆ b).mask)) ∧
    (∀ a : ReachableMask c, a.mask.invert = aᶜ.mask ∧
      a.mask.clear = (⊥ : ReachableMask c).mask ∧ a.mask.fill = (⊤ : ReachableMask c).mask) ∧
    (∀ a b : ReachableMask c, (a.mask == b.mask) = true ↔ a = b) ∧
    (∀ a b x : ReachableMask c,
      a ⊓ b = b ⊓ a ∧ a ⊔ b = b ⊔ a ∧ a ⊓ b ⊓ x = a ⊓ (b ⊓ x) ∧ a ⊔ b ⊔ x = a ⊔ (b ⊔ x) ∧
      a ⊓ (a ⊔ b) = a ∧ a ⊔ a ⊓ b = a ∧
      a ⊓ (b ⊔ x) = a ⊓ b ⊔ a ⊓ x ∧ a ⊔ b ⊓ x = (a ⊔ b) ⊓ (a ⊔ x) ∧
      a ⊓ ⊤ = a ∧ a ⊔ ⊥ = a ∧ a ⊓ aᶜ = ⊥ ∧ a ⊔ aᶜ = ⊤ ∧ aᶜᶜ = a ∧
      (a ⊓ b)ᶜ = aᶜ ⊔ bᶜ ∧ (a ⊔ b)ᶜ = aᶜ ⊓ bᶜ ∧
      a ∆ b = (a ⊓ bᶜ) ⊔ (b ⊓ aᶜ) ∧ a ∆ ⊤ = aᶜ ∧ a ∆ b ∆ b = a) ∧
    (∀ a b : ReachableMask c,
      List.TFAE [a.mask.isSubset b.mask = true, ((a ⊓ b).mask == a.mask) = true,
        ((a ⊔ b).mask == b.mask) = true, (a ⊓ bᶜ).mask.isZero = true,
        ∀ i ∈ a.mask.indices, b.mask.get i = true] ∧
      (a ≤ b ↔ a.mask.isSubset b.mask = true) ∧ IsGLB {a, b} (a ⊓ b) ∧ IsLUB {a, b} (a ⊔ b)) ∧
    ∀ a b : ReachableMask c,
      (a ⊔ b).mask.count.toNat + (a ⊓ b).mask.count.toNat =
        a.mask.count.toNat + b.mask.count.toNat ∧
      ((a ⊓ b).mask.count ≤ (a ⊔ b).mask.count ∧
        (a ∆ b).mask.count = (a ⊔ b).mask.count - (a ⊓ b).mask.count) ∧
      (a.mask.count ≤ c.bits ∧ aᶜ.mask.count = c.bits - a.mask.count) ∧
      (a.mask.isSubset b.mask = true →
        a.mask.count ≤ b.mask.count ∧ (a.mask.count = b.mask.count → (a.mask == b.mask) = true)) := by
  refine ⟨fun d a b => ⟨combine_eq .inter d a b, combine_eq .union d a b, ?_⟩, fun a => ?_,
    fun a b => beq_mask_iff, fun a b x => ?_, fun a b => ⟨le_tfae a b, Iff.rfl, isGLB_pair, isLUB_pair⟩,
    fun a b => ⟨count_sup_add_count_inf a b, count_symmDiff a b, count_compl a, fun h => ?_⟩⟩
  · rw [combine_eq, join_symmDiff]
  · exact ⟨rfl, clear_eq_bot a, fill_eq_top a⟩
  · exact ⟨inf_comm a b, sup_comm a b, inf_assoc a b x, sup_assoc a b x, inf_sup_self, sup_inf_self,
      inf_sup_left a b x, sup_inf_left a b x, inf_top_eq a, sup_bot_eq a, inf_compl_self a,
      sup_compl_eq_top, compl_compl a, compl_inf, compl_sup, rfl, symmDiff_top a,
      symmDiff_symmDiff_cancel_right b a⟩
  · obtain ⟨hle, heq⟩ := count_le_of_le (show a ≤ b from h)
    exact ⟨hle, fun hcount => beq_mask_iff.mpr (heq hcount)⟩

/-- Indices 1 and 2 are a subset of 1, 2, 3 and 254, and bit 255 of the words that are read
belongs to neither mask. So the joins give back the operands, whatever stands in the
destination; "xor" with the full mask inverts, which leaves 251 indices, and the smaller
count tells that the masks differ. -/
theorem boolean_laws_large :
    let read (ws : List Word) : ReachableMask .large :=
      ofClean ((Mask.empty .large).load (.ofWords ws)) (Mask.clean_load (Mask.clean_empty _) _) rfl
    let a := read [6#32]
    let b := read [14#32, 0#32, 0#32, 0#32, 0#32, 0#32, 0#32, 3#32 <<< 30]
    a.mask.isSubset b.mask = true ∧
      Mask.combine .inter b.mask a.mask b.mask = (.ok (), a.mask) ∧
      Mask.combine .union a.mask a.mask b.mask = (.ok (), b.mask) ∧
      Mask.combine .symmDiff a.mask b.mask (Mask.empty .large).fill = (.ok (), b.mask.invert) ∧
      b.mask.invert.count = 251 ∧ a.mask.count ≤ b.mask.count ∧ a.mask.count ≠ b.mask.count := by
  intro read a b
  obtain ⟨hjoin, hsweep, -, hlaws, horder, hcount⟩ := boolean_laws .large
  have hsub : a.mask.isSubset b.mask = true := by decide +kernel
  have hle : a ≤ b := (horder a b).2.1.mpr hsub
  have hinf : a ⊓ b = a := inf_eq_left.mpr hle
  have hsup : a ⊔ b = b := sup_eq_right.mpr hle
  obtain ⟨-, -, ⟨-, hcompl⟩, hmono⟩ := hcount b b
  obtain ⟨-, -, -, hsmaller⟩ := hcount a b
  have hdiff : b ∆ ⊤ = bᶜ := (hlaws b b b).2.2.2.2.2.2.2.2.2.2.2.2.2.2.2.2.1
  refine ⟨hsub, ?_, ?_, ?_, ?_, (hsmaller hsub).1, ?_⟩
  · rw [(hjoin b a b).1, hinf]
  · rw [(hjoin a a b).2.1, hsup]
  · rw [(hsweep b).1, ← hdiff]
    exact (hjoin a b ⊤).2.2
  · rw [(hsweep b).1, hcompl]
    decide +kernel
  · intro heq
    have hne : (a.mask == b.mask) = false := by decide +kernel
    rw [(hsmaller hsub).2 heq] at hne
    cases hne

end ReachableMask

end BoardObjects
