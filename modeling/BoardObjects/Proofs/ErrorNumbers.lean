/-
# The numbers of the causes

A cause has a number from 1 to 110, and no two causes share one (`number_bounds`,
`number_injective`). The number travels in three forms: negated at 32 bits, as it is
at 64 bits, and as an unsigned word. Each reader accepts exactly the integers that its
form gives (`ofPosix?_eq_some_iff`, `ofInt64?_eq_some_iff`, `ofUInt64?_eq_some_iff`),
so what is read is told by integers, without widths.

Three conversions could go wrong on the way. The least 32-bit integer is its own
negation, and is refused; its negation at 64 bits is no number of a cause either. An
unsigned word from the middle of its range on is read as a negative integer, and a
cause has none. Widening a signed integer keeps it.
-/
import BoardObjects.ErrorCode
import Mathlib.Data.List.Nodup

namespace BoardObjects

namespace ErrorCode

/-! ### The table -/

theorem number_bounds (e : ErrorCode) : 1 ≤ e.number.toInt ∧ e.number.toInt ≤ 110 := by
  cases e <;> decide

theorem number_injective : Function.Injective number := by
  have hnodup : (all.map number).Nodup := by decide
  intro a b h
  exact List.inj_on_of_nodup_map hnodup (mem_all a) (mem_all b) h

theorem eq_of_toInt_number {a b : ErrorCode} (h : a.number.toInt = b.number.toInt) : a = b :=
  number_injective (Int32.toInt_inj.mp h)

/-! ### The forms of a number -/

/-- Only the least integer has no negation at 32 bits. -/
theorem toInt_neg_of_ne {v : Int32} (h : v ≠ Int32.minValue) : (-v).toInt = -v.toInt := by
  have hlow : v.toInt ≠ Int32.minValue.toInt := fun hv => h (Int32.toInt_inj.mp hv)
  have hmin : Int32.minValue.toInt = -2147483648 := rfl
  have hle : Int32.minValue.toInt ≤ v.toInt := v.minValue_le_toInt
  have hge : v.toInt ≤ 2147483647 := v.toInt_le
  rw [Int32.toInt_neg]
  apply Int.bmod_eq_of_le <;> omega

theorem number_ne_minValue (e : ErrorCode) : e.number ≠ Int32.minValue := by
  cases e <;> decide

theorem toInt_toPosix (e : ErrorCode) : e.toPosix.toInt = -e.number.toInt :=
  toInt_neg_of_ne e.number_ne_minValue

theorem toInt_toInt64 (e : ErrorCode) : e.toInt64.toInt = e.number.toInt :=
  Int32.toInt_toInt64 _

/-- An unsigned word in the upper half of its range is read as a negative integer. -/
theorem toInt_toInt64_word (u : UInt64) :
    u.toInt64.toInt = if u.toNat < 9223372036854775808 then (u.toNat : Int)
      else u.toNat - 18446744073709551616 := by
  show u.toBitVec.toInt = _
  rw [BitVec.toInt_eq_toNat_cond]
  simp only [UInt64.toNat_toBitVec]
  split <;> split <;> omega

theorem toNat_toUInt64 (e : ErrorCode) : (e.toUInt64.toNat : Int) = e.number.toInt := by
  have hword := toInt_toInt64_word e.toUInt64
  have hback : e.toUInt64.toInt64 = e.toInt64 := Int64.toInt64_toUInt64 _
  have hlt : e.toUInt64.toNat < 18446744073709551616 := e.toUInt64.toNat_lt
  rw [hback, toInt_toInt64] at hword
  obtain ⟨hpos, -⟩ := e.number_bounds
  split at hword <;> omega

/-! ### Reading a number -/

theorem toInt_of_ofInt64? {v : Int64} {e : ErrorCode} (h : ofInt64? v = some e) :
    v.toInt = e.number.toInt := by
  have hv : e.toInt64 = v := by simpa using List.find?_some h
  rw [← hv, toInt_toInt64]

theorem ofInt64?_eq_some_iff {v : Int64} {e : ErrorCode} :
    ofInt64? v = some e ↔ v.toInt = e.number.toInt := by
  refine ⟨toInt_of_ofInt64?, fun h => ?_⟩
  cases hf : ofInt64? v with
  | none =>
    -- the table has every cause, so the search would have met this one
    refine absurd ?_ (List.find?_eq_none.mp hf e (mem_all e))
    rw [beq_iff_eq, ← Int64.toInt_inj, toInt_toInt64, h]
  | some e' => rw [eq_of_toInt_number ((toInt_of_ofInt64? hf).symm.trans h)]

theorem ofUInt64?_eq_some_iff {u : UInt64} {e : ErrorCode} :
    ofUInt64? u = some e ↔ (u.toNat : Int) = e.number.toInt := by
  have hlt : u.toNat < 18446744073709551616 := u.toNat_lt
  obtain ⟨hpos, hle⟩ := e.number_bounds
  rw [ofUInt64?, ofInt64?_eq_some_iff, toInt_toInt64_word]
  split <;> omega

theorem ofPosix?_eq_some_iff {v : Int32} {e : ErrorCode} :
    ofPosix? v = some e ↔ v.toInt = -e.number.toInt := by
  obtain ⟨hpos, hle⟩ := e.number_bounds
  have hzero : (0 : Int32).toInt = 0 := rfl
  have hmin : Int32.minValue.toInt = -2147483648 := rfl
  unfold ofPosix? negate?
  by_cases hv : 0 ≤ v
  · have hv' := Int32.le_iff_toInt_le.mp hv
    rw [if_pos hv]
    exact iff_of_false (fun h => by cases h) (by omega)
  · rw [if_neg hv]
    by_cases hm : v = Int32.minValue
    · rw [if_pos hm, hm]
      exact iff_of_false (fun h => by cases h) (by omega)
    · rw [if_neg hm, Option.bind_some, ofInt64?_eq_some_iff, Int32.toInt_toInt64,
        toInt_neg_of_ne hm]
      omega

/-- For a negative integer, reading it and reading its negation at 64 bits is the same,
also for the least one, whose negation does not fit 32 bits. -/
theorem ofPosix?_eq_ofInt64?_neg {v : Int32} (h : v < 0) : ofPosix? v = ofInt64? (-v.toInt64) := by
  have hneg : (-v.toInt64).toInt = -v.toInt := by
    have hle : Int32.minValue.toInt ≤ v.toInt := v.minValue_le_toInt
    have hmin : Int32.minValue.toInt = -2147483648 := rfl
    have hlt := Int32.lt_iff_toInt_lt.mp h
    have hzero : (0 : Int32).toInt = 0 := rfl
    rw [Int64.toInt_neg, Int32.toInt_toInt64]
    apply Int.bmod_eq_of_le <;> omega
  ext e
  rw [ofPosix?_eq_some_iff, ofInt64?_eq_some_iff, hneg]
  omega

/-- **Numbers and causes convert without loss or confusion.** At each width a reader
gives a cause exactly for the number which that cause has in this form. So the
negative form is read neither from zero or a positive integer, nor from the least
integer, nor from one that no cause has; it is negative and belongs to one cause only.
An unsigned word that does not fit a signed one is read as nothing. And reading a
negative integer is reading its negation at 64 bits. -/
theorem numbers_exact :
    (∀ (v : Int32) (e : ErrorCode), ofPosix? v = some e ↔ e.toPosix = v) ∧
    (∀ v : Int32, 0 ≤ v → ofPosix? v = none) ∧
    ofPosix? Int32.minValue = none ∧
    (∀ v : Int32, v ∉ all.map toPosix → ofPosix? v = none) ∧
    Function.Injective toPosix ∧ (∀ e : ErrorCode, e.toPosix < 0) ∧
    (∀ (v : Int64) (e : ErrorCode), ofInt64? v = some e ↔ e.toInt64 = v) ∧
    (∀ (u : UInt64) (e : ErrorCode), ofUInt64? u = some e ↔ e.toUInt64 = u) ∧
    (∀ u : UInt64, 0x8000000000000000 ≤ u → ofUInt64? u = none) ∧
    ∀ v : Int32, v < 0 → ofPosix? v = ofInt64? (-v.toInt64) := by
  have hposix : ∀ (v : Int32) (e : ErrorCode), ofPosix? v = some e ↔ e.toPosix = v := by
    intro v e
    rw [ofPosix?_eq_some_iff, ← Int32.toInt_inj, toInt_toPosix, eq_comm]
  have hrefused : ∀ v : Int32, (∀ e : ErrorCode, e.toPosix ≠ v) → ofPosix? v = none := by
    intro v hv
    rw [Option.eq_none_iff_forall_ne_some]
    exact fun e he => hv e ((hposix v e).mp he)
  refine ⟨hposix, fun v hv => hrefused v fun e he => ?_, rfl, fun v hv => hrefused v fun e he => ?_,
    fun a b hab => ?_, toPosix_neg, fun v e => ?_, fun u e => ?_, fun u hu => ?_,
    fun v => ofPosix?_eq_ofInt64?_neg⟩
  · rw [← he] at hv
    exact Int32.not_le.mpr e.toPosix_neg hv
  · exact hv (he ▸ List.mem_map_of_mem (mem_all e))
  · exact Option.some.inj (((hposix b.toPosix a).mpr hab).symm.trans ((hposix _ b).mpr rfl))
  · rw [ofInt64?_eq_some_iff, ← Int64.toInt_inj, toInt_toInt64, eq_comm]
  · rw [ofUInt64?_eq_some_iff, ← UInt64.toNat_inj, ← Int.natCast_inj, toNat_toUInt64, eq_comm]
  · rw [Option.eq_none_iff_forall_ne_some]
    intro e he
    have hnum := ofUInt64?_eq_some_iff.mp he
    have hhalf : 9223372036854775808 ≤ u.toNat := UInt64.le_iff_toNat_le.mp hu
    obtain ⟨-, hle⟩ := e.number_bounds
    omega

/-- The number 22 is read at each width, negated at 32 bits only; the unsigned word with
the bits of -22 is read as nothing, and so are -3, which no cause has, and the least
integer, at either width. -/
theorem numbers_exact_invalid :
    ofPosix? (-22) = some invalidArgument ∧ ofPosix? 22 = none ∧ ofPosix? (-3) = none ∧
      ofPosix? Int32.minValue = none ∧ ofInt64? 22 = some invalidArgument ∧
      ofUInt64? 22 = some invalidArgument ∧ ofUInt64? 0xffffffffffffffea = none ∧
      ofInt64? (-Int32.minValue.toInt64) = none := by
  obtain ⟨hposix, hpositive, hmin, hunlisted, -, -, hint, hword, hhigh, hneg⟩ := numbers_exact
  exact ⟨(hposix (-22) invalidArgument).mpr rfl, hpositive 22 (by decide),
    hunlisted (-3) (by decide), hmin, (hint 22 invalidArgument).mpr rfl,
    (hword 22 invalidArgument).mpr rfl, hhigh _ (by decide),
    (hneg Int32.minValue (by decide)).symm.trans hmin⟩

end ErrorCode

end BoardObjects
