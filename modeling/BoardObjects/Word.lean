/-
# Words

Masks are stored in words of 32 bits. A word travels as four bytes, low byte
first, and is printed as eight hexadecimal digits.
-/

namespace BoardObjects

/-- The unit of storage of a mask. -/
abbrev Word := BitVec 32

namespace Word

def width : Nat := 32

/-- The word whose only set bit is bit `k`. -/
def single (k : Nat) : Word := 1#32 <<< k

def popCount (w : Word) : Nat := w.cpop.toNat

/-- The bits of `a` that are not in `b`. -/
def without (a b : Word) : Word := a &&& ~~~b

/-- The four bytes of a word, low byte first. -/
def toBytes (w : Word) : List UInt8 :=
  (List.range 4).map fun k => UInt8.ofBitVec (w.extractLsb' (8 * k) 8)

/-- The word with the given bytes, low byte first; bytes from the fifth on do
not fit and are lost. -/
def ofBytes : List UInt8 → Word
  | [] => 0#32
  | b :: bs => (ofBytes bs <<< 8) ||| b.toBitVec.setWidth 32

def hexDigit (d : Nat) : Char :=
  (d % 16).digitChar

/-- The eight hexadecimal digits of a word, high digit first. -/
def hex (w : Word) : String :=
  String.ofList ((List.range 8).reverse.map fun k => hexDigit (w.toNat >>> (4 * k)))

theorem getLsbD_single (k j : Nat) : (single k).getLsbD j = (decide (j < 32) && decide (j = k)) := by
  by_cases h : j = k <;> by_cases hj : j < 32 <;> simp [single, h, hj]
  omega

theorem getLsbD_without (a b : Word) (k : Nat) :
    (a.without b).getLsbD k = (a.getLsbD k && !b.getLsbD k) := by
  rw [without, BitVec.getLsbD_and, BitVec.getLsbD_not]
  by_cases hk : k < 32
  · rw [decide_eq_true hk, Bool.true_and]
  · rw [BitVec.getLsbD_of_ge a k (Nat.not_lt.mp hk), Bool.false_and, Bool.false_and]

theorem popCount_allOnes : popCount (BitVec.allOnes 32) = 32 := by
  rw [popCount, BitVec.cpop_allOnes]
  rfl

theorem ofBool_ne_zero (b : Bool) : (BitVec.setWidth 32 (BitVec.ofBool b) != 0#32) = b := by
  cases b <;> decide

/-- Moving a bit to the bottom and masking reads it. -/
theorem shiftRight_and_one_ne_zero (w : Word) (k : Nat) :
    ((w >>> k) &&& 1#32 != 0#32) = w.getLsbD k := by
  have e : (w >>> k) &&& 1#32 = BitVec.setWidth 32 (BitVec.ofBool (w.getLsbD k)) := by
    apply BitVec.eq_of_getLsbD_eq
    intro j hj
    by_cases h : j = 0 <;> simp [h, BitVec.getLsbD_one, BitVec.getLsbD_ofBool]
  rw [e, ofBool_ne_zero]

/-- Masking with a single bit reads it in its place. -/
theorem and_single_ne_zero (w : Word) {k : Nat} (h : k < 32) :
    (w &&& single k != 0#32) = w.getLsbD k := by
  by_cases hw : w.getLsbD k = true
  · have hne : w &&& single k ≠ 0#32 := by
      intro e
      have hk : (w &&& single k).getLsbD k = true := by simp [getLsbD_single, hw, h]
      rw [e] at hk
      simp at hk
    simp [hne, hw]
  · have hf : w.getLsbD k = false := by simpa using hw
    have he : w &&& single k = 0#32 := by
      apply BitVec.eq_of_getLsbD_eq
      intro j hj
      rw [BitVec.getLsbD_and, getLsbD_single]
      by_cases hjk : j = k
      · subst hjk; rw [hf]; simp
      · simp [hjk]
    rw [he, hf]
    rfl

theorem length_toBytes (w : Word) : w.toBytes.length = 4 := by simp [toBytes]

end Word

end BoardObjects
