/-
# Blocks of eight words

Every mask takes eight words, whatever its capacity: as many as the large
capacity needs. A mask in memory and a mask on the wire differ in which of the
eight they use. What uses fewer works on the leading words as a list
(`Block.lead`) and writes a list back over them (`Block.overwrite`); the words
behind it stay.
-/
import BoardObjects.Capacity

namespace BoardObjects

/-- Eight words, low indices first. -/
abbrev Block := Vector Word 8

namespace Block

def zero : Block := Vector.replicate 8 0#32

/-- The first `k` words. -/
def lead (b : Block) (k : Nat) : List Word := b.toList.take k

/-- Writes `ws` over the first words; a word behind the eighth is dropped. -/
def overwrite (b : Block) (ws : List Word) : Block :=
  Vector.ofFn fun i => ws.getD i b[i]

theorem getElem_overwrite (b : Block) (ws : List Word) (k : Nat) (h : k < 8) :
    (b.overwrite ws)[k] = ws.getD k b[k] := by
  simp [overwrite]

theorem length_lead (b : Block) (k : Nat) : (b.lead k).length = min k 8 := by
  simp [lead]

theorem getElem?_lead (b : Block) (k i : Nat) :
    (b.lead k)[i]? = if i < k then b.toList[i]? else none := List.getElem?_take

theorem getElem?_toList (b : Block) {i : Nat} (h : i < 8) : b.toList[i]? = some b[i] := by
  simp [h]

theorem lead_overwrite (b : Block) (ws : List Word) (h : ws.length ≤ 8) :
    (b.overwrite ws).lead ws.length = ws := by
  apply List.ext_getElem
  · simp [length_lead, h]
  · intro k hk hk'
    simp [lead, getElem_overwrite, hk']

theorem overwrite_lead (b : Block) (k : Nat) : b.overwrite (b.lead k) = b := by
  apply Vector.ext
  intro i hi
  rw [getElem_overwrite, List.getD_eq_getElem?_getD, getElem?_lead, getElem?_toList b hi]
  split <;> rfl

/-- Blocks have the same leading words if they have the same word at each place of them. -/
theorem lead_congr {b b' : Block} {k : Nat} (h : ∀ i, (hi : i < 8) → i < k → b[i] = b'[i]) :
    b.lead k = b'.lead k := by
  apply List.ext_getElem?
  intro i
  rw [getElem?_lead, getElem?_lead]
  split
  · rename_i hk
    rcases Nat.lt_or_ge i 8 with hi | hi
    · rw [getElem?_toList b hi, getElem?_toList b' hi, h i hi hk]
    · rw [List.getElem?_eq_none (by simpa using hi), List.getElem?_eq_none (by simpa using hi)]
  · rfl

theorem getElem_eq_of_lead_eq {b b' : Block} {k i : Nat} (h : b.lead k = b'.lead k) (hi : i < 8)
    (hk : i < k) : b[i] = b'[i] := by
  have e : (b.lead k)[i]? = (b'.lead k)[i]? := by rw [h]
  rw [getElem?_lead, getElem?_lead, if_pos hk, if_pos hk, getElem?_toList b hi,
    getElem?_toList b' hi] at e
  exact Option.some.inj e

/-- What the leading words are after writing goes back to the leading words before. -/
theorem lead_overwrite_congr {b b' : Block} {k : Nat} (h : b.lead k = b'.lead k) (ws : List Word) :
    (b.overwrite ws).lead k = (b'.overwrite ws).lead k := by
  refine lead_congr fun i hi hk => ?_
  rw [getElem_overwrite, getElem_overwrite, getElem_eq_of_lead_eq h hi hk]

theorem lead_overwrite_lead (b x : Block) (k : Nat) : (b.overwrite (x.lead k)).lead k = x.lead k := by
  refine lead_congr fun i hi hk => ?_
  rw [getElem_overwrite, List.getD_eq_getElem?_getD, getElem?_lead, if_pos hk, getElem?_toList x hi,
    Option.getD_some]

/-- Changing a word that is looked up in the whole block. -/
theorem getElem_overwrite_modify (b : Block) (j : Nat) (f : Word → Word) {i : Nat} (h : i < 8) :
    (b.overwrite (b.toList.modify j f))[i] = if j = i then f b[i] else b[i] := by
  rw [getElem_overwrite, List.getD_eq_getElem?_getD, List.getElem?_modify, getElem?_toList b h]
  rfl

theorem lead_overwrite_modify (b : Block) (j k : Nat) (f : Word → Word) :
    (b.overwrite (b.toList.modify j f)).lead k = (b.lead k).modify j f := by
  apply List.ext_getElem?
  intro i
  rw [List.getElem?_modify, getElem?_lead, getElem?_lead]
  split
  · rcases Nat.lt_or_ge i 8 with hi | hi
    · rw [getElem?_toList _ hi, getElem?_toList b hi, getElem_overwrite_modify]
      rfl
    · rw [List.getElem?_eq_none (by simpa using hi), List.getElem?_eq_none (by simpa using hi)]
      rfl
  · rfl

end Block

end BoardObjects
