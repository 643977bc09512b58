/-
# Masks that compare as equal cannot be told apart

Masks are compared by the number of indices and by the words in use. `Mask.trim` is
what is left of a mask when the words out of use are taken for zero. Where the number
of indices fixes what a mask stores about itself, masks compare as equal exactly if
their trimmed forms are the same mask (`beq_iff_trim`).

No query reads more than the trimmed form (`ask_trim`), and a change of the trimmed form
has the same verdict and leaves a mask of the same trimmed form, refusals included. So a
step of a store of trimmed masks looks like the step of the store (`step_trim`), whether
or not its masks are clean; and by induction programs run in lockstep from two stores of
the same trimmed form (`lockstep_of_trim_eq`).

Where masks are clean, the bits below the number of indices decide on equality, so there
it is what `get` shows, and inclusion in both directions (`beq_iff_get`,
`beq_iff_isSubset`).
-/
import BoardObjects.Proofs.Mask.Runs
import Mathlib.Data.List.Forall2

namespace BoardObjects

namespace Mask

/-! ### What comparison sees -/

/-- The mask with zero for every word out of use. -/
def trim (m : Mask) : Mask := { m with block := Block.zero.overwrite m.words }

theorem bits_trim (m : Mask) : m.trim.bits = m.bits := rfl

theorem words_trim (m : Mask) : m.trim.words = m.words :=
  Block.lead_overwrite_lead Block.zero m.block m.wordCount

theorem trim_trim (m : Mask) : m.trim.trim = m.trim := by
  rw [trim, words_trim]
  rfl

/-- Masks with the same words in use are the same once they are trimmed. -/
theorem trim_eq_trim {a b : Mask} (hf : a = { b with block := a.block })
    (hw : a.words = b.words) : a.trim = b.trim := by
  rw [trim, trim, hw, hf]

theorem beq_of_trim_eq {a b : Mask} (h : a.trim = b.trim) : (a == b) = true := by
  rw [beq_iff, ← a.words_trim, ← a.bits_trim, h, b.words_trim, b.bits_trim]
  exact ⟨rfl, rfl⟩

/-- Masks compare as equal if nothing is left to tell them apart once they are trimmed. -/
theorem beq_iff_trim {a b : Mask} (ha : a.Formed) (hb : b.Formed) :
    (a == b) = true ↔ a.trim = b.trim := by
  refine ⟨fun h => ?_, beq_of_trim_eq⟩
  obtain ⟨hc, hw⟩ := (beq_iff a b).mp h
  exact trim_eq_trim (ha.eq_of_bits_eq hb hc) hw

/-! ### Queries -/

theorem get_trim (m : Mask) (i : UInt8) : m.trim.get i = m.get i := by
  rw [get, words_trim, get]
  rfl

theorem next?_trim (m : Mask) (i : UInt8) : m.trim.next? i = m.next? i := by
  rw [next?, words_trim, next?]
  rfl

theorem lowest?_trim (m : Mask) : m.trim.lowest? = m.lowest? := by
  rw [lowest?, words_trim, lowest?]

theorem highest?_trim (m : Mask) : m.trim.highest? = m.highest? := by
  rw [highest?, words_trim, highest?]
  rfl

theorem wordsText_trim (m : Mask) : m.trim.wordsText = m.wordsText := by
  rw [wordsText, words_trim, wordsText]

theorem text_trim (m : Mask) : m.trim.text = m.text := by
  unfold text
  rw [wordsText_trim, bits_trim]

theorem prettyText_trim (m : Mask) : m.trim.prettyText = m.prettyText := by
  unfold prettyText
  rw [wordsText_trim, bits_trim]

theorem Cursor.take_trim (m : Mask) : ∀ (k : Nat) (up : Option UInt8),
    (⟨m.trim, up⟩ : Cursor).take k = (⟨m, up⟩ : Cursor).take k
  | 0, _ => rfl
  | _ + 1, none => rfl
  | k + 1, some i => by
    show i :: (⟨m.trim, m.trim.next? i⟩ : Cursor).take k = i :: (⟨m, m.next? i⟩ : Cursor).take k
    rw [take_trim m k, next?_trim]

theorem indices_trim (m : Mask) : m.trim.indices = m.indices := by
  show (⟨m.trim, m.trim.lowest?⟩ : Cursor).take m.size = (⟨m, m.lowest?⟩ : Cursor).take m.size
  rw [Cursor.take_trim, lowest?_trim]

theorem summary_trim (m : Mask) : m.trim.summary = m.summary := by
  have hzero : m.trim.isZero = m.isZero := by rw [isZero, words_trim, isZero]
  have hfull : m.trim.isFull = m.isFull := by
    rw [isFull, words_trim, isFull]
    rfl
  have hcount : m.trim.count = m.count := by rw [count, words_trim, count]
  rw [summary, words_trim, hzero, hfull, hcount, lowest, lowest?_trim, highest, highest?_trim,
    indices_trim, text_trim]
  rfl

/-- No query reads a word out of use. -/
theorem ask_trim (m : Mask) : ∀ q, m.trim.ask q = m.ask q
  | .summary => congrArg Answer.summary m.summary_trim
  | .get i => congrArg Answer.truth (m.get_trim i)
  | .next i => congrArg Answer.index (m.next?_trim i)
  | .bits => congrArg Answer.bits (List.map_congr_left fun i _ => m.get_trim i)
  | .nexts => congrArg Answer.nexts (List.map_congr_left fun i _ => m.next?_trim i)
  | .indices => congrArg Answer.indices m.indices_trim
  | .text => congrArg Answer.text m.text_trim
  | .prettyText => congrArg Answer.text m.prettyText_trim

theorem isSubset_trim (a b : Mask) : a.trim.isSubset b.trim = a.isSubset b := by
  rw [isSubset, words_trim, words_trim, isSubset]
  rfl

theorem sizesEqual_trim (a b : Mask) : a.trim.sizesEqual b.trim = a.sizesEqual b := rfl

theorem beq_trim (a b : Mask) : (a.trim == b.trim) = (a == b) := by
  rw [Bool.eq_iff_iff, beq_iff, beq_iff, words_trim, words_trim]
  rfl

theorem exportTo_trim (m : Mask) (bits : UInt8) (w : WireMask) :
    m.trim.exportTo bits w = m.exportTo bits w := by
  rw [exportTo, words_trim, exportTo]
  rfl

/-! ### Changes -/

theorem withWords_trim (m : Mask) (ws : List Word) :
    (m.trim.withWords ws).trim = (m.withWords ws).trim :=
  trim_eq_trim rfl (Block.lead_overwrite_congr m.words_trim ws)

theorem normalize_trim (m : Mask) : m.trim.normalize.trim = m.normalize.trim := by
  rw [normalize, words_trim]
  exact m.withWords_trim _

theorem sweep_trim (m : Mask) (f : Sweep) : (m.trim.sweep f).trim = (m.sweep f).trim := by
  cases f with
  | clear =>
    rw [sweep, clear, words_trim]
    exact m.withWords_trim _
  | fill =>
    rw [sweep, fill, words_trim]
    exact m.withWords_trim _
  | invert =>
    rw [sweep, invert, words_trim]
    exact m.withWords_trim _

theorem load_trim (m : Mask) (w : WireMask) : (m.trim.load w).trim = (m.load w).trim := by
  rw [load, load, ← normalize_trim, withWords_trim, normalize_trim]
  rfl

theorem importFrom_trim (m : Mask) (bits : UInt8) (w : WireMask) :
    (m.trim.importFrom bits w).map trim = (m.importFrom bits w).map trim := by
  unfold importFrom
  rw [bits_trim]
  split
  · exact congrArg (Prod.mk _) (m.load_trim w)
  · exact congrArg (Prod.mk _) m.trim_trim

theorem assignBit_trim (m : Mask) (i : UInt8) (v : Bool) :
    (m.trim.assignBit i v).map trim = (m.assignBit i v).map trim := by
  have hset : Words.set m.trim.size m.trim.words i.toNat v = Words.set m.size m.words i.toNat v := by
    rw [words_trim]
    rfl
  unfold assignBit
  rw [hset]
  split <;> exact congrArg (Prod.mk _) (m.withWords_trim _)

/-- A word is changed where it is found among all eight, which are not trimmed. -/
theorem modify_trim (m : Mask) (k : Nat) (f : Word → Word) :
    (m.trim.withWords (m.trim.block.toList.modify k f)).trim =
      (m.withWords (m.block.toList.modify k f)).trim := by
  refine trim_eq_trim rfl ?_
  rw [words_modify, words_modify, words_trim]

theorem toggleBit_trim (m : Mask) (i : UInt8) :
    (m.trim.toggleBit i).map trim = (m.toggleBit i).map trim := by
  unfold toggleBit
  rw [bits_trim]
  split
  · exact congrArg (Prod.mk _) (m.modify_trim _ _)
  · exact congrArg (Prod.mk _) m.trim_trim

theorem toggleOthers_trim (m : Mask) (i : UInt8) :
    (m.trim.toggleOthers i).map trim = (m.toggleOthers i).map trim := by
  unfold toggleOthers
  rw [bits_trim]
  split
  · refine congrArg (Prod.mk _) ?_
    rw [← normalize_trim, Words.flipOthers, modify_trim, normalize_trim]
    rfl
  · exact congrArg (Prod.mk _) m.trim_trim

theorem edit_trim (m : Mask) (i : UInt8) :
    ∀ f, (m.trim.edit i f).map trim = (m.edit i f).map trim
  | .set => m.assignBit_trim i true
  | .clear => m.assignBit_trim i false
  | .toggle => m.toggleBit_trim i
  | .toggleOthers => m.toggleOthers_trim i

theorem merge_trim (op : SetOp) (dst a b : Mask) :
    (merge op dst.trim a.trim b.trim).trim = (merge op dst a b).trim := by
  rw [merge, words_trim, words_trim, words_trim]
  exact dst.withWords_trim _

theorem combine_trim (op : SetOp) (dst a b : Mask) :
    (combine op dst.trim a.trim b.trim).map trim = (combine op dst a b).map trim := by
  unfold combine
  rw [sizesEqual_trim, sizesEqual_trim]
  split
  · exact congrArg (Prod.mk _) (merge_trim op dst a b)
  · exact congrArg (Prod.mk _) dst.trim_trim

theorem copy_trim (dst src : Mask) :
    (dst.trim.copy src.trim).map trim = (dst.copy src).map trim := by
  unfold copy
  rw [sizesEqual_trim, words_trim]
  split
  · exact congrArg (Prod.mk _) (dst.withWords_trim _)
  · exact congrArg (Prod.mk _) dst.trim_trim

end Mask

/-! ### Registers -/

namespace SizedMask

variable {c : Capacity}

def trim (s : SizedMask c) : SizedMask c := ⟨s.mask.trim, s.bits_eq⟩

theorem trim_trim (s : SizedMask c) : s.trim.trim = s.trim := eq_of_mask_eq s.mask.trim_trim

theorem load_trim (s : SizedMask c) (w : WireMask) : (s.trim.load w).trim = (s.load w).trim :=
  eq_of_mask_eq (s.mask.load_trim w)

theorem sweep_trim (s : SizedMask c) (f : Mask.Sweep) :
    (s.trim.sweep f).trim = (s.sweep f).trim := by
  refine eq_of_mask_eq ?_
  show (s.trim.sweep f).mask.trim = (s.sweep f).mask.trim
  rw [mask_sweep, mask_sweep]
  exact s.mask.sweep_trim f

theorem edit_trim (s : SizedMask c) (i : UInt8) (f : Mask.Edit) :
    (s.trim.edit i f).map trim = (s.edit i f).map trim := by
  have hmask : ((s.trim.edit i f).map mask).map Mask.trim =
      ((s.edit i f).map mask).map Mask.trim := by
    rw [mask_edit, mask_edit]
    exact s.mask.edit_trim i f
  obtain ⟨hverdict, hleft⟩ := Prod.mk.inj hmask
  exact Prod.ext hverdict (eq_of_mask_eq hleft)

theorem combine_trim (op : SetOp) (dst a b : SizedMask c) :
    (combine op dst.trim a.trim b.trim).trim = (combine op dst a b).trim :=
  eq_of_mask_eq (Mask.merge_trim op dst.mask a.mask b.mask)

end SizedMask

namespace Mask

namespace Register

def trim : Register → Register
  | generic m => .generic m.trim
  | sized c s => .sized c s.trim

theorem mask_trim (r : Register) : r.trim.mask = r.mask.trim := by cases r <;> rfl

theorem trim_trim (r : Register) : r.trim.trim = r.trim := by
  cases r with
  | generic m => exact congrArg generic m.trim_trim
  | sized c s => exact congrArg (sized c) s.trim_trim

theorem sweep_trim (r : Register) (f : Sweep) : (r.trim.sweep f).trim = (r.sweep f).trim := by
  cases r with
  | generic m => exact congrArg generic (m.sweep_trim f)
  | sized c s => exact congrArg (sized c) (s.sweep_trim f)

theorem edit_trim (r : Register) (i : UInt8) (f : Edit) :
    (r.trim.edit i f).map trim = (r.edit i f).map trim := by
  cases r with
  | generic m => exact congrArg (Change.map generic) (m.edit_trim i f)
  | sized c s => exact congrArg (Change.map (sized c)) (s.edit_trim i f)

theorem combine?_trim (op : SetOp) (d x y : Register) :
    (combine? op d.trim x.trim y.trim).map (Change.map trim) =
      (combine? op d x y).map (Change.map trim) := by
  cases d with
  | generic d =>
    have hcombine : (Mask.combine op d.trim x.trim.mask y.trim.mask).map Mask.trim =
        (Mask.combine op d x.mask y.mask).map Mask.trim := by
      rw [mask_trim, mask_trim]
      exact Mask.combine_trim op d x.mask y.mask
    exact congrArg (fun o => some (Change.map generic o)) hcombine
  | sized c d =>
    cases x with
    | generic x => cases y <;> rfl
    | sized c₁ x =>
      cases y with
      | generic y => rfl
      | sized c₂ y =>
        by_cases h : c₁ = c ∧ c₂ = c
        · obtain ⟨rfl, rfl⟩ := h
          simp only [combine?, trim, and_self, dite_true, Option.map_some]
          exact congrArg (fun z => some (Except.ok (), sized _ z)) (SizedMask.combine_trim op d x y)
        · simp only [combine?, trim, h, dite_false, Option.map_none]

end Register

/-! ### One step -/

namespace Store

/-- The store with zero for every word out of use of its masks. -/
def trim (s : Store) : Store := s.mapMasks Register.trim

theorem trim_masks (s : Store) (n : String) : s.trim.masks n = (s.masks n).map Register.trim := rfl

theorem trim_wires (s : Store) (c : String) : s.trim.wires c = s.wires c := rfl

theorem trim_putMask (s : Store) (n : String) (r : Register) :
    (s.putMask n r).trim = s.trim.putMask n r.trim := s.mapMasks_putMask Register.trim n r

theorem trim_trim (s : Store) : s.trim.trim = s.trim := by
  refine congrArg (Store.mk · s.wires) (funext fun n => ?_)
  rw [trim_masks, Option.map_map]
  exact congrArg (Option.map · (s.masks n)) (funext Register.trim_trim)

end Store

/-- What a step looks like when no word out of use is seen. -/
def seen (o : Reply × Store) : Reply × Store := (o.1, o.2.trim)

theorem seen_trim (s : Store) (a : Reply) : seen (a, s.trim) = seen (a, s) :=
  congrArg (Prod.mk a) s.trim_trim

theorem seen_putMask (s : Store) (n : String) {r r' : Register} (h : r'.trim = r.trim) (a : Reply) :
    seen (a, s.trim.putMask n r') = seen (a, s.putMask n r) := by
  refine congrArg (Prod.mk a) ?_
  show (s.trim.putMask n r').trim = (s.putMask n r).trim
  rw [Store.trim_putMask, Store.trim_putMask, Store.trim_trim, h]

theorem seen_settle (s : Store) (n : String) {o o' : Change Register}
    (h : o'.map Register.trim = o.map Register.trim) :
    seen (settle s.trim n o') = seen (settle s n o) := by
  obtain ⟨hverdict, hleft⟩ := Prod.mk.inj h
  rw [settle, settle, hverdict]
  exact seen_putMask s n hleft _

theorem seen_hold (s : Store) (n : String) (x : Except ErrorCode Mask) :
    seen (hold s.trim n x) = seen (hold s n x) := by
  cases x with
  | error e => exact seen_trim s _
  | ok m => exact seen_putMask s n rfl _

theorem step_trim (s : Store) (k : Command) : seen (step s.trim k) = seen (step s k) := by
  cases k with
  | putWire c w =>
    exact congrArg (fun t => (Reply.done, Store.putWire t c w)) s.trim_trim
  | wireBytes c =>
    simp only [step, Store.trim_wires]
    cases s.wires c <;> exact seen_trim s _
  | create m bits c =>
    cases c with
    | none => exact seen_hold s m _
    | some c =>
      simp only [step, Store.trim_wires]
      cases s.wires c with
      | none => exact seen_trim s _
      | some w => exact seen_hold s m _
  | createSized m c => exact seen_putMask s m rfl _
  | createSizedFrom m c w =>
    simp only [step, Store.trim_wires]
    cases s.wires w with
    | none => exact seen_trim s _
    | some w => exact seen_putMask s m rfl _
  | clone m a =>
    simp only [step, Store.trim_masks]
    cases s.masks a with
    | none => exact seen_trim s _
    | some r => exact seen_putMask s m r.trim_trim _
  | forget m a =>
    simp only [step, Store.trim_masks]
    cases s.masks a with
    | none => exact seen_trim s _
    | some r =>
      refine seen_putMask s m ?_ _
      rw [r.mask_trim]
      exact congrArg Register.generic r.mask.trim_trim
  | ask m q =>
    simp only [step, Store.trim_masks]
    cases s.masks m with
    | none => exact seen_trim s _
    | some r =>
      simp only [Option.map_some, r.mask_trim, ask_trim]
      exact seen_trim s _
  | isSubset a b | sizesEqual a b | equal a b =>
    simp only [step, Store.trim_masks]
    cases s.masks a with
    | none => exact seen_trim s _
    | some x =>
      cases s.masks b with
      | none => exact seen_trim s _
      | some y =>
        simp only [Option.map_some, Register.mask_trim, isSubset_trim, sizesEqual_trim, beq_trim]
        exact seen_trim s _
  | sweep f m =>
    simp only [step, Store.trim_masks]
    cases s.masks m with
    | none => exact seen_trim s _
    | some r => exact seen_putMask s m (r.sweep_trim f) _
  | edit f m i =>
    simp only [step, Store.trim_masks]
    cases s.masks m with
    | none => exact seen_trim s _
    | some r => exact seen_settle s m (r.edit_trim i f)
  | importFrom m bits c =>
    simp only [step, Store.trim_masks, Store.trim_wires]
    cases s.masks m with
    | none => exact seen_trim s _
    | some r =>
      cases r with
      | sized cap x => exact seen_trim s _
      | generic x =>
        cases s.wires c with
        | none => exact seen_trim s _
        | some w =>
          exact seen_settle s m (congrArg (Change.map Register.generic) (x.importFrom_trim bits w))
  | load m c =>
    simp only [step, Store.trim_masks, Store.trim_wires]
    cases s.masks m with
    | none => exact seen_trim s _
    | some r =>
      cases r with
      | generic x => exact seen_trim s _
      | sized cap x =>
        cases s.wires c with
        | none => exact seen_trim s _
        | some w =>
          have hload : (Register.sized cap (x.trim.load w)).trim =
              (Register.sized cap (x.load w)).trim :=
            congrArg (Register.sized cap) (x.load_trim w)
          exact seen_putMask s m hload _
  | exportTo m bits c =>
    simp only [step, Store.trim_masks, Store.trim_wires]
    cases s.masks m with
    | none => exact seen_trim s _
    | some r =>
      cases s.wires c with
      | none => exact seen_trim s _
      | some w =>
        simp only [Option.map_some, r.mask_trim, exportTo_trim]
        exact congrArg (fun t : Store => (_, t.putWire c _)) s.trim_trim
  | combine op m a b =>
    simp only [step, Store.trim_masks]
    cases s.masks m with
    | none => exact seen_trim s _
    | some d =>
      cases s.masks a with
      | none => exact seen_trim s _
      | some x =>
        cases s.masks b with
        | none => exact seen_trim s _
        | some y =>
          have hcombine := Register.combine?_trim op d x y
          simp only [Option.map_some]
          -- whether registers can be joined depends on their forms, which trimming keeps
          cases ho : Register.combine? op d x y with
          | none =>
            rw [ho, Option.map_none, Option.map_eq_none_iff] at hcombine
            rw [hcombine]
            exact seen_trim s _
          | some o =>
            rw [ho, Option.map_some, Option.map_eq_some_iff] at hcombine
            obtain ⟨o', ho', hmap⟩ := hcombine
            rw [ho']
            exact seen_settle s m hmap
  | copy m a =>
    simp only [step, Store.trim_masks]
    cases s.masks m with
    | none => exact seen_trim s _
    | some d =>
      cases d with
      | sized cap d => exact seen_trim s _
      | generic d =>
        cases s.masks a with
        | none => exact seen_trim s _
        | some x =>
          have hcopy : (d.trim.copy x.trim.mask).map trim = (d.copy x.mask).map trim := by
            rw [x.mask_trim]
            exact d.copy_trim x.mask
          exact seen_settle s m (congrArg (Change.map Register.generic) hcopy)

/-! ### Stores that are alike -/

/-- Registers of one form whose masks compare as equal. -/
inductive Register.Alike : Register → Register → Prop where
  | generic {a b : Mask} (h : (a == b) = true) : Alike (.generic a) (.generic b)
  | sized {c : Capacity} {x y : SizedMask c} (h : (x.mask == y.mask) = true) :
    Alike (.sized c x) (.sized c y)

theorem Register.alike_of_trim_eq {r r' : Register} (h : r.trim = r'.trim) : r.Alike r' := by
  cases r with
  | generic a =>
    cases r' with
    | generic b => exact .generic (beq_of_trim_eq (Register.generic.inj h))
    | sized => cases h
  | sized c x =>
    cases r' with
    | generic => cases h
    | sized d y =>
      obtain ⟨rfl, hxy⟩ := Register.sized.inj h
      exact .sized (beq_of_trim_eq (congrArg SizedMask.mask (eq_of_heq hxy)))

/-- The same wire masks, and alike masks under every name. -/
structure Store.Alike (s t : Store) : Prop where
  masks : ∀ n, Option.Rel Register.Alike (s.masks n) (t.masks n)
  wires : s.wires = t.wires

theorem Store.alike_of_trim_eq {s t : Store} (h : s.trim = t.trim) : s.Alike t := by
  refine ⟨fun n => ?_, (congrArg Store.wires h :)⟩
  have hn : (s.masks n).map Register.trim = (t.masks n).map Register.trim := by
    rw [← trim_masks, h, trim_masks]
  cases hs : s.masks n with
  | none =>
    rw [hs, Option.map_none, eq_comm, Option.map_eq_none_iff] at hn
    rw [hn]
    exact .none
  | some r =>
    rw [hs, Option.map_some, eq_comm, Option.map_eq_some_iff] at hn
    obtain ⟨r', hr', htrim⟩ := hn
    rw [hr']
    exact .some (Register.alike_of_trim_eq htrim.symm)

/-- Two runs give the same answers, step by step, and have alike stores after each. -/
def Lockstep (os os' : List (Reply × Store)) : Prop :=
  List.Forall₂ (fun o o' => o.1 = o'.1 ∧ o.2.Alike o'.2) os os'

theorem lockstep_of_trim_eq {s t : Store} (h : s.trim = t.trim) (ks : List Command) :
    Lockstep (trace s ks) (trace t ks) := by
  induction ks generalizing s t with
  | nil => exact .nil
  | cons k ks ih =>
    have hstep : seen (step s k) = seen (step t k) := by rw [← step_trim s, h, step_trim]
    obtain ⟨hanswer, hstore⟩ := Prod.mk.inj hstep
    exact .cons ⟨hanswer, Store.alike_of_trim_eq hstore⟩ (ih hstore)

/-! ### Equality of clean masks -/

/-- Equality is what `get` shows, at any byte. -/
theorem beq_iff_get {a b : Mask} (ha : a.Clean) (hb : b.Clean) :
    (a == b) = true ↔ a.bits = b.bits ∧ ∀ i, a.get i = b.get i := by
  constructor
  · intro h
    have htrim := (beq_iff_trim ha.formed hb.formed).mp h
    rw [← a.bits_trim, htrim]
    refine ⟨b.bits_trim, fun i => ?_⟩
    rw [← a.get_trim, htrim, b.get_trim]
  · rintro ⟨hbits, hget⟩
    rw [eq_of_get_eq ha hb hbits hget]
    exact (beq_iff b b).mpr ⟨rfl, rfl⟩

/-- Equality is inclusion in both directions. -/
theorem beq_iff_isSubset {a b : Mask} (ha : a.Formed) (hb : b.Formed) :
    (a == b) = true ↔ a.isSubset b = true ∧ b.isSubset a = true := by
  rw [beq_iff, isSubset_iff ha hb, isSubset_iff hb ha]
  constructor
  · rintro ⟨hc, hw⟩
    have hbit : ∀ i, a.bit i = b.bit i := fun i => by rw [bit, hw, bit]
    exact ⟨⟨hc, fun i h => hbit i ▸ h⟩, hc.symm, fun i h => hbit i ▸ h⟩
  · rintro ⟨⟨hc, hab⟩, -, hba⟩
    refine ⟨hc, Words.ext_bit (ha.length_words_eq hb hc) fun i => ?_⟩
    rw [Bool.eq_iff_iff]
    exact ⟨hab i, hba i⟩

/-- **Equality is observational.** Two masks, whatever programs have made them, compare
as equal exactly if they have as many indices and `get` answers the same for every
byte, and exactly if each is a subset of the other. Where they do, either can be put
under any name in any store: every program then gives the same answers, step by step,
and leaves the same wire masks and masks that compare as equal. The same holds of masks
whose capacity is fixed by a type. -/
theorem equality_observational {a b : Mask} (ha : a.Reachable) (hb : b.Reachable) :
    ((a == b) = true ↔ a.bits = b.bits ∧ ∀ i, a.get i = b.get i) ∧
    ((a == b) = true ↔ a.isSubset b = true ∧ b.isSubset a = true) ∧
    ((a == b) = true →
      (∀ (s : Store) (n : String) (ks : List Command),
        Lockstep (trace (s.putMask n (.generic a)) ks) (trace (s.putMask n (.generic b)) ks)) ∧
      ∀ (c : Capacity) (x y : SizedMask c), x.mask = a → y.mask = b →
        ∀ (s : Store) (n : String) (ks : List Command),
          Lockstep (trace (s.putMask n (.sized c x)) ks) (trace (s.putMask n (.sized c y)) ks)) := by
  have hca : a.Clean := reachable_iff_clean.mp ha
  have hcb : b.Clean := reachable_iff_clean.mp hb
  refine ⟨beq_iff_get hca hcb, beq_iff_isSubset hca.formed hcb.formed, fun h => ?_⟩
  have htrim : a.trim = b.trim := (beq_iff_trim hca.formed hcb.formed).mp h
  refine ⟨fun s n ks => lockstep_of_trim_eq ?_ ks, fun c x y hx hy s n ks =>
    lockstep_of_trim_eq ?_ ks⟩
  · rw [Store.trim_putMask, Store.trim_putMask, Register.trim, Register.trim, htrim]
  · subst hx hy
    have hxy : x.trim = y.trim := SizedMask.eq_of_mask_eq htrim
    rw [Store.trim_putMask, Store.trim_putMask, Register.trim, Register.trim, hxy]

/-- Index 3 alone, put in one by one and as the complement of a wire mask. -/
theorem equality_observational_inverted :
    let cs : List Command := [.create "a" 32 none, .edit .toggle "a" 7, .edit .set "a" 3,
      .edit .clear "a" 7, .putWire "w" (.ofWords (List.replicate 8 0xfffffff7#32)),
      .create "b" 32 (some "w"), .sweep .invert "b"]
    ∃ a b, (run .empty cs).masks "a" = some (.generic a) ∧
      (run .empty cs).masks "b" = some (.generic b) ∧ (a == b) = true ∧
      (∀ i, a.get i = b.get i) ∧ b.isSubset a = true ∧
      Lockstep
        (trace ((run .empty cs).putMask "m" (.generic a))
          [.edit .toggleOthers "m" 3, .exportTo "m" 32 "w", .combine .symmDiff "m" "m" "a",
            .ask "m" .summary])
        (trace ((run .empty cs).putMask "m" (.generic b))
          [.edit .toggleOthers "m" 3, .exportTo "m" 32 "w", .combine .symmDiff "m" "m" "a",
            .ask "m" .summary]) := by
  intro cs
  refine ⟨_, _, rfl, rfl, ?_⟩
  obtain ⟨hget, hsubset, hrun⟩ :=
    equality_observational ⟨cs, "a", _, rfl, rfl⟩ ⟨cs, "b", _, rfl, rfl⟩
  have heq : _ = true := hsubset.mpr ⟨by decide +kernel, by decide +kernel⟩
  exact ⟨heq, (hget.mp heq).2, (hsubset.mp heq).2, (hrun heq).1 _ "m" _⟩

end Mask

end BoardObjects
