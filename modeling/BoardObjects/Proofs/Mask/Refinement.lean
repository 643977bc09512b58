/-
# A store of masks is a store of sets

`SetStore` holds sets of indices under names, and wire masks as their bits.
`SetStore.effect` says what each change of a mask does there: which sets it reads,
when it is refused, and which set it leaves behind. A store of masks means a store
of sets (`Store.sets`), and in every store that a program leaves behind each change
does to the masks what it does to the sets, refusals included. The step puts back what
a refused change has left of a mask or of a wire mask, so that a refusal leaves the
store rests on what each change leaves (`Change.Realizes`).

What is written by `create`, `importFrom`, `combine` and `copy` is a mask of no fixed
capacity (`Mutator.Applies`).
-/
import BoardObjects.Proofs.Mask.IndexSet

namespace BoardObjects

namespace Mask

/-- Sets of indices and the bits of wire masks, under names. -/
@[ext]
structure SetStore where
  sets : String → Option IndexSet
  wires : String → Option (ℕ → Bool)

namespace SetStore

def putSet (t : SetStore) (n : String) (x : IndexSet) : SetStore :=
  { t with sets := fun n' => if n' = n then some x else t.sets n' }

def putWire (t : SetStore) (n : String) (p : ℕ → Bool) : SetStore :=
  { t with wires := fun n' => if n' = n then some p else t.wires n' }

end SetStore

/-- The sets that the masks of a store mean, and the bits of its wire masks. -/
def Store.sets (s : Store) : SetStore :=
  ⟨fun n => (s.masks n).map fun r => r.mask.indexSet, fun c => (s.wires c).map WireMask.bit⟩

/-- The changes of a mask and of a wire mask. -/
inductive Mutator where
  | create (m : String) (bits : UInt8) (seed : Option String)
  | sweep (f : Sweep) (m : String)
  | edit (f : Edit) (m : String) (i : UInt8)
  | importFrom (m : String) (bits : UInt8) (c : String)
  | exportTo (m : String) (bits : UInt8) (c : String)
  | combine (op : SetOp) (m a b : String)
  | copy (m a : String)

namespace Mutator

def command : Mutator → Command
  | create m bits seed => .create m bits seed
  | sweep f m => .sweep f m
  | edit f m i => .edit f m i
  | importFrom m bits c => .importFrom m bits c
  | exportTo m bits c => .exportTo m bits c
  | combine op m a b => .combine op m a b
  | copy m a => .copy m a

/-- The names that a change reads are held, and it does not write to a mask whose
capacity is fixed by its type with operands that have no such type. -/
def Applies (s : Store) : Mutator → Prop
  | create _ _ none => True
  | create _ _ (some c) => ∃ w, s.wires c = some w
  | sweep _ m => ∃ r, s.masks m = some r
  | edit _ m _ => ∃ r, s.masks m = some r
  | importFrom m _ c => (∃ x, s.masks m = some (.generic x)) ∧ ∃ w, s.wires c = some w
  | exportTo m _ c => (∃ r, s.masks m = some r) ∧ ∃ w, s.wires c = some w
  | combine _ m a b =>
    (∃ x, s.masks m = some (.generic x)) ∧ (∃ r, s.masks a = some r) ∧ ∃ r, s.masks b = some r
  | copy m a => (∃ x, s.masks m = some (.generic x)) ∧ ∃ r, s.masks a = some r

end Mutator

/-- The store of sets after a change, or the cause for which it is refused. A name
that is not held gives nothing. -/
def SetStore.effect (t : SetStore) : Mutator → Option (Except ErrorCode SetStore)
  | .create m bits none => some ((IndexSet.create bits fun _ => false).map (t.putSet m))
  | .create m bits (some c) => (t.wires c).map fun p => (IndexSet.create bits p).map (t.putSet m)
  | .sweep f m => (t.sets m).map fun x => .ok (t.putSet m (x.sweep f))
  | .edit f m i => (t.sets m).map fun x => (x.edit i f).map (t.putSet m)
  | .importFrom m bits c =>
    (t.sets m).bind fun x => (t.wires c).map fun p => (x.importFrom bits p).map (t.putSet m)
  | .exportTo m bits c =>
    (t.sets m).bind fun x => (t.wires c).map fun p => (x.exportTo bits p).map (t.putWire c)
  | .combine op m a b =>
    (t.sets m).bind fun d => (t.sets a).bind fun x => (t.sets b).map fun y =>
      (IndexSet.combine op d x y).map (t.putSet m)
  | .copy m a => (t.sets m).bind fun d => (t.sets a).map fun x => (d.copy x).map (t.putSet m)

/-- Whether a command was accepted, if its answer says so. -/
def Reply.verdict? : Reply → Option (Except ErrorCode Unit)
  | .done => some (.ok ())
  | .result r => some r
  | _ => none

/-- A step from the store `s` has the outcome `x` in terms of sets. -/
structure Realizes (s : Store) (o : Reply × Store) (x : Except ErrorCode SetStore) : Prop where
  verdict : o.1.verdict? = some (x.map fun _ => ())
  accepted : ∀ t, x = .ok t → o.2.sets = t
  refused : ∀ e, x = .error e → e = .invalidArgument ∧ o.2 = s

/-! ### The meaning of a store -/

theorem sets_putMask (s : Store) (n : String) (r : Register) :
    (s.putMask n r).sets = s.sets.putSet n r.mask.indexSet := by
  refine SetStore.ext (funext fun n' => ?_) rfl
  show (if n' = n then some r else s.masks n').map (fun r => r.mask.indexSet) =
    if n' = n then some r.mask.indexSet else s.sets.sets n'
  split <;> rfl

theorem sets_putWire (s : Store) (n : String) (w : WireMask) :
    (s.putWire n w).sets = s.sets.putWire n w.bit := by
  refine SetStore.ext rfl (funext fun n' => ?_)
  show (if n' = n then some w else s.wires n').map WireMask.bit =
    if n' = n then some w.bit else s.sets.wires n'
  split <;> rfl

theorem sets_masks {s : Store} {n : String} {r : Register} (h : s.masks n = some r) :
    s.sets.sets n = some r.mask.indexSet := by
  show (s.masks n).map (fun r => r.mask.indexSet) = _
  rw [h]
  rfl

theorem sets_wires {s : Store} {c : String} {w : WireMask} (h : s.wires c = some w) :
    s.sets.wires c = some w.bit := by
  show (s.wires c).map WireMask.bit = _
  rw [h]
  rfl

theorem putWire_self {s : Store} {c : String} {w : WireMask} (h : s.wires c = some w) :
    s.putWire c w = s := by
  refine congrArg (Store.mk s.masks) (funext fun c' => ?_)
  by_cases hc : c' = c
  · rw [if_pos hc, hc, h]
  · exact if_neg hc

/-! ### One step -/

def Register.indexSet (r : Register) : IndexSet := r.mask.indexSet

theorem realizes_generic {m : Mask} {o : Change Mask} {y : Except ErrorCode IndexSet}
    (h : Change.Realizes indexSet m o y) :
    Change.Realizes Register.indexSet (.generic m) (o.map .generic) y :=
  ⟨h.verdict, h.accepted, fun e he => ⟨(h.refused e he).1, congrArg _ (h.refused e he).2⟩⟩

theorem realizes_edit {r : Register} (hr : r.mask.Formed) (i : UInt8) (f : Edit) :
    Change.Realizes Register.indexSet r (r.edit i f) (r.indexSet.edit i f) := by
  cases r with
  | generic m => exact realizes_generic (edit_realizes hr i f)
  | sized c x =>
    have h : Change.Realizes indexSet x.mask ((x.edit i f).map SizedMask.mask)
        (x.mask.indexSet.edit i f) := x.mask_edit i f ▸ edit_realizes hr i f
    refine ⟨h.verdict, h.accepted, fun e he => ⟨(h.refused e he).1, ?_⟩⟩
    exact congrArg (Register.sized c) (SizedMask.eq_of_mask_eq (h.refused e he).2)

/-- A step that puts back what a change leaves of something it has found in the store
realizes what the change does. -/
theorem realizes_putBack {σ τ : Type} {view : σ → τ} {s : Store} {x : σ} {put : σ → Store}
    {putView : τ → SetStore} (hself : put x = s) (hsets : ∀ x', (put x').sets = putView (view x'))
    {o : Change σ} {y : Except ErrorCode τ} (h : Change.Realizes view x o y) :
    Realizes s (.result o.1, put o.2) (y.map putView) := by
  have hverdict : (Reply.result o.1).verdict? = some (y.map fun _ => ()) := congrArg some h.verdict
  cases y with
  | error e =>
    obtain ⟨he, hleft⟩ := h.refused e rfl
    refine ⟨hverdict, fun t ht => (by cases ht), fun e' he' => ?_⟩
    refine ⟨(Except.error.inj he').symm.trans he, ?_⟩
    rw [hleft, hself]
  | ok t =>
    refine ⟨hverdict, fun t' ht => ?_, fun e he => (by cases he)⟩
    rw [← Except.ok.inj ht, ← h.accepted t rfl]
    exact hsets o.2

theorem realizes_settle {s : Store} {n : String} {r : Register} (hr : s.masks n = some r)
    {o : Change Register} {y : Except ErrorCode IndexSet}
    (h : Change.Realizes Register.indexSet r o y) :
    Realizes s (settle s n o) (y.map (s.sets.putSet n)) :=
  realizes_putBack (putMask_self hr) (sets_putMask s n) h

/-- A mask that is made has the set that is made, or none is held. -/
theorem realizes_hold (s : Store) (n : String) (bits : UInt8) (seed : Option WireMask) :
    Realizes s (hold s n (Mask.create bits seed))
      ((IndexSet.create bits ((seed.map WireMask.bit).getD fun _ => false)).map
        (s.sets.putSet n)) := by
  rw [← indexSet_create]
  have hinvalid : ∀ e, Mask.create bits seed = .error e → e = .invalidArgument := by
    intro e he
    have hset := indexSet_create bits seed
    rw [he] at hset
    unfold IndexSet.create at hset
    split at hset
    · cases hset
    · exact Except.error.inj hset
  cases hx : Mask.create bits seed with
  | error e =>
    refine ⟨rfl, fun t ht => (by cases ht), fun e' he' => ?_⟩
    exact ⟨(Except.error.inj he').symm.trans (hinvalid e hx), rfl⟩
  | ok m =>
    refine ⟨rfl, fun t ht => ?_, fun e he => (by cases he)⟩
    exact (sets_putMask s n (.generic m)).trans (Except.ok.inj ht)

theorem mutator_realizes {s : Store} (hs : ∀ n r, s.masks n = some r → r.mask.Clean) {μ : Mutator}
    (h : μ.Applies s) : ∃ x, s.sets.effect μ = some x ∧ Realizes s (step s μ.command) x := by
  cases μ with
  | create m bits seed =>
    cases seed with
    | none => exact ⟨_, rfl, realizes_hold s m bits none⟩
    | some c =>
      obtain ⟨w, hw⟩ := h
      refine ⟨_, congrArg (Option.map _) (sets_wires hw), ?_⟩
      simp only [Mutator.command, step, hw]
      exact realizes_hold s m bits (some w)
  | sweep f m =>
    obtain ⟨r, hr⟩ := h
    refine ⟨_, congrArg (Option.map _) (sets_masks hr), ?_⟩
    simp only [Mutator.command, step, hr]
    refine ⟨rfl, fun t ht => ?_, fun e he => (by cases he)⟩
    rw [sets_putMask, r.mask_sweep, indexSet_sweep (hs m r hr).formed]
    exact Except.ok.inj ht
  | edit f m i =>
    obtain ⟨r, hr⟩ := h
    refine ⟨_, congrArg (Option.map _) (sets_masks hr), ?_⟩
    simp only [Mutator.command, step, hr]
    exact realizes_settle hr (realizes_edit (hs m r hr).formed i f)
  | importFrom m bits c =>
    obtain ⟨⟨x, hx⟩, w, hw⟩ := h
    refine ⟨(x.indexSet.importFrom bits w.bit).map (s.sets.putSet m), ?_, ?_⟩
    · rw [SetStore.effect, sets_masks hx, sets_wires hw]
      rfl
    · simp only [Mutator.command, step, hx, hw]
      exact realizes_settle hx
        (realizes_generic (importFrom_realizes (hs m _ hx).formed bits w))
  | exportTo m bits c =>
    obtain ⟨⟨r, hr⟩, w, hw⟩ := h
    refine ⟨(r.mask.indexSet.exportTo bits w.bit).map (s.sets.putWire c), ?_, ?_⟩
    · rw [SetStore.effect, sets_masks hr, sets_wires hw]
      rfl
    · simp only [Mutator.command, step, hr, hw]
      exact realizes_putBack (putWire_self hw) (sets_putWire s c)
        (exportTo_realizes (hs m r hr) bits w)
  | combine op m a b =>
    obtain ⟨⟨d, hd⟩, ⟨x, hx⟩, y, hy⟩ := h
    refine ⟨(IndexSet.combine op d.indexSet x.mask.indexSet y.mask.indexSet).map (s.sets.putSet m),
      ?_, ?_⟩
    · rw [SetStore.effect, sets_masks hd, sets_masks hx, sets_masks hy]
      rfl
    · simp only [Mutator.command, step, hd, hx, hy]
      exact realizes_settle hd (realizes_generic
        (combine_realizes op (hs m _ hd).formed (hs a x hx).formed (hs b y hy).formed))
  | copy m a =>
    obtain ⟨⟨d, hd⟩, x, hx⟩ := h
    refine ⟨(d.indexSet.copy x.mask.indexSet).map (s.sets.putSet m), ?_, ?_⟩
    · rw [SetStore.effect, sets_masks hd, sets_masks hx]
      rfl
    · simp only [Mutator.command, step, hd, hx]
      exact realizes_settle hd
        (realizes_generic (copy_realizes (hs m _ hd).formed (hs a x hx).formed))

/-- **Masks refine sets of indices.** In every store that a program leaves behind,
a change of a mask is accepted exactly when it is accepted on the sets, and leaves
the store behind that means the changed sets. A change that is refused is refused
for an invalid argument and leaves the store as it was. -/
theorem step_refines_sets (cs : List Command) (μ : Mutator) (h : μ.Applies (run .empty cs)) :
    ∃ x, (run .empty cs).sets.effect μ = some x ∧
      (step (run .empty cs) μ.command).1.verdict? = some (x.map fun _ => ()) ∧
      (∀ t, x = .ok t → (step (run .empty cs) μ.command).2.sets = t) ∧
      ∀ e, x = .error e → e = .invalidArgument ∧
        (step (run .empty cs) μ.command).2 = run .empty cs := by
  have hclean : ∀ n r, (run .empty cs).masks n = some r → r.mask.Clean :=
    fun n r hr => (run_sound cs).clean hr
  obtain ⟨x, hx, hr⟩ := mutator_realizes hclean h
  exact ⟨x, hx, hr.verdict, hr.accepted, hr.refused⟩

/-- The complement of a mask of 255 indices is joined with it, and written over a
mask of 32 indices in vain. -/
theorem step_refines_sets_full :
    let cs : List Command := [.create "a" 255 none, .edit .set "a" 254, .createSized "b" .large,
      .sweep .fill "b", .create "c" 32 none]
    (Mutator.combine .symmDiff "a" "a" "b").Applies (run .empty cs) ∧
      (step (run .empty cs) (.combine .symmDiff "a" "a" "b")).1.verdict? = some (.ok ()) ∧
      (Mutator.copy "c" "b").Applies (run .empty cs) ∧
      (step (run .empty cs) (.copy "c" "b")).2 = run .empty cs := by
  intro cs
  have hjoin : (Mutator.combine .symmDiff "a" "a" "b").Applies (run .empty cs) :=
    ⟨⟨_, rfl⟩, ⟨_, rfl⟩, _, rfl⟩
  have hcopy : (Mutator.copy "c" "b").Applies (run .empty cs) := ⟨⟨_, rfl⟩, _, rfl⟩
  obtain ⟨x, hx, hv, -⟩ := step_refines_sets cs (.combine .symmDiff "a" "a" "b") hjoin
  obtain ⟨y, hy, -, -, hr⟩ := step_refines_sets cs (.copy "c" "b") hcopy
  obtain rfl := Option.some.inj hx
  obtain rfl := Option.some.inj hy
  exact ⟨hjoin, hv, hcopy, (hr .invalidArgument rfl).2⟩

end Mask

end BoardObjects
