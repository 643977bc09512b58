/-
# A capacity fixed by a type makes no difference

A mask whose capacity is fixed by its type is made, loaded and joined without the
checks that the other masks have. The checks would have passed: its operands have its
capacity, and its capacity is one of the two that exist.

So a program over such masks of one capacity can be run on masks of no fixed capacity
as well. `Command.erase` is the command that does the same there, and `Store.erase` the
store in which the types have been forgotten. A step of the erased command from the
erased store leads to the erased store of the step, and its answer is the same, except
that a mask which cannot be refused has been accepted there (`erase_step`). By induction
whole runs agree (`trace_erase`).
-/
import BoardObjects.Proofs.Mask.Runs

namespace BoardObjects

/-! ### The checks that are left out -/

namespace SizedMask

variable {cap : Capacity}

theorem importFrom_mask (x : SizedMask cap) (w : WireMask) :
    x.mask.importFrom cap.bits w = (.ok (), (x.load w).mask) := if_pos x.bits_eq

theorem create_ofWire (cap : Capacity) (w : WireMask) :
    Mask.create cap.bits (some w) = .ok (ofWire cap w).mask := Mask.create_load cap w

end SizedMask

namespace Mask

/-! ### Commands and stores without types -/

namespace Command

/-- The command is one for masks of the capacity `cap`, fixed by their type. -/
def typed (cap : Capacity) : Command → Bool
  | .createSized _ c => c == cap
  | .createSizedFrom _ c _ => c == cap
  | .create .. => false
  | .importFrom .. => false
  | .copy .. => false
  | .forget .. => false
  | _ => true

/-- The command that does the same to masks of no fixed capacity. It says what the type
has said. -/
def erase (cap : Capacity) : Command → Command
  | .createSized m c => .create m c.bits none
  | .createSizedFrom m c w => .create m c.bits (some w)
  | .load m w => .importFrom m cap.bits w
  | k => k

/-- The answer to the erased command: where the type leaves no way to refuse a mask, it
has been accepted. -/
def accepted : Command → Reply → Reply
  | .createSized .., .done => .result (.ok ())
  | .createSizedFrom .., .done => .result (.ok ())
  | _, r => r

end Command

def Register.erase (r : Register) : Register := .generic r.mask

namespace Store

/-- The store with its masks in the form without a fixed capacity. -/
def erase (s : Store) : Store := ⟨fun n => (s.masks n).map Register.erase, s.wires⟩

/-- All masks of the store have the capacity `cap`, fixed by their type. -/
def Typed (cap : Capacity) (s : Store) : Prop :=
  ∀ n r, s.masks n = some r → ∃ x : SizedMask cap, r = .sized cap x

theorem erase_masks (s : Store) (n : String) :
    s.erase.masks n = (s.masks n).map Register.erase := rfl

theorem erase_wires (s : Store) (c : String) : s.erase.wires c = s.wires c := rfl

theorem erase_putMask (s : Store) (n : String) (r : Register) :
    (s.putMask n r).erase = s.erase.putMask n r.erase := s.mapMasks_putMask Register.erase n r

namespace Typed

variable {cap : Capacity} {s : Store}

theorem empty : Typed cap .empty := fun n r h => by cases h

theorem put (h : Typed cap s) (n : String) (x : SizedMask cap) :
    Typed cap (s.putMask n (.sized cap x)) := by
  intro n' r hr
  by_cases hn : n' = n
  · exact ⟨x, Option.some.inj (hr.symm.trans (if_pos hn))⟩
  · exact h n' r ((if_neg hn).symm.trans hr)

end Typed

end Store

/-! ### One step -/

namespace Register

variable {cap : Capacity}

theorem erase_sized (x : SizedMask cap) : (sized cap x).erase = .generic x.mask := rfl

theorem mask_erase (r : Register) : r.erase.mask = r.mask := rfl

theorem sweep_erase (r : Register) (f : Sweep) : r.erase.sweep f = (r.sweep f).erase :=
  congrArg generic (r.mask_sweep f).symm

theorem edit_erase (r : Register) (i : UInt8) (f : Edit) :
    r.erase.edit i f = (r.edit i f).map erase :=
  congrArg (Change.map generic) (r.mask_edit i f).symm

theorem combine?_sized (op : SetOp) (d x y : SizedMask cap) :
    combine? op (.sized cap d) (.sized cap x) (.sized cap y) =
      some (.ok (), .sized cap (SizedMask.combine op d x y)) := dif_pos ⟨rfl, rfl⟩

theorem combine?_erase (op : SetOp) (d x y : SizedMask cap) :
    combine? op (.generic d.mask) (.generic x.mask) (.generic y.mask) =
      some (.ok (), .generic (SizedMask.combine op d x y).mask) :=
  congrArg (fun o => some (Change.map generic o)) (SizedMask.combine_mask op d x y)

end Register

/-- What has the same outcome on erased masks leaves an erased store behind. -/
theorem settle_erase (s : Store) (n : String) (o : Change Register) :
    settle s.erase n (o.map Register.erase) = ((settle s n o).1, (settle s n o).2.erase) :=
  settle_mapMasks Register.erase s n o

/-- A step over masks of one fixed capacity is a step of the erased command over the
erased masks. -/
theorem erase_step {cap : Capacity} {s : Store} (hs : s.Typed cap) {k : Command}
    (hk : k.typed cap = true) :
    step s.erase (k.erase cap) = (k.accepted (step s k).1, (step s k).2.erase) := by
  cases k with
  -- not among the commands for masks of a fixed capacity
  | create | importFrom | copy | forget => cases hk
  | putWire => rfl
  | wireBytes c =>
    simp only [Command.erase, step, Store.erase_wires]
    cases s.wires c <;> rfl
  | createSized m c =>
    simp only [Command.erase, step, create_empty, Store.erase_putMask]
    rfl
  | createSizedFrom m c w =>
    simp only [Command.erase, step, Store.erase_wires]
    cases s.wires w with
    | none => rfl
    | some w =>
      simp only [SizedMask.create_ofWire, Store.erase_putMask]
      rfl
  | clone m a =>
    simp only [Command.erase, step, Store.erase_masks]
    cases s.masks a with
    | none => rfl
    | some r => exact congrArg (Prod.mk _) (s.erase_putMask m r).symm
  | ask m q =>
    simp only [Command.erase, step, Store.erase_masks]
    cases s.masks m <;> rfl
  | isSubset a b | sizesEqual a b | equal a b =>
    simp only [Command.erase, step, Store.erase_masks]
    cases s.masks a <;> cases s.masks b <;> rfl
  | sweep f m =>
    simp only [Command.erase, step, Store.erase_masks]
    cases s.masks m with
    | none => rfl
    | some r =>
      simp only [Option.map_some, r.sweep_erase, Store.erase_putMask]
      rfl
  | edit f m i =>
    simp only [Command.erase, step, Store.erase_masks]
    cases s.masks m with
    | none => rfl
    | some r =>
      simp only [Option.map_some, r.edit_erase]
      exact settle_erase s m _
  | load m c =>
    simp only [Command.erase, step, Store.erase_masks, Store.erase_wires]
    cases hm : s.masks m with
    | none => rfl
    | some r =>
      obtain ⟨x, rfl⟩ := hs m r hm
      cases s.wires c with
      | none => rfl
      | some w =>
        simp only [Option.map_some, Register.erase_sized, x.importFrom_mask, Store.erase_putMask]
        rfl
  | exportTo m bits c =>
    simp only [Command.erase, step, Store.erase_masks, Store.erase_wires]
    cases s.masks m with
    | none => rfl
    | some r =>
      cases s.wires c with
      | none => rfl
      | some w =>
        simp only [Option.map_some, r.mask_erase]
        rfl
  | combine op m a b =>
    simp only [Command.erase, step, Store.erase_masks]
    cases hm : s.masks m with
    | none => rfl
    | some d =>
      cases ha : s.masks a with
      | none => rfl
      | some x =>
        cases hb : s.masks b with
        | none => rfl
        | some y =>
          obtain ⟨d, rfl⟩ := hs m d hm
          obtain ⟨x, rfl⟩ := hs a x ha
          obtain ⟨y, rfl⟩ := hs b y hb
          simp only [Option.map_some, Register.erase_sized, Register.combine?_erase,
            Register.combine?_sized]
          exact settle_erase s m (.ok (), .sized cap (SizedMask.combine op d x y))

/-- A command for masks of one fixed capacity leaves only such masks. -/
theorem Store.Typed.step {cap : Capacity} {s : Store} (hs : s.Typed cap) {k : Command}
    (hk : k.typed cap = true) : (Mask.step s k).2.Typed cap := by
  cases k with
  | create | importFrom | copy | forget => cases hk
  | putWire => exact hs
  | wireBytes | ask | isSubset | sizesEqual | equal =>
    simp only [Mask.step]
    split <;> exact hs
  | createSized m c =>
    obtain rfl := beq_iff_eq.mp hk
    exact hs.put m _
  | createSizedFrom m c w =>
    obtain rfl := beq_iff_eq.mp hk
    simp only [Mask.step]
    split
    · exact hs.put m _
    · exact hs
  | clone m a =>
    simp only [Mask.step]
    split
    · rename_i r hr
      obtain ⟨x, rfl⟩ := hs a r hr
      exact hs.put m x
    · exact hs
  | sweep f m =>
    simp only [Mask.step]
    split
    · rename_i r hr
      obtain ⟨x, rfl⟩ := hs m r hr
      exact hs.put m _
    · exact hs
  | edit f m i =>
    simp only [Mask.step]
    split
    · rename_i r hr
      obtain ⟨x, rfl⟩ := hs m r hr
      exact hs.put m (x.edit i f).2
    · exact hs
  | load m c =>
    simp only [Mask.step]
    split
    · rename_i c' x w hx _
      obtain ⟨y, hy⟩ := hs m _ hx
      cases hy
      exact hs.put m _
    · exact hs
  | exportTo m bits c =>
    simp only [Mask.step]
    split <;> exact hs
  | combine op m a b =>
    simp only [Mask.step]
    split
    · rename_i d x y hd hx hy
      obtain ⟨d, rfl⟩ := hs m d hd
      obtain ⟨x, rfl⟩ := hs a x hx
      obtain ⟨y, rfl⟩ := hs b y hy
      rw [Register.combine?_sized]
      exact hs.put m _
    · exact hs

/-! ### Runs -/

variable {cap : Capacity} {s : Store}

theorem trace_erase (hs : s.Typed cap) {ks : List Command} (hks : ∀ k ∈ ks, k.typed cap = true) :
    trace s.erase (ks.map (·.erase cap)) =
      List.zipWith (fun k o => (k.accepted o.1, o.2.erase)) ks (trace s ks) := by
  induction ks generalizing s with
  | nil => rfl
  | cons k ks ih =>
    obtain ⟨hk, hrest⟩ := List.forall_mem_cons.mp hks
    have hstep := erase_step hs hk
    rw [List.map_cons, trace, trace, List.zipWith_cons_cons, hstep, ih (hs.step hk) hrest]

theorem run_erase (hs : s.Typed cap) {ks : List Command} (hks : ∀ k ∈ ks, k.typed cap = true) :
    (run s ks).Typed cap ∧ run s.erase (ks.map (·.erase cap)) = (run s ks).erase := by
  induction ks generalizing s with
  | nil => exact ⟨hs, rfl⟩
  | cons k ks ih =>
    obtain ⟨hk, hrest⟩ := List.forall_mem_cons.mp hks
    have hstore : (step s.erase (k.erase cap)).2 = (step s k).2.erase := by rw [erase_step hs hk]
    obtain ⟨htyped, hrun⟩ := ih (hs.step hk) hrest
    refine ⟨htyped, ?_⟩
    rw [List.map_cons]
    show run (step s.erase (k.erase cap)).2 (ks.map (·.erase cap)) = _
    rw [hstore]
    exact hrun

theorem erase_masks_some {n : String} {r : Register} (h : s.masks n = some r) :
    s.erase.masks n = some r.erase := congrArg (Option.map Register.erase) h

theorem forget_erase {n : String} {r : Register} (h : s.masks n = some r) :
    (step s (.forget n n)).2.masks n = s.erase.masks n := by
  rw [erase_masks_some h]
  simp only [step, h]
  exact if_pos rfl

/-- Without a fixed capacity masks can be refused, but those of one capacity are not. -/
theorem erased_accept (hs : s.Typed cap) :
    (∀ m, (step s.erase (.create m cap.bits none)).1 = .result (.ok ())) ∧
    (∀ m c w, s.wires c = some w →
      (step s.erase (.create m cap.bits (some c))).1 = .result (.ok ())) ∧
    (∀ m c r w, s.masks m = some r → s.wires c = some w →
      (step s.erase (.importFrom m cap.bits c)).1 = .result (.ok ())) ∧
    ∀ op m a b d x y, s.masks m = some d → s.masks a = some x → s.masks b = some y →
      (step s.erase (.combine op m a b)).1 = .result (.ok ()) := by
  refine ⟨fun m => ?_, fun m c w hw => ?_, fun m c r w hm hw => ?_, fun op m a b d x y hm ha hb => ?_⟩
  · simp only [step, create_empty]
    rfl
  · simp only [step, Store.erase_wires, hw, SizedMask.create_ofWire]
    rfl
  · obtain ⟨z, rfl⟩ := hs m r hm
    simp only [step, erase_masks_some hm, Store.erase_wires, hw, Register.erase_sized,
      z.importFrom_mask]
    rfl
  · obtain ⟨d, rfl⟩ := hs m d hm
    obtain ⟨x, rfl⟩ := hs a x ha
    obtain ⟨y, rfl⟩ := hs b y hb
    simp only [step, erase_masks_some hm, erase_masks_some ha, erase_masks_some hb,
      Register.erase_sized, Register.combine?_erase]
    rfl

/-- **A capacity fixed by a type makes no difference.** Run any program over masks of one
capacity, fixed by their type, and the program that does the same with masks of no fixed
capacity. Step by step the answers are the same, but for the masks that have just been made,
which have been accepted on the other side; and so are the masks and wire masks that are
held. No mask with this number of indices is refused there. -/
theorem typed_runs_agree {ks : List Command} (hks : ∀ k ∈ ks, k.typed cap = true) :
    let s := run .empty ks
    let t := run .empty (ks.map (·.erase cap))
    trace .empty (ks.map (·.erase cap)) =
      List.zipWith (fun k o => (k.accepted o.1, o.2.erase)) ks (trace .empty ks) ∧
    t = s.erase ∧
    (∀ n r, s.masks n = some r → (∃ x : SizedMask cap, r = .sized cap x) ∧
      t.masks n = some (.generic r.mask) ∧ (step s (.forget n n)).2.masks n = t.masks n) ∧
    (∀ m, (step t (.create m cap.bits none)).1 = .result (.ok ())) ∧
    (∀ m c w, s.wires c = some w → (step t (.create m cap.bits (some c))).1 = .result (.ok ())) ∧
    (∀ m c r w, s.masks m = some r → s.wires c = some w →
      (step t (.importFrom m cap.bits c)).1 = .result (.ok ())) ∧
    ∀ op m a b d x y, s.masks m = some d → s.masks a = some x → s.masks b = some y →
      (step t (.combine op m a b)).1 = .result (.ok ()) := by
  intro s t
  have hempty : Store.empty.Typed cap := .empty
  have htrace := trace_erase hempty hks
  obtain ⟨htyped, hrun⟩ := run_erase hempty hks
  have ht : t = s.erase := hrun
  refine ⟨htrace, ht, fun n r hr => ⟨htyped n r hr, ?_, ?_⟩, ?_⟩
  · rw [ht]
    exact erase_masks_some hr
  · rw [ht]
    exact forget_erase hr
  · rw [ht]
    exact erased_accept htyped

/-- Three masks of 255 indices, made, changed at 230 and in vain at 255, joined and
loaded from a wire mask with a bit at 255. -/
theorem typed_runs_agree_large :
    let ks : List Command := [.putWire "w" (.ofWords (List.replicate 8 0xdeadbeef#32)),
      .createSized "a" .large, .createSizedFrom "b" .large "w", .edit .toggleOthers "a" 230,
      .edit .set "b" 255, .combine .symmDiff "a" "a" "b", .clone "c" "a", .sweep .invert "c",
      .load "b" "w", .ask "c" (.get 254)]
    let s := run .empty ks
    let t := run .empty (ks.map (·.erase .large))
    (∀ k ∈ ks, k.typed .large = true) ∧
      (trace .empty (ks.map (·.erase .large))).map Prod.fst =
        [.done, .result (.ok ()), .result (.ok ()), .result (.ok ()),
          .result (.error .invalidArgument), .result (.ok ()), .done, .done, .result (.ok ()),
          .answer (.truth true)] ∧
      (∃ r, s.masks "c" = some r ∧ t.masks "c" = some (.generic r.mask)) ∧
      (step t (.create "d" 255 (some "w"))).1 = .result (.ok ()) ∧
      (step t (.importFrom "c" 255 "w")).1 = .result (.ok ()) ∧
      (step t (.combine .union "a" "b" "c")).1 = .result (.ok ()) := by
  intro ks s t
  have hks : ∀ k ∈ ks, k.typed .large = true := by decide
  obtain ⟨htrace, -, hmasks, -, hcreate, himport, hcombine⟩ := typed_runs_agree hks
  refine ⟨hks, ?_, ⟨_, rfl, (hmasks "c" _ rfl).2.1⟩, hcreate "d" "w" _ rfl,
    himport "c" "w" _ _ rfl rfl, hcombine .union "a" "b" "c" _ _ _ rfl rfl rfl⟩
  rw [htrace]
  rfl

end Mask

end BoardObjects
