/-
# A group notes whether its table has been built

Sending is the payload of all objects and a note. The payload is made first, so where
an object cannot be written nothing is noted (`send_refused`), and no other call
touches the flags: not an insertion or a removal, refused or half done, and not a
payload that is only asked for. So one step changes the flags exactly if it answers
with a table that has been sent (`flags_step`), and a note once made stays
(`flags_run`), whatever objects come and go afterwards.
-/
import BoardObjects.Proofs.Group.Payload

namespace BoardObjects

namespace Flags

theorem insert_insert (f b : Flags) : (f.insert b).insert b = f.insert b :=
  congrArg Flags.mk (by rw [insert, BitVec.or_assoc, BitVec.or_self])

end Flags

namespace Group

variable {α : Type}

/-- The answer is a table that has been sent. -/
def Reply.tableSent : Reply α → Bool
  | .sent (.ok _) => true
  | _ => false

theorem Reply.tableSent_iff {r : Reply α} : r.tableSent = true ↔ ∃ p, r = .sent (.ok p) := by
  constructor
  · intro h
    unfold tableSent at h
    split at h
    · rename_i p
      exact ⟨p, rfl⟩
    · cases h
  · rintro ⟨p, rfl⟩
    rfl

/-! ### One call -/

theorem flags_insert (g : Group α) (i : UInt8) (x : α) : (g.insert i x).state.flags = g.flags := by
  unfold insert
  split
  · rfl
  · split
    · rfl
    · split <;> rfl

/-- Also where the slot is emptied and the mask refuses. -/
theorem flags_remove (g : Group α) (i : UInt8) : (g.remove i).state.flags = g.flags := by
  unfold remove
  split
  · rfl
  · split
    · rfl
    · split <;> rfl

variable [FirmwareObject α]

theorem send_refused {g : Group α} {e : ErrorCode} (h : g.payload none = .error e) :
    g.send = .refused g e [] := by
  rw [send, h]

theorem send_ok {g : Group α} {p : Payload} (h : g.payload none = .ok p) :
    g.send = ⟨.ok p, { g with flags := g.flags.insert .sent },
      [.groupSent g.count p.table.length]⟩ := by
  rw [send, h]

theorem answer_send (g : Group α) : g.send.answer = g.payload none := by
  cases h : g.payload none with
  | error e =>
    rw [send_refused h]
    rfl
  | ok p => rw [send_ok h]

theorem state_send_refused {g : Group α} {e : ErrorCode} (h : g.send.answer = .error e) :
    g.send.state = g := by
  rw [answer_send] at h
  rw [send_refused h]
  rfl

theorem flags_step (g : Group α) (d : Command α) :
    (g.step d).state.flags =
      if (g.step d).answer.tableSent then g.flags.insert .sent else g.flags := by
  cases d with
  | insert i x => exact g.flags_insert i x
  | remove i => exact g.flags_remove i
  | modify i f => rfl
  | ask q => rfl
  | send =>
    show g.send.state.flags =
      if (Reply.sent g.send.answer : Reply α).tableSent then g.flags.insert .sent else g.flags
    cases h : g.payload none with
    | error e =>
      rw [send_refused h]
      rfl
    | ok p =>
      rw [send_ok h]
      rfl

/-! ### Runs -/

/-- The flags after a run, from those before it and the answers in it. -/
theorem flags_run (cs : List (Command α)) (g : Group α) :
    (Outcome.run step g cs).flags =
      if (Outcome.trace step g cs).any (fun o => o.answer.tableSent)
      then g.flags.insert .sent else g.flags := by
  induction cs generalizing g with
  | nil => rfl
  | cons d cs ih =>
    show (Outcome.run step (g.step d).state cs).flags = _
    rw [ih, flags_step, Outcome.trace, List.any_cons]
    -- a second table that is sent notes what the first one has noted
    cases (g.step d).answer.tableSent with
    | false => rfl
    | true => rw [if_pos rfl, Flags.insert_insert, ite_self, Bool.true_or, if_pos rfl]

/-- **A group notes whether its table has been built.** Objects may fail to be written
and may come and go. After any program on a group, its flags say that it has been
made; that it has been sent exactly if some call of the program has answered with a
table that was sent; and nothing else. Sending answers in every group with the payload
of all its objects, and where that is an error it leaves the group as it was. Asking
for a payload, inserting and removing leave the flags alone, whatever they answer. -/
theorem sent_iff_built (c : Capacity) (cs : List (Command α)) :
    let g := Outcome.run step (construct c).state cs
    g.flags.contains .constructed = true ∧
    (g.flags.contains .sent = true ↔
      ∃ o ∈ Outcome.trace step (construct c).state cs, ∃ p, o.answer = .sent (.ok p)) ∧
    g.flags.unknownBits = 0#32 ∧
    ∀ h : Group α,
      h.send.answer = h.payload none ∧
      (∀ e, h.send.answer = .error e → h.send.state = h) ∧
      (∀ filter, (h.step (.ask (.payload filter))).state = h) ∧
      (∀ i x, (h.insert i x).state.flags = h.flags) ∧
      ∀ i, (h.remove i).state.flags = h.flags := by
  intro g
  have hflags : g.flags = if (Outcome.trace step (construct c).state cs).any
      (fun o => o.answer.tableSent) then Flags.constructed.insert .sent else .constructed :=
    flags_run cs _
  have hbuilt : (Outcome.trace step (construct c).state cs).any (fun o => o.answer.tableSent) = true ↔
      ∃ o ∈ Outcome.trace step (construct c).state cs, ∃ p, o.answer = .sent (.ok p) := by
    simp only [List.any_eq_true, Reply.tableSent_iff]
  rw [← hbuilt, hflags]
  refine and_assoc.mp (and_assoc.mp ⟨?_, fun h => ⟨h.answer_send, fun e => state_send_refused,
    fun _ => rfl, h.flags_insert, h.flags_remove⟩⟩)
  cases (Outcome.trace step (construct c).state cs).any fun o => o.answer.tableSent with
  | false => exact ⟨⟨rfl, by decide⟩, rfl⟩
  | true => exact ⟨⟨rfl, by decide⟩, rfl⟩

/-- Of two objects one cannot be written. Sending fails while it is there, whether it
was there first or has taken the place of the other one, and succeeds in between: the
note is made then, and stays. -/
theorem sent_iff_built_between_faults :
    let good : Sample := ⟨7, [1, 2], none⟩
    let bad : Sample := ⟨2, [8], some .ioError⟩
    let cs : List (Command Sample) := [.insert 3 good, .insert 31 bad, .send, .ask (.payload none)]
    let ds : List (Command Sample) := cs ++ [.remove 31, .send, .remove 3, .insert 3 bad, .send]
    let g := Outcome.run step (construct .small).state cs
    let h := Outcome.run step (construct .small).state ds
    g.flags.contains .sent = false ∧ g.send.answer = .error .ioError ∧ g.send.state = g ∧
      h.flags.contains .sent = true ∧ h.flags.unknownBits = 0#32 ∧
      h.send.answer = .error .ioError ∧ h.send.state = h := by
  intro good bad cs ds g h
  obtain ⟨-, hg, -, hall⟩ := sent_iff_built (α := Sample) .small cs
  obtain ⟨-, hh, hrest, -⟩ := sent_iff_built (α := Sample) .small ds
  have hgsend : g.send.answer = .error .ioError := (hall g).1.trans (by decide +kernel)
  have hhsend : h.send.answer = .error .ioError := (hall h).1.trans (by decide +kernel)
  have hnone : ∀ o ∈ Outcome.trace step (construct .small).state cs, o.answer.tableSent = false := by
    decide +kernel
  have hsome : ∃ o ∈ Outcome.trace step (construct .small).state ds, o.answer.tableSent = true := by
    decide +kernel
  refine ⟨?_, hgsend, (hall g).2.1 _ hgsend, hh.mpr ?_, hrest, hhsend, (hall h).2.1 _ hhsend⟩
  · rw [Bool.eq_false_iff]
    intro hc
    obtain ⟨o, ho, p, hp⟩ := hg.mp hc
    have ho := hnone o ho
    rw [hp] at ho
    cases ho
  · obtain ⟨o, ho, hs⟩ := hsome
    exact ⟨o, ho, Reply.tableSent_iff.mp hs⟩

end Group

end BoardObjects
