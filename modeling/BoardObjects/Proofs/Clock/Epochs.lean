/-
# A filled bank does not change until it is freed

While no caller frees the bank, what it shows can only grow: the note that it has been
sent stays, and once there are domains, they stay with their flags (`Contents.Kept`).
Every other call keeps this, whether it is refused or not (`View.next_kept`).

Callers that share a state see it in the states that their calls find. Each call finds
what the call before it has left, so in a stretch of a history without a free every
call finds what any call before it has left, up to what may grow
(`System.Run.pairwise_kept`). Hence the first call that puts domains into the bank
decides what all calls find until the next free, whoever makes them.
-/
import BoardObjects.Clock.Clients
import BoardObjects.Proofs.Clock.Refinement

namespace BoardObjects

namespace Clock

/-! ### What calls keep -/

/-- From `t` on the bank has come to `t'` without a free. -/
structure Contents.Kept (t t' : Contents) : Prop where
  sent : t.sent = true → t'.sent = true
  filled : t.domains ≠ [] → t'.initFlags = t.initFlags ∧ t'.domains = t.domains

namespace Contents.Kept

theorem refl (t : Contents) : t.Kept t := ⟨id, fun _ => ⟨rfl, rfl⟩⟩

theorem trans {t u v : Contents} (h : t.Kept u) (h' : u.Kept v) : t.Kept v := by
  refine ⟨fun hs => h'.sent (h.sent hs), fun hne => ?_⟩
  obtain ⟨hflags, hds⟩ := h.filled hne
  obtain ⟨hflags', hds'⟩ := h'.filled (hds.symm ▸ hne)
  exact ⟨hflags'.trans hflags, hds'.trans hds⟩

end Contents.Kept

/-- Every call but a free keeps what a bank shows. -/
theorem View.next_kept (t : Contents) {c : Command} (hc : c ≠ .free) :
    ∃ t', (View.present t).next c = .present t' ∧ t.Kept t' := by
  cases c with
  | init => exact ⟨t, rfl, .refl t⟩
  | free => exact absurd rfl hc
  | setUp initFlags ds =>
    simp only [View.next, View.setUp]
    by_cases hempty : t.domains = []
    · by_cases hlen : ds.length ≤ 32
      · rw [if_neg (not_not_intro hempty), dif_pos hlen]
        exact ⟨_, rfl, id, fun hne => absurd hempty hne⟩
      · rw [if_neg (not_not_intro hempty), dif_neg hlen]
        exact ⟨t, rfl, .refl t⟩
    · rw [if_pos hempty]
      exact ⟨t, rfl, .refl t⟩
  | send => exact ⟨_, rfl, fun _ => rfl, fun _ => ⟨rfl, rfl⟩⟩
  | ask q => exact ⟨t, rfl, .refl t⟩

namespace State.Shows

variable {s : State} {v : View} {t : Contents}

theorem step_kept (h : s.Shows (.present t)) {c : Command} (hc : c ≠ .free) :
    ∃ t', (Clock.step s c).state.Shows (.present t') ∧ t.Kept t' := by
  obtain ⟨t', heq, hkept⟩ := View.next_kept t hc
  exact ⟨t', heq ▸ h.step c, hkept⟩

theorem setUp_accepted (h : s.Shows v) {initFlags : Word} {ds : List Word}
    (hok : (s.setUp initFlags ds).answer = .ok ()) :
    ∃ t, (s.setUp initFlags ds).state.Shows (.present t) ∧ t.initFlags = initFlags ∧
      t.domains = ds := by
  have hconf := h.setUp_conforms initFlags ds
  have hview : (v.setUp initFlags ds).map Prod.fst = .ok () := hconf.answer.symm.trans hok
  cases v with
  | absent => cases hview
  | present t =>
    rw [View.setUp] at hview hconf
    split at hview
    · cases hview
    · split at hview
      · rename_i hne hlen
        rw [if_neg hne, dif_pos hlen] at hconf
        exact ⟨_, hconf.accepted _ _ rfl, rfl, rfl⟩
      · cases hview

theorem send_accepted (h : s.Shows v) {p : Payload} (hok : s.send.answer = .ok p) :
    ∃ t, s.send.state.Shows (.present t) ∧ t.sent = true := by
  have hconf := h.send_conforms
  cases v with
  | absent => cases hconf.answer.symm.trans hok
  | present t => exact ⟨_, hconf.accepted _ _ rfl, rfl⟩

/-- A state with domains is known up to the flags of its group. -/
theorem eq_present (h : s.Shows (.present t)) :
    ∃ flags, s = .present ⟨domainsGroup t.domains flags, t.initFlags⟩ ∧
      flags.contains .sent = t.sent := by
  cases h with
  | @present b _ hb =>
    refine ⟨b.group.flags, ?_, hb.contains_sent⟩
    rw [← hb.holds.eq_domainsGroup, ← hb.initFlags]

theorem setUp_busy (h : s.Shows (.present t)) (hfilled : t.domains ≠ []) (initFlags : Word)
    (ds : List Word) : (s.setUp initFlags ds).answer = .error .busy := by
  cases h with
  | present hb =>
    rw [hb.setUp_filled hfilled]
    rfl

theorem send_ok (h : s.Shows (.present t)) :
    s.send.answer = .ok (domainsPayload t.domains) := h.send_conforms.answer

end State.Shows

/-! ### Histories -/

namespace System

variable {ι : Type} [DecidableEq ι] {x y z : System ι} {e : Served ι} {h h' : List (Served ι)}

theorem Step.outcome (hstep : Step x e y) :
    e.found = x.state ∧ e.reply = (Clock.step e.found e.command).answer ∧
      y.state = (Clock.step e.found e.command).state := by
  cases hstep
  exact ⟨rfl, rfl, rfl⟩

theorem Step.calls (hstep : Step x e y) (i : ι) :
    x.pending i = ([e].filter (·.caller = i)).map Served.command ++ y.pending i := by
  cases hstep with
  | @serve j c cs hnext =>
    by_cases hij : j = i
    · subst hij
      simp [System.serve, hnext]
    · simp [System.serve, hij, Ne.symm hij]

theorem Run.calls (hrun : Run x h y) (i : ι) :
    x.pending i = (h.filter (·.caller = i)).map Served.command ++ y.pending i := by
  induction hrun with
  | nil => rfl
  | @cons x y z e es first rest ih =>
    have hsplit : e :: es = [e] ++ es := rfl
    rw [first.calls i, ih, hsplit, List.filter_append, List.map_append, List.append_assoc]

theorem Run.of_append (hrun : Run x (h ++ h') z) : ∃ y, Run x h y ∧ Run y h' z := by
  induction h generalizing x with
  | nil => exact ⟨x, .nil x, hrun⟩
  | cons e es ih =>
    cases hrun with
    | cons first rest =>
      obtain ⟨y, hfront, hback⟩ := ih rest
      exact ⟨y, .cons first hfront, hback⟩

/-- What is seen of the state goes on being seen, and every call finds some of it. -/
theorem Run.shows (hrun : Run x h y) (hx : ∃ v, x.state.Shows v) :
    (∃ v, y.state.Shows v) ∧ ∀ e ∈ h, (∃ v, e.found.Shows v) ∧
      e.reply = (Clock.step e.found e.command).answer := by
  induction hrun with
  | nil => exact ⟨hx, fun e he => (List.not_mem_nil he).elim⟩
  | @cons x y z e es first rest ih =>
    obtain ⟨hfound, hreply, hstate⟩ := first.outcome
    obtain ⟨v, hv⟩ := hx
    have he : e.found.Shows v := hfound ▸ hv
    obtain ⟨hz, hall⟩ := ih ⟨_, hstate ▸ he.step e.command⟩
    exact ⟨hz, List.forall_mem_cons.mpr ⟨⟨⟨v, he⟩, hreply⟩, hall⟩⟩

/-- As long as nobody frees the bank, every call finds what there was at first, or
more. -/
theorem Run.kept {t : Contents} (hrun : Run x h y) (hfree : ∀ e ∈ h, e.command ≠ .free)
    (hx : x.state.Shows (.present t)) :
    ∀ e ∈ h, ∃ t', e.found.Shows (.present t') ∧ t.Kept t' := by
  induction hrun generalizing t with
  | nil => exact fun e he => (List.not_mem_nil he).elim
  | @cons x y z e es first rest ih =>
    obtain ⟨hfound, -, hstate⟩ := first.outcome
    obtain ⟨hnot, hrest⟩ := List.forall_mem_cons.mp hfree
    have he : e.found.Shows (.present t) := hfound ▸ hx
    obtain ⟨t', ht', hkept⟩ := he.step_kept hnot
    refine List.forall_mem_cons.mpr ⟨⟨t, he, .refl t⟩, fun e' he' => ?_⟩
    obtain ⟨u, hu, hkept'⟩ := ih hrest (hstate ▸ ht') e' he'
    exact ⟨u, hu, hkept.trans hkept'⟩

/-- As long as nobody frees the bank, every call finds what any call before it has
left, or more. -/
theorem Run.pairwise_kept (hrun : Run x h y) (hfree : ∀ e ∈ h, e.command ≠ .free) :
    h.Pairwise fun w e => ∀ t, (Clock.step w.found w.command).state.Shows (.present t) →
      ∃ t', e.found.Shows (.present t') ∧ t.Kept t' := by
  induction hrun with
  | nil => exact .nil
  | @cons x y z e es first rest ih =>
    obtain ⟨-, -, hstate⟩ := first.outcome
    obtain ⟨-, hrest⟩ := List.forall_mem_cons.mp hfree
    exact .cons (fun e' he' t ht => rest.kept hrest (hstate ▸ ht) e' he') (ih hrest)

end System

/-! ### From a setup to the next free -/

/-- The call has put domains into the bank, and at least one. -/
def Served.Fills {ι : Type} (e : Served ι) (initFlags : Word) (ds : List Word) : Prop :=
  e.command = .setUp initFlags ds ∧ ds ≠ [] ∧ e.reply = .result (.ok ())

/-- What is read and answered by a call that finds domains. -/
theorem Served.replies {ι : Type} {e : Served ι} {t : Contents}
    (hfound : e.found.Shows (.present t)) (hreply : e.reply = (step e.found e.command).answer)
    (hfilled : t.domains ≠ []) :
    (∃ flags, (∀ (β : Type) (read : Bank → β),
        e.found.inspect read = .ok (read ⟨domainsGroup t.domains flags, t.initFlags⟩)) ∧
      ∀ q, e.command = .ask q → e.reply = .answer (.ok ((domainsGroup t.domains flags).ask q))) ∧
    (∀ fl es, e.command = .setUp fl es → e.reply = .result (.error .busy)) ∧
    (e.command = .send → e.reply = .sent (.ok (domainsPayload t.domains))) := by
  obtain ⟨flags, heq, -⟩ := hfound.eq_present
  refine ⟨⟨flags, fun β read => ?_, fun q hc => ?_⟩, fun fl es hc => ?_, fun hc => ?_⟩
  · rw [heq]
    rfl
  · rw [hreply, hc, heq]
    rfl
  · rw [hreply, hc]
    exact congrArg Reply.result (hfound.setUp_busy hfilled fl es)
  · rw [hreply, hc]
    exact congrArg Reply.sent hfound.send_ok

variable {ι : Type} [DecidableEq ι] {programs : ι → List Command}
  {before epoch after : List (Served ι)} {x : System ι}

/-- **A filled bank does not change until it is freed.** Callers with any programs share a
state in which there is no bank at first. In any stretch of their history without a free at
most one setup puts domains into the bank. Whatever a later call of the stretch reads, it
reads off a bank with the flags and the domains of that setup. A later setup is refused,
a later send gives the payload of those domains, and once one has been sent, every later
call finds it noted. -/
theorem filled_until_freed
    (hrun : System.Run ⟨.absent, programs⟩ (before ++ epoch ++ after) x)
    (hfree : ∀ e ∈ epoch, e.command ≠ .free) :
    (epoch.Pairwise fun w e => ∀ initFlags ds, w.Fills initFlags ds →
      (∀ fl es, ¬ e.Fills fl es) ∧
      (∃ flags, (∀ (β : Type) (read : Bank → β),
          e.found.inspect read = .ok (read ⟨domainsGroup ds flags, initFlags⟩)) ∧
        ∀ q, e.command = .ask q → e.reply = .answer (.ok ((domainsGroup ds flags).ask q))) ∧
      (∀ fl es, e.command = .setUp fl es → e.reply = .result (.error .busy)) ∧
      (e.command = .send → e.reply = .sent (.ok (domainsPayload ds)))) ∧
    epoch.Pairwise fun p e => ∀ y, p.command = .send → p.reply = .sent (.ok y) →
      e.found.inspect (fun b => b.group.flags.contains .sent) = .ok true := by
  obtain ⟨_, hfront, -⟩ := hrun.of_append
  obtain ⟨z, hbefore, hepoch⟩ := hfront.of_append
  have hz : ∃ v, z.state.Shows v := (hbefore.shows ⟨_, .absent⟩).1
  have hserved := (hepoch.shows hz).2
  have hkept := hepoch.pairwise_kept hfree
  refine ⟨hkept.imp_of_mem fun {w e} hw he hwe initFlags ds hfills => ?_,
    hkept.imp_of_mem fun {p e} hp he hpe y hsend hsent => ?_⟩
  · -- what the filling call has left, the later call still finds
    obtain ⟨hcommand, hne, hok⟩ := hfills
    obtain ⟨⟨v, hv⟩, hwreply⟩ := hserved w hw
    obtain ⟨-, hreply⟩ := hserved e he
    rw [hcommand] at hwreply hwe
    have haccepted : (w.found.setUp initFlags ds).answer = .ok () :=
      Reply.result.inj (hwreply.symm.trans hok)
    obtain ⟨t, ht, rfl, rfl⟩ := hv.setUp_accepted haccepted
    obtain ⟨t', ht', hkept'⟩ := hwe t ht
    obtain ⟨hflags, hds⟩ := hkept'.filled hne
    obtain ⟨hreads, hbusy, hpayload⟩ := Served.replies ht' hreply (hds.symm ▸ hne)
    rw [hflags, hds] at hreads
    rw [hds] at hpayload
    refine ⟨fun fl es hagain => ?_, hreads, hbusy, hpayload⟩
    cases (hbusy fl es hagain.1).symm.trans hagain.2.2
  · -- the note that a send has left is found as well, with or without domains
    obtain ⟨⟨v, hv⟩, hpreply⟩ := hserved p hp
    rw [hsend] at hpreply hpe
    have haccepted : p.found.send.answer = .ok y := Reply.sent.inj (hpreply.symm.trans hsent)
    obtain ⟨t, ht, hnoted⟩ := hv.send_accepted haccepted
    obtain ⟨t', ht', hkept'⟩ := hpe t ht
    obtain ⟨flags, hfound, hflags⟩ := ht'.eq_present
    rw [hfound]
    exact congrArg Except.ok (hflags.trans (hkept'.sent hnoted))

/-- Three callers. The first makes the bank; before its own setup the second has sent
the empty bank and the third has put no domain in. The first setup with a domain wins:
the second caller's is refused, the third reads its domain at index 1, and the payload
has its domains. -/
theorem filled_until_freed_three_callers :
    let programs : Fin 3 → List Command := fun i =>
      if i = 0 then [.init, .setUp 1#32 [7#32, 8#32], .send]
      else if i = 1 then [.send, .setUp 2#32 [9#32]]
      else [.setUp 3#32 [], .ask (.get 1), .free]
    let call : Fin 3 → Command → State → Served (Fin 3) := fun i c s =>
      ⟨i, c, s, (step s c).answer⟩
    let s := Outcome.run step .absent [.init]
    let t := Outcome.run step s [.send, .setUp 3#32 []]
    let u := Outcome.run step t [.setUp 1#32 [7#32, 8#32]]
    let epoch := [call 1 .send s, call 2 (.setUp 3#32 []) (s.send).state,
      call 0 (.setUp 1#32 [7#32, 8#32]) t, call 1 (.setUp 2#32 [9#32]) u,
      call 2 (.ask (.get 1)) u, call 0 .send u]
    (∃ x, System.Run ⟨.absent, programs⟩
        ([call 0 .init .absent] ++ epoch ++ [call 2 .free (u.send).state]) x) ∧
      (step t (.setUp 1#32 [7#32, 8#32])).answer = .result (.ok ()) ∧
      (step u (.setUp 2#32 [9#32])).answer = .result (.error .busy) ∧
      (step u (.ask (.get 1))).answer = .answer (.ok (.object (some ⟨8#32⟩))) ∧
      (step u .send).answer = .sent (.ok (domainsPayload [7#32, 8#32])) ∧
      u.inspect (fun b => b.group.flags.contains .sent) = .ok true := by
  intro programs call s t u epoch
  have hrun : System.Run ⟨.absent, programs⟩
      ([call 0 .init .absent] ++ epoch ++ [call 2 .free (u.send).state]) _ :=
    .cons (.serve rfl) <| .cons (.serve rfl) <| .cons (.serve rfl) <| .cons (.serve rfl) <|
      .cons (.serve rfl) <| .cons (.serve rfl) <| .cons (.serve rfl) <| .cons (.serve rfl) <| .nil _
  have hfree : ∀ e ∈ epoch, e.command ≠ .free := by simp [epoch, call]
  obtain ⟨hfills, hsent⟩ := filled_until_freed hrun hfree
  have hwins : (step t (.setUp 1#32 [7#32, 8#32])).answer = .result (.ok ()) := rfl
  have hlater := fun j (hj : 2 < j) (hlt : j < 6) =>
    List.pairwise_iff_getElem.mp hfills 2 j (by decide) hlt hj 1#32 [7#32, 8#32]
      ⟨rfl, by decide, hwins⟩
  obtain ⟨-, -, hbusy, -⟩ := hlater 3 (by decide) (by decide)
  obtain ⟨-, ⟨flags, -, hask⟩, -⟩ := hlater 4 (by decide) (by decide)
  obtain ⟨-, -, -, hpayload⟩ := hlater 5 (by decide) (by decide)
  have hnoted := List.pairwise_iff_getElem.mp hsent 0 5 (by decide) (by decide) (by decide) _ rfl rfl
  exact ⟨⟨_, hrun⟩, hwins, hbusy _ _ rfl, hask _ rfl, hpayload rfl, hnoted⟩

end Clock

end BoardObjects
