/-
# The clock state as its callers see it

A caller sees of the clock state no more than this: there is no bank, or there is one
with its flags, its list of domains and whether its payload has been built. `View` is
what is seen, with the calls told on it, refusals included. Every call on a state
does what its namesake does to the view (`State.Shows.init_conforms`,
`State.Shows.setUp_conforms`, `State.Shows.send_conforms`); and what can be read off
a bank is in the view.

A setup cannot stop halfway: a bank that has no domain has room for 32 of them, and
more are refused before the first is put in. So a refused call leaves the state as it
was. By induction the state after any sequence of calls shows the view after the same
sequence (`State.Shows.run`).
-/
import BoardObjects.Clock.Program
import BoardObjects.Proofs.Clock.Domains
import BoardObjects.Proofs.Conformance

namespace BoardObjects

namespace Clock

/-! ### Views -/

/-- What a caller sees of a bank. -/
structure Contents where
  initFlags : Word
  domains : List Word
  /-- The payload has been built since the bank was made. -/
  sent : Bool
  length_le : domains.length ≤ 32

/-- What a caller sees of a clock state. -/
inductive View where
  | absent
  | present (t : Contents)

namespace View

/-- There is an empty bank after it; there must not be one before. -/
def init : View → Except ErrorCode (Unit × View)
  | present _ => .error .busy
  | absent => .ok ((), present ⟨0#32, [], false, Nat.zero_le _⟩)

/-- The bank has the given domains after it; it must not have any before, and there
must not be more than 32. That it is filled counts more than that there are too
many. -/
def setUp (initFlags : Word) (ds : List Word) : View → Except ErrorCode (Unit × View)
  | absent => .error .noDevice
  | present t =>
    if t.domains ≠ [] then .error .busy
    else if h : ds.length ≤ 32 then .ok ((), present ⟨initFlags, ds, t.sent, h⟩)
    else .error .invalidArgument

/-- The payload of the domains; after it, it has been built. -/
def send : View → Except ErrorCode (Payload × View)
  | absent => .error .noDevice
  | present t => .ok (domainsPayload t.domains, present { t with sent := true })

def next (v : View) : Command → View
  | .init => Outcome.settle v v.init
  | .free => absent
  | .setUp initFlags ds => Outcome.settle v (v.setUp initFlags ds)
  | .send => Outcome.settle v v.send
  | .ask _ => v

/-- The view after a sequence of calls. -/
def run (v : View) (cs : List Command) : View := cs.foldl next v

end View

/-! ### What a state shows -/

structure Bank.Shows (b : Bank) (t : Contents) : Prop where
  holds : Holds b.group t.domains
  initFlags : b.initFlags = t.initFlags
  flags : b.group.flags = if t.sent then Flags.constructed.insert .sent else .constructed

namespace Bank.Shows

variable {b : Bank} {t : Contents}

theorem contains_sent (h : b.Shows t) : b.group.flags.contains .sent = t.sent := by
  rw [h.flags]
  cases t.sent <;> rfl

theorem setUp_filled (h : b.Shows t) (hfilled : t.domains ≠ []) (initFlags : Word) (ds : List Word) :
    State.setUp initFlags ds (.present b) = .refused (.present b) .busy [] := by
  have hne : (!b.group.isEmpty) = true := by
    rw [Bool.not_eq_true', ← Bool.not_eq_true]
    exact fun hempty => hfilled (h.holds.isEmpty_iff.mp hempty)
  exact if_pos hne

theorem setUp_beyond (h : b.Shows t) (hempty : t.domains = []) (initFlags : Word) {ds : List Word}
    (hlong : State.capacity.size < ds.length) :
    State.setUp initFlags ds (.present b) =
      .refused (.present b) .invalidArgument [.tooManyDomains ds.length] := by
  rw [State.setUp, h.holds.isEmpty_iff.mpr hempty, if_neg (by decide), if_pos hlong]

/-- An empty bank takes any list of domains that is not too long, to its end. -/
theorem setUp_ok (h : b.Shows t) (hempty : t.domains = []) (initFlags : Word) {ds : List Word}
    (hroom : ds.length ≤ State.capacity.size) :
    ∃ g, State.setUp initFlags ds (.present b) =
        ⟨.ok (), .present ⟨g, initFlags⟩, [.domainsReady ds.length]⟩ ∧
      Holds g ds ∧ g.flags = b.group.flags := by
  have hnone : Holds b.group [] := hempty ▸ h.holds
  obtain ⟨g, hfilled, hg, hflags⟩ := hnone.populate ds (by rwa [List.length_nil, Nat.zero_add])
  refine ⟨g, ?_, hg, hflags⟩
  rw [List.length_nil] at hfilled
  rw [List.nil_append] at hg
  rw [State.setUp, hnone.isEmpty_iff.mpr rfl, if_neg (by decide), if_neg (Nat.not_lt.mpr hroom)]
  simp only [hfilled, List.nil_append, hg.count_eq]

/-- A payload is always made, and nothing but the flag is changed by it. -/
theorem send (h : b.Shows t) :
    b.group.send = ⟨.ok (domainsPayload t.domains),
      { b.group with flags := Flags.constructed.insert .sent },
      [.groupSent t.domains.length (domainsPayload t.domains).table.length]⟩ := by
  have hflags : b.group.flags.insert .sent = Flags.constructed.insert .sent := by
    rw [h.flags]
    cases t.sent <;> rfl
  rw [Group.send, h.holds.payload_eq, h.holds.count_eq, hflags]

end Bank.Shows

/-- The state is seen as a view. -/
inductive State.Shows : State → View → Prop where
  | absent : Shows .absent .absent
  | present {b : Bank} {t : Contents} (h : b.Shows t) : Shows (.present b) (.present t)

namespace State.Shows

variable {s : State} {v : View}

theorem init_conforms (h : s.Shows v) : Outcome.Conforms State.Shows s s.init v.init := by
  cases h with
  | absent => exact Outcome.conforms_done (.present ⟨.empty, rfl, rfl⟩) _ _
  | present h => exact Outcome.conforms_refused ..

theorem setUp_conforms (h : s.Shows v) (initFlags : Word) (ds : List Word) :
    Outcome.Conforms State.Shows s (s.setUp initFlags ds) (v.setUp initFlags ds) := by
  cases h with
  | absent => exact Outcome.conforms_refused ..
  | @present b t h =>
    rw [View.setUp]
    by_cases hempty : t.domains = []
    · rw [if_neg (not_not_intro hempty)]
      by_cases hlen : ds.length ≤ 32
      · obtain ⟨g, heq, hg, hflags⟩ := h.setUp_ok hempty initFlags hlen
        rw [dif_pos hlen, heq]
        exact Outcome.conforms_done (.present ⟨hg, rfl, hflags.trans h.flags⟩) _ _
      · rw [dif_neg hlen, h.setUp_beyond hempty initFlags (Nat.lt_of_not_le hlen)]
        exact Outcome.conforms_refused ..
    · rw [if_pos hempty, h.setUp_filled hempty]
      exact Outcome.conforms_refused ..

theorem send_conforms (h : s.Shows v) : Outcome.Conforms State.Shows s s.send v.send := by
  cases h with
  | absent => exact Outcome.conforms_refused ..
  | @present b t h =>
    rw [State.send, h.send]
    exact Outcome.conforms_done (.present ⟨h.holds.withFlags _, h.initFlags, rfl⟩) _ _

theorem step (h : s.Shows v) (c : Command) : (Clock.step s c).state.Shows (v.next c) := by
  cases c with
  | init => exact h.init_conforms.related h
  | free => exact .absent
  | setUp initFlags ds => exact (h.setUp_conforms initFlags ds).related h
  | send => exact h.send_conforms.related h
  | ask q => exact h

theorem run (h : s.Shows v) (cs : List Command) :
    (Outcome.run Clock.step s cs).Shows (v.run cs) := by
  induction cs generalizing s v with
  | nil => exact h
  | cons c cs ih => exact ih (h.step c)

end State.Shows

/-- **The clock state refines its view.** After any sequence of calls the state shows the
view after the same calls. The next call answers as it does on the view and leaves a state
that shows the view after it, the same state where it is refused. Whatever is read off the
state is refused without a bank; otherwise it is read off a bank with the flags and the
domains of the view, each at the index of its place, noted as sent if the view is. -/
theorem runs_refine_views (cs : List Command) :
    let s := Outcome.run step .absent cs
    let v := View.absent.run cs
    s.Shows v ∧
    Outcome.Conforms State.Shows s s.init v.init ∧
    s.free = .absent ∧
    (∀ (initFlags : Word) (ds : List Word),
      Outcome.Conforms State.Shows s (s.setUp initFlags ds) (v.setUp initFlags ds)) ∧
    Outcome.Conforms State.Shows s s.send v.send ∧
    match v with
    | .absent => ∀ (β : Type) (f : Bank → β), s.inspect f = .error .noDevice
    | .present t => ∃ b, (∀ (β : Type) (f : Bank → β), s.inspect f = .ok (f b)) ∧
        b.initFlags = t.initFlags ∧ b.group.count = t.domains.length ∧
        (∀ i : UInt8, b.group.get? i = t.domains[i.toNat]?.map Domain.mk) ∧
        (∀ i : UInt8, b.group.mask.get i = decide (i.toNat < t.domains.length)) ∧
        b.group.flags.contains .sent = t.sent := by
  intro s v
  have h : s.Shows v := State.Shows.absent.run cs
  -- from here on only what the state shows counts, not the calls that led to it
  clear_value s v
  refine ⟨h, h.init_conforms, rfl, h.setUp_conforms, h.send_conforms, ?_⟩
  cases h with
  | absent => exact fun _ _ => rfl
  | @present b t hb =>
    exact ⟨b, fun _ _ => rfl, hb.initFlags, hb.holds.count_eq, hb.holds.get?_eq, hb.holds.get_eq,
      hb.contains_sent⟩

/-- A bank that has refused 33 domains, has taken none and has been sent takes 32
after that. It is full then, which counts more than that the next list is too long. -/
theorem runs_refine_views_refilled :
    let ds := List.replicate 32 7#32
    let s := Outcome.run step .absent [.setUp 1#32 ds, .init, .setUp 2#32 (0#32 :: ds),
      .setUp 3#32 [], .send, .init, .setUp 4#32 ds]
    (s.setUp 5#32 (0#32 :: ds)).answer = .error .busy ∧ (s.setUp 5#32 ds).state = s ∧
      s.init.answer = .error .busy ∧
      ∃ b, s.inspect id = .ok b ∧ b.initFlags = 4#32 ∧ b.group.count = 32 ∧
        b.group.get? 31 = some ⟨7#32⟩ ∧ b.group.get? 32 = none ∧ b.group.mask.get 31 = true ∧
        b.group.flags.contains .sent = true := by
  intro ds s
  have hv : View.absent.run [.setUp 1#32 ds, .init, .setUp 2#32 (0#32 :: ds),
      .setUp 3#32 [], .send, .init, .setUp 4#32 ds] = .present ⟨4#32, ds, true, by decide⟩ := rfl
  obtain ⟨-, hinit, -, hsetUp, -, hbank⟩ := runs_refine_views [.setUp 1#32 ds, .init,
    .setUp 2#32 (0#32 :: ds), .setUp 3#32 [], .send, .init, .setUp 4#32 ds]
  rw [hv] at hinit hsetUp hbank
  obtain ⟨b, hb, hflags, hcount, hget, hmask, hsent⟩ := hbank
  exact ⟨(hsetUp 5#32 (0#32 :: ds)).answer, (hsetUp 5#32 ds).refused _ rfl, hinit.answer, b, hb _ id,
    hflags, hcount, hget 31, hget 32, hmask 31, hsent⟩

end Clock

end BoardObjects
