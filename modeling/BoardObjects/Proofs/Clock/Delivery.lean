/-
# Domains on their way to the firmware

A list of domains that a bank has taken is sent as the wire mask of its positions and
one record for each domain. All records have six bytes, so the record of a position is
found at a multiple of six behind the mask (`Record.slice_flatMap`), and the bytes
behind the mask are read back as the records (`decode?_domainRecords`), whose bodies are
the domains. The mask is read back as the set of the positions
(`Holds.create_mask`).

It does not matter which calls have led to the bank, only that it is empty when it is
set up (`State.Shows.delivers`). So what the firmware receives is the list, and two
lists are told apart by their bytes.
-/
import BoardObjects.Proofs.Clock.Refinement
import BoardObjects.Proofs.Group.Decoding

namespace BoardObjects

/-! ### Records of one size -/

namespace Record

variable {n : ℕ} {rs : List Record}

theorem length_flatMap (h : ∀ r ∈ rs, r.toBytes.length = n) :
    (rs.flatMap toBytes).length = n * rs.length := by
  induction rs with
  | nil => rfl
  | cons r rs ih =>
    obtain ⟨hr, hrest⟩ := List.forall_mem_cons.mp h
    rw [List.flatMap_cons, List.length_append, hr, ih hrest, List.length_cons, Nat.mul_succ,
      Nat.add_comm]

/-- Each record lies behind those in front of it. -/
theorem slice_flatMap (h : ∀ r ∈ rs, r.toBytes.length = n) {k : ℕ} (hk : k < rs.length) :
    ((rs.flatMap toBytes).drop (n * k)).take n = rs[k].toBytes := by
  induction rs generalizing k with
  | nil => cases hk
  | cons r rs ih =>
    obtain ⟨hr, hrest⟩ := List.forall_mem_cons.mp h
    rw [List.flatMap_cons]
    cases k with
    | zero => exact List.take_left' hr
    | succ k =>
      rw [Nat.mul_succ, Nat.add_comm, ← List.drop_drop, List.drop_left' hr]
      exact ih hrest (Nat.lt_of_succ_lt_succ hk)

end Record

theorem Word.toBytes_eq (w : Word) :
    w.toBytes = [UInt8.ofNat w.toNat, UInt8.ofNat (w.toNat >>> 8), UInt8.ofNat (w.toNat >>> 16),
      UInt8.ofNat (w.toNat >>> 24)] := rfl

namespace Clock

/-! ### The records of a list of domains -/

def domainRecords (ds : List Word) : List Record :=
  ds.zipIdx.map fun d => ⟨Domain.kind, UInt8.ofNat d.2, d.1.toBytes⟩

/-- Reads the domains off the bytes of a payload: the bodies of the records behind the
mask. -/
def readDomains (bs : List UInt8) : Option (List Word) :=
  (Record.decode? (fun _ => 4) (bs.drop WireMask.byteCount)).map fun rs =>
    rs.map fun r => Word.ofBytes r.body

theorem table_domainsPayload (ds : List Word) :
    (domainsPayload ds).table = (domainRecords ds).flatMap Record.toBytes := by
  rw [domainRecords, List.flatMap_map]
  rfl

theorem length_domainRecords (ds : List Word) : (domainRecords ds).length = ds.length := by
  rw [domainRecords, List.length_map, List.length_zipIdx]

theorem length_body {ds : List Word} {r : Record} (hr : r ∈ domainRecords ds) :
    r.body.length = 4 := by
  obtain ⟨d, -, rfl⟩ := List.mem_map.mp hr
  exact d.1.length_toBytes

theorem length_record {ds : List Word} {r : Record} (hr : r ∈ domainRecords ds) :
    r.toBytes.length = 6 := congrArg (· + 2) (length_body hr)

theorem getElem_domainRecords {ds : List Word} {k : ℕ} (hk : k < (domainRecords ds).length)
    (hk' : k < ds.length) :
    (domainRecords ds)[k] = ⟨Domain.kind, UInt8.ofNat k, ds[k].toBytes⟩ := by
  simp [domainRecords]

/-! ### The bytes of their payload -/

theorem drop_toBytes (p : Payload) : p.toBytes.drop WireMask.byteCount = p.table :=
  List.drop_left' p.mask.length_toBytes

theorem length_toBytes_domainsPayload (ds : List Word) :
    (domainsPayload ds).toBytes.length = 32 + 6 * ds.length := by
  rw [Payload.toBytes, List.length_append, WireMask.length_toBytes, table_domainsPayload,
    Record.length_flatMap fun _ => length_record, length_domainRecords]
  rfl

/-- The six bytes at the place of a position are the record of its domain. -/
theorem slice_toBytes {ds : List Word} {k : ℕ} (hk : k < ds.length) :
    ((domainsPayload ds).toBytes.drop (WireMask.byteCount + 6 * k)).take 6 =
      [Domain.kind, UInt8.ofNat k] ++ ds[k].toBytes := by
  have hk' : k < (domainRecords ds).length := (length_domainRecords ds).symm ▸ hk
  rw [← List.drop_drop, drop_toBytes, table_domainsPayload,
    Record.slice_flatMap (fun _ => length_record) hk', getElem_domainRecords hk' hk]
  rfl

/-- The domains are read back from the bytes of their payload. -/
theorem readDomains_toBytes (ds : List Word) :
    readDomains (domainsPayload ds).toBytes = some ds := by
  have hbodies : (domainRecords ds).map (fun r => Word.ofBytes r.body) = ds :=
    calc (domainRecords ds).map (fun r => Word.ofBytes r.body)
        = ds.zipIdx.map fun d => Word.ofBytes d.1.toBytes := List.map_map
      _ = ds.zipIdx.map Prod.fst := List.map_congr_left fun d _ => d.1.ofBytes_toBytes
      _ = ds := List.zipIdx_map_fst 0 ds
  rw [readDomains, drop_toBytes, table_domainsPayload, Record.decode?_flatMap fun _ => length_body,
    Option.map_some, hbodies]

theorem Holds.create_mask {g : Group Domain} {ds : List Word} (h : Holds g ds) :
    ∃ m, Mask.create 32 (some (domainsPayload ds).mask) = .ok m ∧
      ∀ i : UInt8, m.get i = decide (i.toNat < ds.length) := by
  obtain ⟨m, hm, hclean, hbeq⟩ := Group.parseMask_wire (g := g) rfl h.coupled.clean.bounded
  obtain ⟨hc, hwords⟩ := (Mask.beq_iff m g.mask).mp hbeq
  obtain rfl : m = g.mask := Mask.eq_of_words_eq hclean h.coupled.clean hc hwords
  have hcapacity : g.capacity = 32 := h.coupledAt.capacity
  rw [Group.parseMask, hcapacity, h.words_eq] at hm
  exact ⟨g.mask, hm, h.get_eq⟩

/-! ### From a setup to the firmware -/

/-- A bank without domains takes a list of at most 32, and sends it. -/
theorem State.Shows.delivers {s : State} {v : View} (h : s.Shows v)
    (hempty : s.inspect (fun b => b.group.isEmpty) = .ok true) (initFlags : Word) {ds : List Word}
    (hlen : ds.length ≤ 32) :
    (s.setUp initFlags ds).answer = .ok () ∧
      (s.setUp initFlags ds).state.send.answer = .ok (domainsPayload ds) ∧
      ∃ g, Holds g ds := by
  cases h with
  | absent => cases hempty
  | @present b t hb =>
    have hnone : t.domains = [] := hb.holds.isEmpty_iff.mp (Except.ok.inj hempty)
    obtain ⟨g, heq, hg, hflags⟩ := hb.setUp_ok hnone initFlags hlen
    have hshows : (⟨g, initFlags⟩ : Bank).Shows ⟨initFlags, ds, t.sent, hlen⟩ :=
      ⟨hg, rfl, hflags.trans hb.flags⟩
    rw [heq]
    exact ⟨rfl, (State.Shows.present hshows).send_conforms.answer, g, hg⟩

/-- **Domains reach the firmware.** A bank without domains, after whatever calls, takes any
list of at most 32, and the next payload is made. Its mask is read back with exactly the
indices below the length of the list; the six bytes of each position are the kind, the
position and the domain, low byte first; and another such payload with the same bytes is of
the same list. -/
theorem domains_delivered {cs : List Command}
    (hempty : (Outcome.run step .absent cs).inspect (fun b => b.group.isEmpty) = .ok true)
    (initFlags : Word) {ds : List Word} (hlen : ds.length ≤ 32) :
    let s := Outcome.run step .absent cs
    (s.setUp initFlags ds).answer = .ok () ∧
    ∃ p, (s.setUp initFlags ds).state.send.answer = .ok p ∧
      p.toBytes.length = 32 + 6 * ds.length ∧
      (∃ w m, WireMask.ofBytes p.toBytes = .ok w ∧ Mask.create 32 (some w) = .ok m ∧
        ∀ i : UInt8, m.get i = decide (i.toNat < ds.length)) ∧
      (∀ k, (hk : k < ds.length) → (p.toBytes.drop (32 + 6 * k)).take 6 =
        [Domain.kind, UInt8.ofNat k, UInt8.ofNat ds[k].toNat, UInt8.ofNat (ds[k].toNat >>> 8),
          UInt8.ofNat (ds[k].toNat >>> 16), UInt8.ofNat (ds[k].toNat >>> 24)]) ∧
      readDomains p.toBytes = some ds ∧
      ∀ (cs' : List Command) (initFlags' : Word) (ds' : List Word) (p' : Payload),
        (Outcome.run step .absent cs').inspect (fun b => b.group.isEmpty) = .ok true →
        ds'.length ≤ 32 →
        ((Outcome.run step .absent cs').setUp initFlags' ds').state.send.answer = .ok p' →
        p'.toBytes = p.toBytes → ds' = ds := by
  intro s
  obtain ⟨hsetUp, hsend, g, hg⟩ := (State.Shows.absent.run cs).delivers hempty initFlags hlen
  obtain ⟨m, hm, hget⟩ := hg.create_mask
  refine ⟨hsetUp, domainsPayload ds, hsend, length_toBytes_domainsPayload ds,
    ⟨_, m, WireMask.ofBytes_toBytes_append _ _, hm, hget⟩, fun k hk => ?_, readDomains_toBytes ds,
    fun cs' initFlags' ds' p' hempty' hlen' hsend' hbytes => ?_⟩
  · exact (slice_toBytes hk).trans (by rw [Word.toBytes_eq]; rfl)
  · obtain ⟨-, hsent, -⟩ := (State.Shows.absent.run cs').delivers hempty' initFlags' hlen'
    obtain rfl : domainsPayload ds' = p' := Except.ok.inj (hsent.symm.trans hsend')
    have hread : some ds' = some ds := by
      rw [← readDomains_toBytes ds', hbytes, readDomains_toBytes ds]
    exact Option.some.inj hread

/-- A bank that has refused a list before it was made, and has taken an empty one and
sent it, takes 32 domains. The last of them is read off its bytes, and without it the
bytes are others. -/
theorem domains_delivered_full :
    let ds := List.replicate 31 5#32 ++ [0xdeadbeef#32]
    let s := Outcome.run step .absent [.setUp 1#32 ds, .init, .setUp 2#32 [], .send]
    let fresh := Outcome.run step .absent [.init]
    s.inspect (fun b => b.group.isEmpty) = .ok true ∧ (s.setUp 3#32 ds).answer = .ok () ∧
      ∃ p, (s.setUp 3#32 ds).state.send.answer = .ok p ∧ p.toBytes.length = 224 ∧
        (p.toBytes.drop 218).take 6 = [1, 31, 0xef, 0xbe, 0xad, 0xde] ∧
        readDomains p.toBytes = some ds ∧
        ∀ p', (fresh.setUp 3#32 (ds.take 31)).state.send.answer = .ok p' →
          p'.toBytes ≠ p.toBytes := by
  intro ds s fresh
  have hempty : s.inspect (fun b => b.group.isEmpty) = .ok true := rfl
  have hlen : ds.length ≤ 32 := by decide
  obtain ⟨hsetUp, p, hsend, hlength, -, hslice, hread, hinj⟩ := domains_delivered hempty 3#32 hlen
  refine ⟨hempty, hsetUp, p, hsend, hlength, (hslice 31 (by decide)).trans (by decide), hread,
    fun p' hp' hbytes => ?_⟩
  have hsame : ds.take 31 = ds := hinj [.init] 3#32 _ p' rfl (by decide) hp' hbytes
  exact absurd hsame (by decide)

end Clock

end BoardObjects
