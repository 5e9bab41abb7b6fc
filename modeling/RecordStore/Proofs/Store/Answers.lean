import Mathlib.Data.List.TakeWhile
import RecordStore.Proofs.Cache.Backend
import RecordStore.Proofs.Cache.Faithful

/-!
# What searches find

Some calls search for one entry: by its key, at an end of a table, or beside a key.  An answer to
such a call gives an entry or none (`Call.entry?`), and the entry is one of those that the call
asks for (`Call.covers`).

A cache gives an entry of its slots, and it gives none only if no slot has one that is asked for
(`Cache.Running.entry_of_found?`, `Cache.Running.not_covers_of_found?`).  A `Backend` carries every
call out and gives entries that it stores.  Tables in memory are one (`Memory.backend`).
-/

namespace RecordStore

namespace Call

/-- The entry that an answer gives, if the call searches for one. -/
def entry? : (call : Call) → call.Answer → Option Entry
  | get _ key, r => r.map (key, ·)
  | seek kind raw, r => r.map (.ofRaw kind raw, ·)
  | first _, e | latest _, e | next _ _, e | previous _ _, e => e
  | _, _ => none

/-- Whether a call searches for an entry at an address. -/
def covers : Call → EntryId → Bool
  | get kind key, id => id == ⟨kind, key⟩
  | seek kind raw, id => id == ⟨kind, .ofRaw kind raw⟩
  | first kind, id | latest kind, id => id.kind == kind
  | next kind key, id => id.kind == kind && key < id.key
  | previous kind key, id => id.kind == kind && id.key < key
  | _, _ => false

/-- The entry that a component gives back for a call. -/
def found? (call : Call) : call.Outcome → Option Entry
  | .ok a => call.entry? a
  | .error _ => none

/-- Whether a call may change what is stored under an address. -/
def changes (id : EntryId) : Call → Bool
  | save record key | update record key _ => record.idAt key == id
  | saveBatch entries => entries.any fun e => e.id == id
  | delete kind key => (⟨kind, key⟩ : EntryId) == id
  | deleteBatch ids => ids.contains id
  | clear kind => id.kind == kind
  | clearMetadata kind => id.kind == kind || kind == .transaction && id.kind == .transactionMetadata
  | _ => false

end Call

/-! ## Backends -/

namespace Records

variable {t : Records} {id : EntryId}

theorem apply_of_not_changes {call : Call} (h : call.changes id = false) :
    t.apply call id = t id := by
  cases call with
  | save record key | update record key reason =>
      exact put_of_ne (beq_eq_false_iff_ne.1 h).symm
  | saveBatch entries =>
      refine saveBatch_of_not_mem fun e he hid => ?_
      simp only [Call.changes, List.any_eq_false, beq_iff_eq] at h
      exact h e he hid
  | delete kind key => exact if_neg (beq_eq_false_iff_ne.1 h).symm
  | deleteBatch ids =>
      rw [deleteBatch_apply, if_neg]
      rwa [Call.changes, List.contains_eq_mem, decide_eq_false_iff_not] at h
  | clear kind => exact if_neg (beq_eq_false_iff_ne.1 h)
  | clearMetadata kind =>
      simp only [Call.changes, Bool.or_eq_false_iff, beq_eq_false_iff_ne, ne_eq] at h
      simp only [apply, clearMetadata]
      split
      next hkind =>
        have hother : id.kind ≠ .transactionMetadata := by simpa [hkind] using h.2
        rw [drop, if_neg hother, if_neg h.1]
      next => exact if_neg h.1
  | _ => rfl

/-- Every record is in the table of its kind. -/
def Tabled (t : Records) : Prop := ∀ id r, t id = some r → r.kind = id.kind

theorem Tabled.put (h : t.Tabled) (e : Entry) : (t.put e).Tabled := by
  intro id r hr
  by_cases hid : id = e.id
  · rw [hid, Records.put, if_pos rfl] at hr
    rw [hid, ← Option.some.inj hr]
    rfl
  · rw [Records.put, if_neg hid] at hr
    exact h id r hr

/-- Entries that are left are where they were. -/
theorem Tabled.of_le {t' : Records} (h : t.Tabled) (hle : ∀ id, t' id = t id ∨ t' id = none) :
    t'.Tabled := by
  intro id r hr
  rcases hle id with hsame | hnone
  · exact h id r (hsame ▸ hr)
  · rw [hnone] at hr
    cases hr

theorem Tabled.clearMetadata (h : t.Tabled) (kind : Kind) : (t.clearMetadata kind).Tabled := by
  have hmap : Tabled fun id =>
      if id.kind = kind then (t id).map Record.clearMetadata else t id := by
    intro id r hr
    dsimp only at hr
    split at hr
    · obtain ⟨r', hr', rfl⟩ := Option.map_eq_some_iff.1 hr
      exact h id r' hr'
    · exact h id r hr
  simp only [Records.clearMetadata]
  split
  · refine hmap.of_le fun id => ?_
    simp only [drop]
    split
    · exact Or.inr rfl
    · exact Or.inl rfl
  · exact hmap

theorem Tabled.apply (h : t.Tabled) (call : Call) : (t.apply call).Tabled := by
  cases call with
  | save record key | update record key reason => exact h.put (key, record)
  | saveBatch entries =>
      show (entries.foldl Records.put t).Tabled
      induction entries generalizing t with
      | nil => exact h
      | cons e entries ih => exact ih (h.put e)
  | delete kind key =>
      refine h.of_le fun id => ?_
      simp only [Records.apply, erase]
      split
      · exact Or.inr rfl
      · exact Or.inl rfl
  | deleteBatch ids =>
      refine h.of_le fun id => ?_
      rw [deleteBatch_apply]
      split
      · exact Or.inr rfl
      · exact Or.inl rfl
  | clear kind =>
      refine h.of_le fun id => ?_
      simp only [Records.apply, drop]
      split
      · exact Or.inr rfl
      · exact Or.inl rfl
  | clearMetadata kind => exact h.clearMetadata kind
  | _ => exact h

end Records

/-- A backend that carries out every call, and gives entries that it stores. -/
structure Backend where
  State : Type
  perform : State → (call : Call) → call.Answer × State
  records : State → Records
  records_perform : ∀ (s : State) (call : Call),
    records (perform s call).2 = (records s).apply call
  get_eq : ∀ (s : State) (kind : Kind) (key : Key),
    (perform s (.get kind key)).1 = records s ⟨kind, key⟩
  entry_eq : ∀ (s : State) (call : Call) (e : Entry), call.entry? (perform s call).1 = some e →
    call.covers e.id = true ∧ records s e.id = some e.2

namespace Memory

variable {m : Memory}

theorem records_of_mem (h : m.records.Tabled) {kind : Kind} {e : Entry}
    (he : e ∈ (m.table kind).entries) : e.id.kind = kind ∧ m.records e.id = some e.2 := by
  have hget : m.records ⟨kind, e.1⟩ = some e.2 := Std.TreeMap.mem_toList_iff_getElem?_eq_some.1 he
  have hkind : e.2.kind = kind := h ⟨kind, e.1⟩ e.2 hget
  have hid : e.id = ⟨kind, e.1⟩ := by
    rw [Entry.id, Record.idAt, hkind]
  exact ⟨hkind, hid ▸ hget⟩

/-- What tables in memory find is what they store. -/
theorem entry_perform (h : m.records.Tabled) {call : Call} {e : Entry}
    (he : call.entry? (m.perform call).1 = some e) :
    call.covers e.id = true ∧ m.records e.id = some e.2 := by
  have hmem : ∀ {kind : Kind}, e ∈ (m.table kind).entries →
      e.id.kind = kind ∧ m.records e.id = some e.2 := records_of_mem h
  have hkey : ∀ {kind : Kind} {key : Key}, ((m.table kind)[key]?).map (key, ·) = some e →
      e.id = ⟨kind, key⟩ ∧ m.records e.id = some e.2 := by
    intro kind key hget
    obtain ⟨r, hr, rfl⟩ := Option.map_eq_some_iff.1 hget
    have hkind : r.kind = kind := h ⟨kind, key⟩ r hr
    have hid : Entry.id (key, r) = ⟨kind, key⟩ := by
      rw [Entry.id, Record.idAt, hkind]
    exact ⟨hid, hid ▸ hr⟩
  cases call with
  | get kind key | seek kind raw =>
      obtain ⟨hid, hr⟩ := hkey he
      exact ⟨beq_iff_eq.2 hid, hr⟩
  | first kind =>
      obtain ⟨hkind, hr⟩ := hmem (List.mem_of_head? he)
      exact ⟨beq_iff_eq.2 hkind, hr⟩
  | latest kind =>
      obtain ⟨hkind, hr⟩ := hmem (List.mem_of_getLast? he)
      exact ⟨beq_iff_eq.2 hkind, hr⟩
  | next kind key =>
      have he : (m.table kind).entries.find? (fun e => key < e.1) = some e := he
      obtain ⟨hkind, hr⟩ := hmem (List.mem_of_find?_eq_some he)
      have hlt := List.find?_some he
      exact ⟨Bool.and_eq_true_iff.2 ⟨beq_iff_eq.2 hkind, hlt⟩, hr⟩
  | previous kind key =>
      have hlast := List.mem_of_getLast? he
      obtain ⟨hkind, hr⟩ := hmem (List.takeWhile_subset _ hlast)
      have hlt := List.mem_takeWhile_imp hlast
      exact ⟨Bool.and_eq_true_iff.2 ⟨beq_iff_eq.2 hkind, hlt⟩, hr⟩
  | _ => cases he

/-- Tables in memory, with every record in the table of its kind. -/
def backend : Backend where
  State := { m : Memory // m.records.Tabled }
  perform m call := ((m.val.perform call).1, ⟨(m.val.perform call).2, by
    rw [records_perform]
    exact m.property.apply call⟩)
  records m := m.val.records
  records_perform m call := m.val.records_perform call
  get_eq _ _ _ := rfl
  entry_eq m _ _ he := entry_perform m.property he

end Memory

/-! ## Caches -/

namespace Cache

variable {config : Config} {c : Cache}

theorem foldl_better_mem (prefer : Key → Key → Bool) (e : Entry) (rest : List Entry) :
    rest.foldl (better prefer) e ∈ e :: rest := by
  induction rest generalizing e with
  | nil => exact List.mem_cons_self
  | cons d rest ih =>
      rw [List.foldl_cons]
      have hbetter : better prefer e d = d ∨ better prefer e d = e := by
        simp only [better]
        split
        · exact Or.inl rfl
        · exact Or.inr rfl
      rcases hbetter with h | h
      · rw [h]
        exact List.mem_cons_of_mem _ (ih d)
      · rw [h]
        rcases List.mem_cons.1 (ih e) with hhead | htail
        · rw [hhead]
          exact List.mem_cons_self
        · exact List.mem_cons_of_mem _ (List.mem_cons_of_mem _ htail)

theorem mem_ofKind {kind : Kind} {accept : Key → Bool} {e : Entry} :
    e ∈ ((c.contents.slots.ofKind kind).map Slot.entry).filter (fun e => accept e.1) ↔
      ∃ d ∈ c.contents.slots.candidates, d.slot.entry = e ∧ d.slot.id.kind = kind ∧
        accept d.slot.id.key = true := by
  simp only [Slots.ofKind, Slots.toList, List.mem_filter, List.mem_map, beq_iff_eq]
  constructor
  · rintro ⟨⟨slot, ⟨⟨d, hd, rfl⟩, hkind⟩, rfl⟩, haccept⟩
    exact ⟨d, hd, rfl, hkind, haccept⟩
  · rintro ⟨d, hd, rfl, hkind, haccept⟩
    exact ⟨⟨d.slot, ⟨⟨d, hd, rfl⟩, hkind⟩, rfl⟩, haccept⟩

/-- What is picked is an entry of the cache that is acceptable. -/
theorem pick_eq_some {kind : Kind} {accept : Key → Bool} {prefer : Key → Key → Bool} {e : Entry}
    (h : c.pick kind accept prefer = some e) : ∃ d ∈ c.contents.slots.candidates,
      d.slot.entry = e ∧ d.slot.id.kind = kind ∧ accept d.slot.id.key = true := by
  rw [← mem_ofKind]
  simp only [pick] at h
  split at h
  next => cases h
  next d rest hlist =>
    rw [hlist, ← Option.some.inj h]
    exact foldl_better_mem prefer d rest

/-- Something is picked if anything is acceptable. -/
theorem pick_eq_none {kind : Kind} {accept : Key → Bool} {prefer : Key → Key → Bool}
    (h : c.pick kind accept prefer = none) {d : Candidate} (hd : d ∈ c.contents.slots.candidates)
    (hkind : d.slot.id.kind = kind) : accept d.slot.id.key = false := by
  rw [← Bool.not_eq_true]
  intro haccept
  have hmem := mem_ofKind.2 ⟨d, hd, rfl, hkind, haccept⟩
  simp only [pick] at h
  split at h
  next hlist =>
    rw [hlist] at hmem
    cases hmem
  next => cases h

namespace Running

variable {r : Running}

/-- A read by an address gives the entry of its slot. -/
theorem slot_of_recordAt? (hs : r.cache.contents.slots.Sound) {id : EntryId} {e : Entry}
    (he : (r.cache.contents.slots.recordAt? id).map (id.key, ·) = some e) :
    e.id = id ∧ ∃ d ∈ r.cache.contents.slots.candidates, d.slot.entry = e := by
  obtain ⟨record, hrecord, rfl⟩ := Option.map_eq_some_iff.1 he
  rw [hs.recordAt?_eq, Slots.get?_eq] at hrecord
  obtain ⟨slot, hslot, rfl⟩ := Option.map_eq_some_iff.1 hrecord
  obtain ⟨d, hd, rfl⟩ := Option.map_eq_some_iff.1 hslot
  obtain ⟨hd, hid⟩ := hs.find?_eq_some_iff.1 hd
  have hentry : (id.key, d.slot.record) = d.slot.entry := by
    rw [← hid]
    rfl
  rw [hentry]
  exact ⟨hid, d, hd, rfl⟩

/-- What a cache finds is one of its entries. -/
theorem entry_of_found? (h : r.cache.Sound config) {call : Call} {e : Entry}
    (he : call.found? (r.perform call).1 = some e) : call.covers e.id = true ∧
      ∃ d ∈ r.cache.contents.slots.candidates, d.slot.entry = e := by
  have hs := h.contents.slots
  have hf := faithful_of_sound h
  have hpick : ∀ (kind : Kind) (accept : Key → Bool) (prefer : Key → Key → Bool),
      r.cache.pick kind accept prefer = some e →
        (e.id.kind == kind && accept e.id.key) = true ∧
          ∃ d ∈ r.cache.contents.slots.candidates, d.slot.entry = e := by
    intro kind accept prefer hpicked
    obtain ⟨d, hd, rfl, hkind, haccept⟩ := pick_eq_some hpicked
    exact ⟨Bool.and_eq_true_iff.2 ⟨beq_iff_eq.2 hkind, haccept⟩, d, hd, rfl⟩
  cases call with
  | get kind key =>
      rw [hf.get] at he
      obtain ⟨hid, hd⟩ := slot_of_recordAt? hs he
      exact ⟨beq_iff_eq.2 hid, hd⟩
  | seek kind raw =>
      rw [hf.seek] at he
      obtain ⟨hid, hd⟩ := slot_of_recordAt? hs he
      exact ⟨beq_iff_eq.2 hid, hd⟩
  | first kind =>
      obtain ⟨hcovers, hd⟩ := hpick kind (fun _ => true) (fun a b => a < b) he
      exact ⟨(Bool.and_eq_true_iff.1 hcovers).1, hd⟩
  | latest kind =>
      obtain ⟨hcovers, hd⟩ := hpick kind (fun _ => true) (fun a b => b < a) he
      exact ⟨(Bool.and_eq_true_iff.1 hcovers).1, hd⟩
  | next kind key => exact hpick kind (fun k => key < k) (fun a b => a < b) he
  | previous kind key => exact hpick kind (fun k => k < key) (fun a b => b < a) he
  | init =>
      simp only [Call.found?] at he
      split at he <;> cases he
  | _ => cases he

/-- What a cache does not find has no slot. -/
theorem not_covers_of_found? (h : r.cache.Sound config) {call : Call}
    (hnone : call.found? (r.perform call).1 = none) {d : Candidate}
    (hd : d ∈ r.cache.contents.slots.candidates) : call.covers d.slot.id = false := by
  have hf := faithful_of_sound h
  have hget : ∀ {id : EntryId}, (r.cache.contents.slots.recordAt? id).map (id.key, ·) = none →
      (d.slot.id == id) = false := by
    intro id hrecord
    rw [Option.map_eq_none_iff, Slots.recordAt?_eq_none_iff] at hrecord
    exact beq_eq_false_iff_ne.2 (hrecord d hd)
  have hpick : ∀ (kind : Kind) (accept : Key → Bool) (prefer : Key → Key → Bool),
      r.cache.pick kind accept prefer = none →
        (d.slot.id.kind == kind && accept d.slot.id.key) = false := by
    intro kind accept prefer hpicked
    by_cases hkind : d.slot.id.kind = kind
    · rw [pick_eq_none hpicked hd hkind, Bool.and_false]
    · rw [beq_eq_false_iff_ne.2 hkind, Bool.false_and]
  cases call with
  | get kind key =>
      rw [hf.get] at hnone
      exact hget hnone
  | seek kind raw =>
      rw [hf.seek] at hnone
      exact hget hnone
  | first kind =>
      have hkind := hpick kind (fun _ => true) (fun a b => a < b) hnone
      rwa [Bool.and_true] at hkind
  | latest kind =>
      have hkind := hpick kind (fun _ => true) (fun a b => b < a) hnone
      rwa [Bool.and_true] at hkind
  | next kind key => exact hpick kind (fun k => key < k) (fun a b => a < b) hnone
  | previous kind key => exact hpick kind (fun k => k < key) (fun a b => b < a) hnone
  | _ => rfl

end Running

end Cache

end RecordStore
