import RecordStore.Memory

/-!
# What a backend stores

What a backend stores is seen as the record under each address, or none.  The calls that
write change it address by address, and every other call leaves it alone.  Tables in
memory store in this way (`Memory.records_perform`).

A call may be carried out, refused, or fail.  A batch that fails may have been carried out
in part, up to some entry.
-/

namespace RecordStore

/-- The record under each address. -/
abbrev Records := EntryId → Option Record

namespace Records

def put (t : Records) (e : Entry) : Records :=
  fun id => if id = e.id then some e.2 else t id

def erase (t : Records) (id : EntryId) : Records :=
  fun i => if i = id then none else t i

def drop (t : Records) (kind : Kind) : Records :=
  fun id => if id.kind = kind then none else t id

def clearMetadata (t : Records) (kind : Kind) : Records :=
  let t : Records := fun id => if id.kind = kind then (t id).map Record.clearMetadata else t id
  if kind = .transaction then t.drop .transactionMetadata else t

def apply (t : Records) : Call → Records
  | .save record key => t.put (key, record)
  | .saveBatch entries => entries.foldl put t
  | .update record key _ => t.put (key, record)
  | .delete kind key => t.erase ⟨kind, key⟩
  | .deleteBatch ids => ids.foldl erase t
  | .clear kind => t.drop kind
  | .clearMetadata kind => t.clearMetadata kind
  | _ => t

variable {t : Records} {id : EntryId}

theorem put_self (t : Records) (key : Key) (record : Record) :
    t.put (key, record) (record.idAt key) = some record := if_pos rfl

theorem put_of_ne {key : Key} {record : Record} (h : id ≠ record.idAt key) :
    t.put (key, record) id = t id := if_neg h

/-! ## Batches -/

/-- A batch without an address leaves it alone. -/
theorem saveBatch_of_not_mem {entries : List Entry} (h : ∀ e ∈ entries, e.id ≠ id) :
    t.apply (.saveBatch entries) id = t id := by
  induction entries generalizing t with
  | nil => rfl
  | cons e entries ih =>
      obtain ⟨he, h⟩ := List.forall_mem_cons.1 h
      calc (t.put e).apply (.saveBatch entries) id = t.put e id := ih h
        _ = t id := if_neg he.symm

/-- Where no address comes twice, a batch stores each of its entries. -/
theorem saveBatch_of_mem {entries : List Entry} {e : Entry} (hn : (entries.map Entry.id).Nodup)
    (he : e ∈ entries) : t.apply (.saveBatch entries) e.id = some e.2 := by
  induction entries generalizing t with
  | nil => cases he
  | cons d entries ih =>
      rw [List.map_cons, List.nodup_cons] at hn
      cases he with
      | head =>
          have hother : ∀ x ∈ entries, x.id ≠ e.id := by
            intro x hx hid
            exact hn.1 (hid ▸ List.mem_map_of_mem hx)
          calc (t.put e).apply (.saveBatch entries) e.id = t.put e e.id :=
                saveBatch_of_not_mem hother
            _ = some e.2 := if_pos rfl
      | tail _ he => exact ih hn.2 he

/-- A batch leaves an address alone or stores an entry of its own there. -/
theorem saveBatch_cases (entries : List Entry) (t : Records) :
    t.apply (.saveBatch entries) id = t id ∨
      ∃ e ∈ entries, e.id = id ∧ t.apply (.saveBatch entries) id = some e.2 := by
  induction entries generalizing t with
  | nil => exact Or.inl rfl
  | cons d entries ih =>
      rcases ih (t.put d) with h | ⟨e, he, hid, h⟩
      · by_cases hid : id = d.id
        · exact Or.inr ⟨d, by simp, hid.symm, h.trans (if_pos hid)⟩
        · exact Or.inl (h.trans (if_neg hid))
      · exact Or.inr ⟨e, by simp [he], hid, h⟩

/-- A batch stores under an address the last entry that it has for it. -/
theorem saveBatch_apply (entries : List Entry) (t : Records) (id : EntryId) :
    t.apply (.saveBatch entries) id
      = ((entries.reverse.find? fun e => e.id = id).map fun e => some e.2).getD (t id) := by
  induction entries generalizing t with
  | nil => rfl
  | cons e entries ih =>
      refine (ih (t.put e)).trans ?_
      rw [List.reverse_cons, List.find?_append]
      cases hfind : entries.reverse.find? fun e => e.id = id with
      | some d => rfl
      | none =>
          by_cases hid : e.id = id
          · simp [put, hid]
          · simp [put, hid, Ne.symm hid]

theorem deleteBatch_apply (ids : List EntryId) (t : Records) :
    t.apply (.deleteBatch ids) id = if id ∈ ids then none else t id := by
  induction ids generalizing t with
  | nil => rfl
  | cons i ids ih =>
      refine (ih (t.erase i)).trans ?_
      by_cases hid : id = i
      · simp [erase, hid]
      · simp [erase, hid]

end Records

/-! ## Calls that write -/

namespace Call

/-- Whether a call stores a record under an address. -/
def stores (id : EntryId) : Call → Bool
  | save record key | update record key _ => record.idAt key == id
  | saveBatch entries => entries.any fun e => e.id == id
  | _ => false

/-- Whether a call removes what is under an address. -/
def removes (id : EntryId) : Call → Bool
  | delete kind key => (⟨kind, key⟩ : EntryId) == id
  | deleteBatch ids => ids.contains id
  | clear kind => id.kind == kind
  | _ => false

def isRemoval : Call → Bool
  | delete _ _ | deleteBatch _ | clear _ => true
  | _ => false

end Call

namespace Records

variable {t : Records} {id : EntryId} {call : Call}

/-- A removal leaves nothing under its addresses. -/
theorem apply_of_removes (h : call.removes id = true) : t.apply call id = none := by
  cases call with
  | delete kind key => exact if_pos (beq_iff_eq.1 h).symm
  | deleteBatch ids =>
      rw [deleteBatch_apply]
      exact if_pos (List.contains_iff_mem.1 h)
  | clear kind => exact if_pos (beq_iff_eq.1 h)
  | _ => cases h

/-- Nothing is stored under an address by calls that do not store there. -/
theorem apply_eq_none (h : call.stores id = false) (ht : t id = none) :
    t.apply call id = none := by
  cases call with
  | save record key | update record key _ =>
      rw [Call.stores, beq_eq_false_iff_ne] at h
      exact (put_of_ne h.symm).trans ht
  | saveBatch entries =>
      refine (saveBatch_of_not_mem fun e he hid => ?_).trans ht
      simp only [Call.stores, List.any_eq_false, beq_iff_eq] at h
      exact h e he hid
  | delete kind key => simp [apply, erase, ht]
  | deleteBatch ids => simp [deleteBatch_apply, ht]
  | clear kind => simp [apply, drop, ht]
  | clearMetadata kind =>
      simp only [apply, clearMetadata]
      split
      · simp [drop, ht]
      · simp [ht]
  | _ => exact ht

end Records

/-! ## Verdicts -/

/-- What becomes of a call on a backend. -/
inductive Verdict where
  | done
  /-- It is refused.  A call that accepts nothing cannot be refused. -/
  | refused
  /-- It fails.  Of a batch, entries up to a number were carried out before. -/
  | failed (cause : Failure) (part : Nat)

namespace Verdict

/-- What the caller is told. -/
def outcome : Verdict → (call : Call) → call.Outcome
  | done, call => .ok call.discard
  | refused, call => .ok (call.refusal?.getD call.discard)
  | failed cause _, _ => .error cause

def carriedOut : Verdict → Call → Option Call
  | done, call => some call
  | refused, call => if call.refusal?.isSome then none else some call
  | failed _ part, .saveBatch entries => some (.saveBatch (entries.take part))
  | failed _ part, .deleteBatch ids => some (.deleteBatch (ids.take part))
  | failed _ _, _ => none

end Verdict

/-! ## Tables in memory -/

namespace Memory

variable (m : Memory)

def records : Records := fun id => (m.table id.kind)[id.key]?

theorem table_modify (kind k : Kind) (f : Table → Table) :
    (m.modify kind f).table k = if kind = k then f (m.table kind) else m.table k := by
  simp only [table, modify, Std.TreeMap.getD_insert, Std.LawfulEqCmp.compare_eq_iff_eq]

theorem records_put (e : Entry) : (m.put e).records = m.records.put e := by
  funext id
  obtain ⟨kind, key⟩ := id
  simp only [records, put, table_modify, Records.put, Entry.id, Record.idAt, EntryId.mk.injEq]
  by_cases hkind : e.2.kind = kind
  · simp only [hkind, if_true, Std.TreeMap.getElem?_insert, Std.LawfulEqCmp.compare_eq_iff_eq,
      true_and, eq_comm (a := key)]
  · simp [hkind, Ne.symm hkind]

theorem records_erase (id : EntryId) : (m.erase id).records = m.records.erase id := by
  funext i
  obtain ⟨kind, key⟩ := i
  obtain ⟨kind', key'⟩ := id
  simp only [records, erase, table_modify, Records.erase, EntryId.mk.injEq]
  by_cases hkind : kind' = kind
  · simp only [hkind, if_true, Std.TreeMap.getElem?_erase, Std.LawfulEqCmp.compare_eq_iff_eq,
      true_and, eq_comm (a := key)]
  · simp [hkind, Ne.symm hkind]

theorem records_drop (kind : Kind) : (m.drop kind).records = m.records.drop kind := by
  funext id
  simp only [records, drop, table, Records.drop, Std.TreeMap.getD_erase,
    Std.LawfulEqCmp.compare_eq_iff_eq]
  by_cases hkind : kind = id.kind
  · simp [hkind]
  · simp [hkind, Ne.symm hkind]

theorem records_clearMetadata (kind : Kind) :
    (m.clearMetadata kind).records = m.records.clearMetadata kind := by
  have hmodify : (m.modify kind Table.clearMetadata).records
      = fun id => if id.kind = kind then (m.records id).map Record.clearMetadata
          else m.records id := by
    funext id
    simp only [records, table_modify, Table.clearMetadata]
    by_cases hkind : kind = id.kind
    · simp [hkind]
    · simp [hkind, Ne.symm hkind]
  simp only [clearMetadata, Records.clearMetadata]
  split
  · rw [records_drop, hmodify]
  · exact hmodify

theorem records_foldl_put (entries : List Entry) (m : Memory) :
    (entries.foldl put m).records = entries.foldl Records.put m.records := by
  induction entries generalizing m with
  | nil => rfl
  | cons e entries ih => rw [List.foldl_cons, ih, records_put, List.foldl_cons]

theorem records_foldl_erase (ids : List EntryId) (m : Memory) :
    (ids.foldl erase m).records = ids.foldl Records.erase m.records := by
  induction ids generalizing m with
  | nil => rfl
  | cons id ids ih => rw [List.foldl_cons, ih, records_erase, List.foldl_cons]

/-- Tables in memory store and remove what they are called to. -/
theorem records_perform (call : Call) :
    (m.perform call).2.records = m.records.apply call := by
  cases call with
  | save record key => exact records_put m.countWrite (key, record)
  | update record key reason => exact records_put m.countWrite (key, record)
  | saveBatch entries => exact records_foldl_put entries m.countBatch
  | delete kind key => exact records_erase m ⟨kind, key⟩
  | deleteBatch ids => exact records_foldl_erase ids m
  | clear kind => exact records_drop m kind
  | clearMetadata kind => exact records_clearMetadata m kind
  | _ => rfl

end Memory

end RecordStore
