import RecordStore.Proofs.Cache.Complete

/-!
# Scans and prefixes

Any key may be saved in any table, but a scan of a table in memory looks at the keys of one form,
the one that the table uses.  So it finds the keys of this form that begin with the given bytes, all
of them and nothing else (`Memory.keysStartingWith_eq`), while a cache that holds the same keys
looks at every one of them (`Cache.keysStartingWith_eq`).  The two differ by the keys of the other
form (`Memory.prefix_query`), and not at all after calls that store none of these
(`Memory.keysStartingWith_performAll`).
-/

namespace RecordStore

variable {kind : Kind} {start : Bytes}

/-! ## Tables -/

namespace Table

/-- The keys of a table that begin with given bytes, of either form. -/
def keysWithPrefix (t : Table) (start : Bytes) : List Key :=
  t.keys.filter fun k => k.startsWith start

theorem mem_keysWithPrefix {t : Table} {k : Key} :
    k ∈ t.keysWithPrefix start ↔ k ∈ t.keys ∧ k.startsWith start = true := List.mem_filter

theorem pairwise_keysWithPrefix (t : Table) (start : Bytes) :
    (t.keysWithPrefix start).Pairwise (· < ·) := t.pairwise_keys.filter _

end Table

/-! ## Answers -/

/-- A cache looks at every key that it has. -/
theorem Cache.keysStartingWith_eq {c : Cache} {t : Table}
    (h : ∀ k, k ∈ c.keys kind ↔ k ∈ t.keys) (start : Bytes) :
    (c.perform (.keysStartingWith kind start)).1 = t.keysWithPrefix start := by
  refine sortedSet_eq (t.pairwise_keysWithPrefix start) fun k => ?_
  rw [Table.mem_keysWithPrefix, List.mem_filter, h k]

namespace Memory

/-- A scan finds the keys of the form that the table uses. -/
theorem keysStartingWith_eq (m : Memory) (kind : Kind) (start : Bytes) :
    (m.perform (.keysStartingWith kind start)).1
      = ((m.table kind).keysWithPrefix start).filter fun k => k.form == kind.keyForm := by
  have hscan : (m.perform (.keysStartingWith kind start)).1
      = (m.table kind).scan (.ofRaw kind start) := rfl
  rw [hscan, Table.scan_eq_filter, Table.keysWithPrefix, List.filter_filter]
  rfl

/-- A scan is complete exactly where all that it is after is of the form that the table uses. -/
theorem keysStartingWith_eq_iff {m : Memory} :
    (m.perform (.keysStartingWith kind start)).1 = (m.table kind).keysWithPrefix start ↔
      ∀ k ∈ (m.table kind).keys, k.startsWith start = true → k.form = kind.keyForm := by
  rw [keysStartingWith_eq, List.filter_eq_self]
  constructor
  · intro h k hk hstart
    exact beq_iff_eq.1 (h k (Table.mem_keysWithPrefix.2 ⟨hk, hstart⟩))
  · intro h k hk
    obtain ⟨hk, hstart⟩ := Table.mem_keysWithPrefix.1 hk
    exact beq_iff_eq.2 (h k hk hstart)

/-! ## After calls -/

/-- Calls that store nothing under an address leave nothing there. -/
theorem records_performAll_eq_none {m : Memory} {id : EntryId} {calls : List Call}
    (hcalls : ∀ call ∈ calls, call.stores id = false) (hm : m.records id = none) :
    (m.performAll calls).records id = none := by
  induction calls generalizing m with
  | nil => exact hm
  | cons call calls ih =>
      rw [List.forall_mem_cons] at hcalls
      have hperform := Records.apply_eq_none hcalls.1 hm
      rw [← m.records_perform] at hperform
      exact ih hcalls.2 hperform

/-- After calls that store nothing under a key of the other form that begins with the bytes, a scan
is complete. -/
theorem keysStartingWith_performAll {calls : List Call}
    (hcalls : ∀ call ∈ calls, ∀ k : Key, k.startsWith start = true → k.form ≠ kind.keyForm →
      call.stores ⟨kind, k⟩ = false) :
    ((({} : Memory).performAll calls).perform (.keysStartingWith kind start)).1
      = ((({} : Memory).performAll calls).table kind).keysWithPrefix start := by
  refine keysStartingWith_eq_iff.2 fun k hk hstart => ?_
  by_contra hform
  have hnone : (({} : Memory).performAll calls).records ⟨kind, k⟩ = none :=
    records_performAll_eq_none (fun call hcall => hcalls call hcall k hstart hform) rfl
  rw [Table.mem_keys, Std.TreeMap.contains_eq_isSome_getElem?] at hk
  exact Option.isSome_iff_ne_none.1 hk hnone

/-! ## The two ways to look -/

/-- A cache that holds the keys of a table answers with all that begin with the bytes.  The scan of
the table gives those of the form that the table uses: all of them exactly if there is no other, and
so after every history of calls that store no other. -/
theorem prefix_query (m : Memory) (kind : Kind) (start : Bytes) :
    (m.perform (.keysStartingWith kind start)).1
        = ((m.table kind).keysWithPrefix start).filter (fun k => k.form == kind.keyForm) ∧
      (∀ c : Cache, (∀ k, k ∈ c.keys kind ↔ k ∈ (m.table kind).keys) →
        (c.perform (.keysStartingWith kind start)).1 = (m.table kind).keysWithPrefix start) ∧
      ((m.perform (.keysStartingWith kind start)).1 = (m.table kind).keysWithPrefix start ↔
        ∀ k ∈ (m.table kind).keys, k.startsWith start = true → k.form = kind.keyForm) ∧
      ∀ calls : List Call,
        (∀ call ∈ calls, ∀ k : Key, k.startsWith start = true → k.form ≠ kind.keyForm →
          call.stores ⟨kind, k⟩ = false) →
        ((({} : Memory).performAll calls).perform (.keysStartingWith kind start)).1
          = ((({} : Memory).performAll calls).table kind).keysWithPrefix start :=
  ⟨m.keysStartingWith_eq kind start, fun _ h => Cache.keysStartingWith_eq h start,
    keysStartingWith_eq_iff, fun _ => keysStartingWith_performAll⟩

/-- A transaction is saved under an index key.  The table has the key, and a cache after the same
call finds it by its first byte, but a scan of the table does not. -/
theorem scan_misses_indexKey :
    ∃ (write : Call) (m : Memory) (c : Cache),
      write = .save (.ofBytes .transaction [1]) ⟨.index, [1, 2]⟩ ∧
      m = (({} : Memory).perform write).2 ∧
      c = ((Cache.ofConfig { byteBudget := 0 }).perform write).2 ∧
      (m.perform (.loadAllKeys .transaction)).1 = [[1, 2]] ∧
      (m.table .transaction).keysWithPrefix [1] = [⟨.index, [1, 2]⟩] ∧
      (c.perform (.keysStartingWith .transaction [1])).1 = [⟨.index, [1, 2]⟩] ∧
      (m.perform (.keysStartingWith .transaction [1])).1 = [] :=
  ⟨_, _, _, rfl, rfl, rfl, by decide, by decide, by decide +kernel, by decide⟩

end Memory

end RecordStore
