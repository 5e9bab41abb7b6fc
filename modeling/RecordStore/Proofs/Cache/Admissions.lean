import RecordStore.Proofs.Cache.Changes

/-!
# What an admission leaves behind

When a record is admitted, the passes that are under way know older versions of its entry,
if they have the entry at all, and no batch has its address marked.  As long as the entry
is not admitted again and not removed, this stays as it is: its slot keeps the record until
it is dropped, every pass that begins later knows the record, and only a pass that began
earlier may still delete the entry from the backend.  All of this is `View.Current`.
-/

namespace RecordStore

namespace Cache

variable {κ : Type} {g : JobSystem κ} {s : WithJobs} {v v' : View} {e : Event κ} {id : EntryId}
  {r : Record} {version first : Nat}

/-! ## What passes write -/

namespace Pass

variable {p : Pass}

theorem stores_entries : (Call.saveBatch p.entries).stores id = true ↔ id ∈ p.ids := by
  rw [← p.map_id_entries, List.mem_map]
  simp only [Call.stores, List.any_eq_true, beq_iff_eq]

/-- The write of a pass stores what the pass knows. -/
theorem apply_entries (hnodup : p.ids.Nodup) (hid : id ∈ p.ids)
    (hrecord : ∀ d ∈ p.candidates, d.slot.id = id → d.slot.record = r) (t : Records) :
    t.apply (.saveBatch p.entries) id = some r := by
  obtain ⟨d, hd, rfl⟩ := mem_ids.1 hid
  have hentry : d.slot.entry ∈ p.entries := mem_entries.2 ⟨d, hd, rfl⟩
  rw [← map_id_entries] at hnodup
  rw [← hrecord d hd rfl]
  exact Records.saveBatch_of_mem hnodup hentry

end Pass

/-! ## Admitted records -/

/-- A record was admitted with a version, when the next batch was the first of its number, and
nothing happened to its entry since. -/
structure View.Current (v : View) (id : EntryId) (r : Record) (version first : Nat) : Prop where
  first_le : first ≤ v.contents.nextBatch
  slot : ∀ d ∈ v.contents.slots.candidates, d.slot.id = id →
    d.slot.version = version ∧ d.slot.record = r
  /-- Passes that began before know older versions. -/
  older : ∀ n p, (v.stage n).pass? = some p → p.batch < first →
    ∀ d ∈ p.candidates, d.slot.id = id → d.slot.version < version
  /-- Passes that began later know the record. -/
  newer : ∀ n p, (v.stage n).pass? = some p → first ≤ p.batch →
    ∀ d ∈ p.candidates, d.slot.id = id → d.slot.record = r
  unmarked : ∀ b ∈ v.contents.batches, id ∉ b.deleted
  /-- Passes that began later do not delete the entry. -/
  redeletes : ∀ n p written ids, v.stage n = .deleting p written ids → id ∈ ids → p.batch < first

namespace View.Current

theorem of_accept (hs : v.Sound) (key : Key) (record : Record) :
    View.Current { v with contents := v.contents.put key record } (record.idAt key) record
      (v.contents.slots.lastVersion + 1) v.contents.nextBatch where
  first_le := by rw [Contents.nextBatch_put]
  slot d hd hid := by
    rcases (Contents.mem_slots_put hs.slots).1 hd with rfl | ⟨-, hne⟩
    · exact ⟨rfl, rfl⟩
    · exact absurd hid hne
  older n p hp _ d hd _ := Nat.lt_succ_of_le ((hs.knows n p hp).version_le d hd)
  newer n p hp hfirst := absurd hfirst (Nat.not_le_of_gt (hs.knows n p hp).batch_lt)
  unmarked b hb := by
    rw [Contents.batches_put] at hb
    obtain ⟨a, -, rfl⟩ := List.mem_map.1 hb
    exact fun hdeleted => (Batch.mem_unmark.1 hdeleted).2 rfl
  redeletes n p written ids hstage _ := (hs.knows n p (by rw [hstage]; rfl)).batch_lt

/-- An address without a slot, before anything was admitted. -/
theorem of_start (g : JobSystem κ) (id : EntryId) (r : Record) :
    View.Current ⟨.empty g.config.maxEntries, g.initial, [], fun _ => .resting⟩ id r 0 0 where
  first_le := Nat.le_refl _
  slot d hd := by cases hd
  older n p hp := by cases hp
  newer n p hp := by cases hp
  unmarked b hb := by cases hb
  redeletes n p written ids hstage := by cases hstage

theorem congr (h : v.Current id r version first) (stored : Records)
    (calls : List (Option Nat × Call)) :
    View.Current { v with stored, calls } id r version first :=
  ⟨h.first_le, h.slot, h.older, h.newer, h.unmarked, h.redeletes⟩

theorem not_mem_finish (h : v.Current id r version first) (hs : v.Sound) {n : Nat} {p : Pass}
    (hp : (v.stage n).open? = some p) : id ∉ (v.contents.finish p.batch).1 := by
  obtain ⟨b, hb, hnumber, -⟩ := hs.batch n p hp
  rw [← hnumber, hs.numbered.finish_fst hb]
  exact h.unmarked b hb

/-- Nothing changes as long as no event concerns the entry. -/
theorem move (h : v.Current id r version first) (hs : v.Sound) (hm : Move g v e v')
    (he : e.concerns g.config id = false) : v'.Current id r version first where
  first_le := Nat.le_trans h.first_le (hm.grows hs).nextBatch
  slot d hd hid := h.slot d (hm.mem_slots hs (Bool.or_eq_false_iff.1 he).1 hd hid) hid
  older n p hp hlt := by
    rcases hm.pass? hp with hold | ⟨hnumber, -⟩
    · exact h.older n p hold hlt
    · rw [hnumber] at hlt
      exact absurd h.first_le (Nat.not_le_of_gt hlt)
  newer n p hp hle d hd hid := by
    rcases hm.pass? hp with hold | ⟨-, hsub⟩
    · exact h.newer n p hold hle d hd hid
    · exact (h.slot d (hsub.subset hd) hid).2
  unmarked b' hb' hdeleted := by
    rcases hm.mem_batches id hb' with ⟨-, hnil⟩ | ⟨b, hb, -, -, hmarks⟩
    · rw [hnil] at hdeleted
      cases hdeleted
    · exact h.unmarked b hb (hmarks (Bool.or_eq_false_iff.1 he).2 hdeleted)
  redeletes n p written ids hstage hid := by
    rcases hm.deleting hstage with hold | ⟨hopen, rfl⟩
    · exact h.redeletes n p written ids hold hid
    · exact absurd hid (h.not_mem_finish hs hopen)

/-- If the slot goes away, then a pass drops it that began after the admission. -/
theorem exists_dropping (h : v.Current id r version first) (hs : v.Sound) (hm : Move g v e v')
    (he : e.concerns g.config id = false) {d : Candidate}
    (hd : d ∈ v.contents.slots.candidates) (hid : d.slot.id = id)
    (hgone : ∀ d ∈ v'.contents.slots.candidates, d.slot.id ≠ id) :
    ∃ n p, v.stage n = .dropping p ∧ first ≤ p.batch ∧ id ∈ p.ids := by
  rcases hm.mem_slots_or_dropping hs he hd hid with hstays | ⟨n, p, hstage, hmem⟩
  · exact absurd hid (hgone d hstays)
  · refine ⟨n, p, hstage, Nat.le_of_not_lt fun hlt => ?_, Pass.mem_ids.2 ⟨d, hmem, hid⟩⟩
    have hless := h.older n p (by rw [hstage]; rfl) hlt d hmem hid
    rw [(h.slot d hd hid).1] at hless
    exact Nat.lt_irrefl _ hless

end View.Current

end Cache

end RecordStore
