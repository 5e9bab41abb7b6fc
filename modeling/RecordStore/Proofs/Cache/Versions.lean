import RecordStore.Proofs.Cache.EntryList

/-!
# Removal by version

A candidate names a slot by its number and its version, and `Slots.removeIfVersion` takes the
slot away if it finds both.  Between the look and the removal anything may have happened to the
address: its record may have been replaced by an equal one, or removed and admitted again, by
hand, by another removal by version, or along with a whole kind or with everything.

A change *touches* an address if it admits a record under it or takes its slot away.  The
candidate stands as long as its address is not touched (`mem_run_iff`).  Once it is gone, its
version is never found again, since versions are only given out above the last one
(`Gone.run`).  So the removal finds the slot just if the address was not touched since the look
(`removeIfVersion_oldest`).
-/

namespace RecordStore

namespace Cache

namespace Slots

variable {s t : Slots} {c d : Candidate} {id : EntryId}

/-! ## Changes that touch an address -/

/-- Whether a change admits a record under an address. -/
def Change.isUnder (id : EntryId) : Change → Bool
  | .insert key record => record.idAt key == id
  | _ => false

/-- Whether a change admits a record under an address, or takes away the slot of the address. -/
def touches (s : Slots) (id : EntryId) (change : Change) : Bool :=
  change.isUnder id || (s.get? id).isSome && ((s.apply change).2.get? id).isNone

/-- Whether none of some changes, one after the other, touches an address. -/
def untouched (id : EntryId) : Slots → List Change → Bool
  | _, [] => true
  | s, change :: changes => !s.touches id change && untouched id (s.apply change).2 changes

theorem Sound.isNone_get?_iff (h : s.Sound) :
    (s.get? id).isNone = true ↔ ∀ c ∈ s.candidates, c.slot.id ≠ id := by
  rw [get?_eq, Option.isNone_map, Option.isNone_iff_eq_none, h.find?_eq_none_iff]

/-! ## One change -/

theorem Sound.apply (h : s.Sound) (change : Change) : (s.apply change).2.Sound := by
  cases change with
  | insert key record => exact h.insert key record
  | remove id => exact h.remove id
  | removeIfVersion seq version => exact h.removeIfVersion seq version
  | removeKind kind => exact h.removeKind kind
  | clear => exact sound_clear

theorem lastVersion_le_apply (s : Slots) (change : Change) :
    s.lastVersion ≤ (s.apply change).2.lastVersion := by
  cases change with
  | insert key record => exact Nat.le_of_lt (Nat.lt_of_succ_le (lastVersion_insert key record).ge)
  | remove id => exact lastVersion_remove.ge
  | removeIfVersion seq version => exact (lastVersion_removeIfVersion seq version).ge
  | removeKind kind => exact (lastVersion_eraseAll _ s).ge
  | clear => exact Nat.le_refl _

/-- What stands after a change stood before, or was admitted with a new version. -/
theorem mem_of_mem_apply (h : s.Sound) {change : Change}
    (hd : d ∈ (s.apply change).2.candidates) : d ∈ s.candidates ∨
      change.isUnder d.slot.id = true ∧ s.lastVersion < d.slot.version := by
  cases change with
  | insert key record =>
      rcases (mem_candidates_insert h).1 hd with rfl | ⟨hd, -⟩
      · exact Or.inr ⟨beq_self_eq_true _, Nat.lt_succ_self _⟩
      · exact Or.inl hd
  | remove id => exact Or.inl ((mem_candidates_remove h).1 hd).1
  | removeIfVersion seq version => exact Or.inl (mem_candidates_removeIfVersion.1 hd).1
  | removeKind kind => exact Or.inl ((mem_candidates_removeKind h).1 hd).1
  | clear => cases hd

/-- An admission under the address of a candidate puts another in its place. -/
theorem not_mem_apply_of_isUnder (h : s.Sound) (hc : c ∈ s.candidates) {change : Change}
    (hunder : change.isUnder c.slot.id = true) : c ∉ (s.apply change).2.candidates := by
  cases change with
  | insert key record =>
      intro hin
      rcases (mem_candidates_insert h).1 hin with hnew | ⟨-, hne⟩
      · have hle := h.version_le c hc
        rw [hnew] at hle
        exact Nat.not_succ_le_self _ hle
      · exact hne (beq_iff_eq.1 hunder).symm
  | _ => cases hunder

/-- A candidate stands after a change just if the change does not touch its address. -/
theorem mem_apply_iff (h : s.Sound) (hc : c ∈ s.candidates) (change : Change) :
    c ∈ (s.apply change).2.candidates ↔ s.touches c.slot.id change = false := by
  have hhas : (s.get? c.slot.id).isSome = true := by
    rw [← Option.not_isNone, Bool.not_eq_true', ← Bool.not_eq_true, h.isNone_get?_iff]
    exact fun hall => hall c hc rfl
  simp only [touches, hhas, Bool.true_and, Bool.or_eq_false_iff]
  constructor
  · intro hin
    refine ⟨?_, ?_⟩
    · exact Bool.eq_false_iff.2 fun hunder => not_mem_apply_of_isUnder h hc hunder hin
    · rw [← Bool.not_eq_true, (h.apply change).isNone_get?_iff]
      exact fun hall => hall c hin rfl
  · rintro ⟨hunder, hsome⟩
    rw [← Bool.not_eq_true, (h.apply change).isNone_get?_iff] at hsome
    push Not at hsome
    obtain ⟨d, hd, hid⟩ := hsome
    -- the slot that is left at the address was there before, so it is the one of the candidate
    rcases mem_of_mem_apply h hd with hold | ⟨hnew, -⟩
    · rwa [← h.eq_of_id_eq hold hc hid]
    · rw [hid, hunder] at hnew
      cases hnew

/-! ## Versions that are gone -/

/-- A version was given out, and no slot has it any more. -/
structure Gone (s : Slots) (version : Nat) : Prop where
  le_last : version ≤ s.lastVersion
  not_found : ∀ d ∈ s.candidates, d.slot.version ≠ version

/-- A version that is gone does not come back. -/
theorem Gone.apply {version : Nat} (h : s.Sound) (hgone : s.Gone version) (change : Change) :
    (s.apply change).2.Gone version where
  le_last := Nat.le_trans hgone.le_last (s.lastVersion_le_apply change)
  not_found d hd := by
    rcases mem_of_mem_apply h hd with hold | ⟨-, hnew⟩
    · exact hgone.not_found d hold
    · have := hgone.le_last
      omega

/-- The version of a candidate that does not stand any more is gone. -/
theorem gone_of_not_mem_apply (h : s.Sound) (hc : c ∈ s.candidates) {change : Change}
    (hout : c ∉ (s.apply change).2.candidates) : (s.apply change).2.Gone c.slot.version where
  le_last := Nat.le_trans (h.version_le c hc) (s.lastVersion_le_apply change)
  not_found d hd := by
    rcases mem_of_mem_apply h hd with hold | ⟨-, hnew⟩
    · intro e
      exact hout (h.version_inj d hold c hc e ▸ hd)
    · have := h.version_le c hc
      omega

/-! ## Any number of changes -/

theorem Sound.run (h : s.Sound) (changes : List Change) :
    (Change.run Slots.apply s changes).2.Sound := by
  induction changes generalizing s with
  | nil => exact h
  | cons change changes ih => exact ih (h.apply change)

theorem Gone.run {version : Nat} (h : s.Sound) (hgone : s.Gone version) (changes : List Change) :
    (Change.run Slots.apply s changes).2.Gone version := by
  induction changes generalizing s with
  | nil => exact hgone
  | cons change changes ih => exact ih (h.apply change) (hgone.apply h change)

/-- Either the address is untouched and the candidate stands, or its version is gone. -/
theorem untouched_cases (h : s.Sound) (hc : c ∈ s.candidates) (changes : List Change) :
    s.untouched c.slot.id changes = true ∧
        c ∈ (Change.run Slots.apply s changes).2.candidates ∨
      s.untouched c.slot.id changes = false ∧
        (Change.run Slots.apply s changes).2.Gone c.slot.version := by
  induction changes generalizing s with
  | nil => exact Or.inl ⟨rfl, hc⟩
  | cons change changes ih =>
      have hiff := mem_apply_iff h hc change
      simp only [untouched]
      cases htouches : s.touches c.slot.id change with
      | false => exact ih (h.apply change) (hiff.2 htouches)
      | true =>
          rw [htouches] at hiff
          have hout : c ∉ (s.apply change).2.candidates := fun hin => by cases hiff.1 hin
          exact Or.inr ⟨rfl, (gone_of_not_mem_apply h hc hout).run (h.apply change) changes⟩

theorem Change.run_append {σ : Type} (apply : σ → Change → Report × σ) (s : σ)
    (first second : List Change) :
    (run apply s (first ++ second)).2 = (run apply (run apply s first).2 second).2 := by
  induction first generalizing s with
  | nil => rfl
  | cons change first ih => exact ih (apply s change).2

/-! ## The removal -/

/-- The slots without those of one candidate. -/
structure Without (s : Slots) (c : Candidate) (t : Slots) : Prop where
  mem_iff : ∀ d, d ∈ t.candidates ↔ d ∈ s.candidates ∧ d ≠ c
  /-- The index entry of the candidate goes, and the others stay. -/
  index_eq : ∀ id, t.index[id]? = if id = c.slot.id then none else s.index[id]?
  nextSeq_eq : t.nextSeq = s.nextSeq
  lastVersion_eq : t.lastVersion = s.lastVersion

theorem without_erase (hc : c ∈ s.candidates) : s.Without c (s.erase c.seq c.slot.id) where
  mem_iff d := mem_candidates_erase hc
  index_eq id := by
    simp only [erase, Std.TreeMap.getElem?_erase, Std.LawfulEqCmp.compare_eq_iff_eq,
      eq_comm (a := c.slot.id)]
  nextSeq_eq := rfl
  lastVersion_eq := rfl

theorem removeIfVersion_of_mem (hc : c ∈ s.candidates) :
    s.removeIfVersion c.seq c.slot.version = (some c.slot, s.erase c.seq c.slot.id) := by
  rcases s.removeIfVersion_eq c.seq c.slot.version with ⟨d, hd, hseq, -, heq⟩ | ⟨hall, -⟩
  · rwa [eq_of_seq_eq hd hc hseq] at heq
  · exact absurd rfl (hall c hc rfl)

theorem Gone.removeIfVersion {version : Nat} (hgone : s.Gone version) (seq : Nat) :
    s.removeIfVersion seq version = (none, s) := by
  rcases s.removeIfVersion_eq seq version with ⟨d, hd, -, hversion, -⟩ | ⟨-, heq⟩
  · exact absurd hversion (hgone.not_found d hd)
  · exact heq

/-- The slots after some changes of empty ones. -/
def reached (changes : List Change) : Slots := (Change.run apply {} changes).2

/-- A removal by the number and the version of a candidate takes a slot away if and only if the
address of the candidate was not touched since the look.  What it takes away is the slot as it
was seen, with its index entry, and otherwise it changes nothing.  No count is greater than the
number of changes, so 64 bits hold the counts of fewer than `2 ^ 64` changes. -/
theorem removeIfVersion_oldest (before after : List Change) (count : Nat) {c : Candidate}
    (hc : c ∈ (reached before).oldest count) :
    (((reached (before ++ after)).removeIfVersion c.seq c.slot.version).1.isSome = true ↔
        (reached before).untouched c.slot.id after = true) ∧
      (∀ slot, ((reached (before ++ after)).removeIfVersion c.seq c.slot.version).1 = some slot →
        slot = c.slot ∧ (reached (before ++ after)).Without c
          ((reached (before ++ after)).removeIfVersion c.seq c.slot.version).2) ∧
      (((reached (before ++ after)).removeIfVersion c.seq c.slot.version).1 = none →
        ((reached (before ++ after)).removeIfVersion c.seq c.slot.version).2
          = reached (before ++ after)) ∧
      (reached (before ++ after)).nextSeq ≤ before.length + after.length ∧
      (reached (before ++ after)).lastVersion ≤ before.length + after.length := by
  obtain ⟨-, -, hseq, hversion⟩ := run_agrees (before ++ after)
  rw [List.length_append] at hseq hversion
  have hsound : (reached before).Sound := Sound.run sound_empty before
  have hrun : (Change.run apply (reached before) after).2 = reached (before ++ after) :=
    (Change.run_append apply {} before after).symm
  have hcases := untouched_cases hsound (List.mem_of_mem_take hc) after
  rw [hrun] at hcases
  rcases hcases with ⟨huntouched, hin⟩ | ⟨htouched, hgone⟩
  · rw [removeIfVersion_of_mem hin, huntouched]
    refine ⟨by simp, ?_, fun hnone => (by cases hnone), hseq, hversion⟩
    intro slot hslot
    cases hslot
    exact ⟨rfl, without_erase hin⟩
  · rw [hgone.removeIfVersion, htouched]
    exact ⟨by simp, fun slot hslot => (by cases hslot), fun _ => rfl, hseq, hversion⟩

/-- Two entries. -/
def twoEntries : List Change :=
  [.insert (.hash [1]) (.ofBytes .transaction [1]), .insert (.hash [2]) (.ofBytes .transaction [2])]

/-- The first entry is removed and admitted again, with an equal record. -/
def firstAgain : List Change :=
  [.remove ⟨.transaction, .hash [1]⟩, .insert (.hash [1]) (.ofBytes .transaction [1])]

/-- The second entry is still the one that was seen, and the first is not. -/
theorem removeIfVersion_firstAgain :
    ((reached (twoEntries ++ firstAgain)).removeIfVersion 0 1).1.isSome = false ∧
      ((reached (twoEntries ++ firstAgain)).removeIfVersion 1 2).1.isSome = true := by
  refine ⟨Bool.eq_false_iff.2 fun h => ?_, ?_⟩
  · have := (removeIfVersion_oldest twoEntries firstAgain 2
      (c := ⟨0, 1, .hash [1], .ofBytes .transaction [1]⟩) (by decide)).1.1 h
    revert this
    decide
  · exact (removeIfVersion_oldest twoEntries firstAgain 2
      (c := ⟨1, 2, .hash [2], .ofBytes .transaction [2]⟩) (by decide)).1.2 (by decide)

end Slots

end Cache

end RecordStore
