import RecordStore.Proofs.Cache.Changes

/-!
# Deletions are final

An entry that is deleted from the cache, deleted from the backend at some later time, and
not admitted again, does not come back: as soon as no batch is being written and no
program waits for the backend, it is neither cached nor stored (`deleted_for_good`).  Any
number of batches may hold the entry when it is deleted, and they may be written in any
order, in part, or more than once.

Two invariants carry this.  Every open batch with the entry has it marked
(`View.Removed`), and if the backend stores something under the address, then some pass is
about to delete it again (`View.Doomed`).
-/

namespace RecordStore

namespace Cache

variable {κ : Type} {g : JobSystem κ} {s : WithJobs} {v v' : View} {e : Event κ} {id : EntryId}

/-! ## Removed entries -/

/-- Nothing is cached under an address, and open batches with the address have it marked. -/
structure View.Removed (v : View) (id : EntryId) : Prop where
  uncached : ∀ d ∈ v.contents.slots.candidates, d.slot.id ≠ id
  marked : ∀ n p, (v.stage n).open? = some p → id ∈ p.ids →
    ∀ b ∈ v.contents.batches, b.number = p.batch → id ∈ b.deleted

namespace View.Removed

theorem congr (h : v.Removed id) (stored : Records) (calls : List (Option Nat × Call)) :
    View.Removed { v with stored, calls } id :=
  ⟨h.uncached, h.marked⟩

/-- An entry stays removed as long as it is not admitted. -/
theorem move (h : v.Removed id) (hs : v.Sound) (hm : Move g v e v')
    (he : e.admits g.config id = false) : v'.Removed id where
  uncached d hd hid := h.uncached d (hm.mem_slots hs he hd hid) hid
  marked n p hp hid b' hb' hnumber := by
    rcases hm.open? hp with hold | ⟨-, hsub⟩
    · rcases hm.mem_batches id hb' with ⟨hfresh, -⟩ | ⟨b, hb, hsame, hmarks, -⟩
      · have hlt := (hs.knows n p (Stage.pass?_of_open? hold)).batch_lt
        rw [← hnumber, hfresh] at hlt
        exact absurd hlt (Nat.lt_irrefl _)
      · exact hmarks he (h.marked n p hold hid b hb (hsame.symm.trans hnumber))
    · -- a pass that begins finds no slot
      obtain ⟨d, hd, hdid⟩ := Pass.mem_ids.1 hid
      exact absurd hdid (h.uncached d (hsub.subset hd))

/-- A batch of an open pass has the addresses of the pass. -/
theorem ids_of_number (hs : v.Sound) {n : Nat} {p : Pass} (hp : (v.stage n).open? = some p)
    {b : Batch} (hb : b ∈ v.contents.batches) (hnumber : b.number = p.batch) : b.ids = p.ids := by
  obtain ⟨b', hb', hnumber', hids⟩ := hs.batch n p hp
  rw [hs.numbered.eq_of_number_eq hb hb' (hnumber.trans hnumber'.symm), hids]

/-- A deletion or a clear marks the entry wherever it is being written. -/
theorem of_removes (hs : v.Sound) (hm : Move g v e v') (he : e.removes id = true) :
    v'.Removed id := by
  cases hm with
  | delete i =>
      cases beq_iff_eq.1 he
      refine ⟨fun d hd => ((Contents.mem_slots_remove hs.slots).1 hd).2, ?_⟩
      intro n p hp hid b' hb' hnumber
      rw [Contents.batches_remove] at hb'
      obtain ⟨b, hb, rfl⟩ := List.mem_map.1 hb'
      rw [(Batch.remarks_markDeleted _ b).1] at hnumber
      rw [← ids_of_number hs hp hb hnumber] at hid
      exact Batch.mem_markDeleted.2 (.inr ⟨rfl, hid⟩)
  | clear kind =>
      have hkind : id.kind = kind := beq_iff_eq.1 he
      refine ⟨fun d hd hid => ?_, fun n p hp hid b' hb' hnumber => ?_⟩
      · refine ((Contents.mem_slots_removeKind hs.slots).1 hd).2 ?_
        rw [← hkind, ← hid]
        rfl
      · rw [Contents.batches_removeKind] at hb'
        obtain ⟨b, hb, rfl⟩ := List.mem_map.1 hb'
        rw [(Batch.remarks_markCleared kind b).1] at hnumber
        rw [← ids_of_number hs hp hb hnumber] at hid
        exact Batch.mem_markCleared.2 (.inr ⟨hkind, hid⟩)
  | _ => cases he

/-- When the batch of a pass with the entry ends, the entry is among its marks. -/
theorem mem_finish (h : v.Removed id) (hs : v.Sound) {n : Nat} {p : Pass}
    (hp : (v.stage n).open? = some p) (hid : id ∈ p.ids) :
    id ∈ (v.contents.finish p.batch).1 := by
  obtain ⟨b, hb, hnumber, -⟩ := hs.batch n p hp
  rw [← hnumber, hs.numbered.finish_fst hb]
  exact h.marked n p hp hid b hb hnumber

end View.Removed

/-! ## Doomed entries -/

/-- Whether the pass of a stage has an address that it will delete if it is marked. -/
def Stage.Deletes (id : EntryId) : Stage → Prop
  | finishing p _ => id ∈ p.ids
  | deleting _ _ ids => id ∈ ids
  | resting | saving _ | dropping _ => False

/-- What the backend stores under an address is about to be deleted. -/
def View.Doomed (v : View) (id : EntryId) : Prop :=
  v.stored id = none ∨ ∃ n, (v.stage n).Deletes id

namespace View.Doomed

/-- A program goes on, and deletes what it was about to delete, or is about to do so. -/
theorem enter (h : v.Doomed id) {n : Nat} {st st' : Stage} (hstage : v.stage n = st)
    (hst : st.Deletes id → st'.Deletes id) : (v.enter n st').Doomed id := by
  rcases h with h | ⟨k, hk⟩
  · exact Or.inl h
  · refine Or.inr ⟨k, ?_⟩
    by_cases hkn : k = n
    · rw [hkn, hstage] at hk
      rw [hkn, View.stage_enter_self]
      exact hst hk
    · rwa [View.stage_enter_of_ne hkn]

theorem of_deletes {n : Nat} {st : Stage} (h : st.Deletes id) : (v.enter n st).Doomed id :=
  Or.inr ⟨n, by rwa [View.stage_enter_self]⟩

/-- Removed entries stay doomed, unless the owner of the cache stores them. -/
theorem move (h : v.Doomed id) (hs : v.Sound) (hr : v.Removed id)
    (hm : Move g v e v') (he : ∀ call, e = .own call → call.stores id = false) :
    v'.Doomed id := by
  cases hm with
  | own call =>
      rcases h with h | h
      · exact Or.inl (Records.apply_eq_none (he call rfl) h)
      · exact Or.inr h
  | look n now candidates hstage hsub =>
      exact Doomed.enter (v := { v with contents := _ }) h hstage False.elim
  | save n verdict p hstage =>
      by_cases hid : id ∈ p.ids
      · exact of_deletes (v := v.carryOut _ _) hid
      · have hsame : v.stored.apply (.saveBatch p.entries) id = v.stored id :=
          Records.saveBatch_of_not_mem fun x hx hxid => hid (p.mem_ids_of_entry hx hxid)
        have h' : (v.carryOut (some p.batch) (.saveBatch p.entries)).Doomed id :=
          h.imp hsame.trans fun hd => hd
        exact h'.enter hstage False.elim
  | fail n verdict p stored calls hstage hsteady hstored =>
      by_cases hid : id ∈ p.ids
      · exact of_deletes (v := { v with stored, calls }) hid
      · have hsame : stored id = v.stored id := by
          rcases hstored id with hsame | ⟨d, hd, hdid, -⟩
          · exact hsame
          · exact absurd (Pass.mem_ids.2 ⟨d, hd, hdid⟩) hid
        have h' : View.Doomed { v with stored, calls } id := h.imp hsame.trans fun hd => hd
        exact h'.enter hstage False.elim
  | finish n now p written st hstage hend hclean =>
      refine Doomed.enter (v := { v with contents := _ }) h hstage fun hd => ?_
      have hmarked := hr.mem_finish hs (by rw [hstage]; rfl) hd
      rw [hclean] at hmarked
      cases hmarked
  | finishMarked n now p written hstage hmarked =>
      exact Doomed.enter (v := { v with contents := _ }) h hstage
        (hr.mem_finish hs (by rw [hstage]; rfl))
  | redelete n verdict p written ids st hstage hend =>
      have happly : v.stored.apply (.deleteBatch ids) id = if id ∈ ids then none else v.stored id :=
        Records.deleteBatch_apply ids v.stored
      by_cases hid : id ∈ ids
      · exact Or.inl (happly.trans (if_pos hid))
      · have hsame := happly.trans (if_neg hid)
        have h' : (v.carryOut (some p.batch) (.deleteBatch ids)).Doomed id :=
          h.imp hsame.trans fun hd => hd
        exact h'.enter hstage fun hd => absurd hd hid
  | drop n now p capacity hstage =>
      exact Doomed.enter (v := { v with contents := _ }) h hstage False.elim
  | accept | refuse | delete | clear | begin | aside | idle => exact h

end View.Doomed

/-! ## Caches with jobs at rest -/

theorem Orderly.eq_of_deleting {α : Type} {p : Pass} {written : Bool} {ids : List EntryId}
    {program : Service.Prog α} (h : Orderly (.deleting p written ids) program) :
    ∃ next, program = .ask (.backend (.deleteBatch ids)) next := by
  cases h with
  | delete hend hok hfail => exact ⟨_, rfl⟩

/-- When all is quiet, no pass is about to delete anything. -/
theorem Follows.not_deletes (h : Follows g s v) (hs : v.Sound) (hquiet : s.isQuiet = true)
    (n : Nat) : ¬(v.stage n).Deletes id := by
  intro hd
  simp only [WithJobs.isQuiet, Bool.and_eq_true, List.isEmpty_iff, List.all_eq_true,
    Bool.not_eq_true'] at hquiet
  obtain ⟨hbatches, hprocesses⟩ := hquiet
  cases hstage : v.stage n with
  | resting | saving p | dropping p =>
      rw [hstage] at hd
      exact hd
  | finishing p written =>
      obtain ⟨b, hb, -⟩ := hs.batch n p (by rw [hstage]; rfl)
      rw [← h.contents, hbatches] at hb
      cases hb
  | deleting p written ids =>
      cases hp : s.processes[n]? with
      | none =>
          rw [h.resting n hp] at hstage
          cases hstage
      | some process =>
          have ho := h.orderly n process hp
          rw [hstage] at ho
          obtain ⟨next, hprogram⟩ := ho.eq_of_deleting
          have hwaits := hprocesses process (List.mem_of_getElem? hp)
          simp only [Process.waitsForBackend, hprogram] at hwaits
          cases hwaits

/-! ## The end of a deletion -/

/-- Let the backend carry out all removals.  When the cache removes an entry, the backend
removes it at some later time, the cache does not admit it again, and only passes store it,
then it is gone from both once nothing is being written. -/
theorem deleted_for_good {g : JobSystem Job} (backendName : String)
    (hprogram : g.program = Job.program backendName)
    (hsteady : ∀ call, call.isRemoval = true → g.steady call = true) {id : EntryId}
    {removal : Event Job} {call : Call} {before between after : List (Event Job)}
    (hremoval : removal.removes id = true) (hcall : call.removes id = true)
    (hadmits : ∀ e ∈ between ++ after, e.admits g.config id = false)
    (howner : ∀ call, .own call ∈ after → call.stores id = false)
    (hquiet : (run g.step g.start (before ++ removal :: between ++ .own call :: after)).isQuiet
      = true) :
    (run g.step g.start (before ++ removal :: between ++ .own call :: after)).cached id = none ∧
      (run g.step g.start (before ++ removal :: between ++ .own call :: after)).stored id
        = none := by
  have horderly : ∀ job, Orderly .resting (g.program job) := by
    rw [hprogram]
    exact Job.orderly_program backendName
  have hbatch : ∀ ids, g.steady (.deleteBatch ids) = true := fun ids => hsteady _ rfl
  rw [run_append, run_append, run_cons, run_cons] at hquiet ⊢
  -- the cache removes the entry
  obtain ⟨v₀, hf₀, hs₀⟩ := Follows.run_start hbatch horderly before
  obtain ⟨v₁, hm₁, hf₁⟩ := hf₀.step hbatch horderly removal
  have hr₁ : v₁.Removed id := .of_removes hs₀ hm₁ hremoval
  obtain ⟨v₂, hf₂, hs₂, hr₂⟩ := Follows.along_run (P := (·.Removed id)) hbatch horderly between hf₁
    (hm₁.sound hs₀) hr₁ fun e he v v' hs hr hm =>
      hr.move hs hm (hadmits e (List.mem_append_left _ he))
  -- the backend removes the entry
  have hf₃ := hf₂.carryOut none call
  have hr₃ : (v₂.carryOut none call).Removed id := hr₂.congr _ _
  have hd₃ : (v₂.carryOut none call).Doomed id := Or.inl (Records.apply_of_removes hcall)
  obtain ⟨v, hf, hs, hr, hd⟩ := Follows.along_run (P := fun v => v.Removed id ∧ v.Doomed id)
    hbatch horderly after hf₃ (hs₂.congr _ _) ⟨hr₃, hd₃⟩
    fun e he v v' hs h hm =>
      ⟨h.1.move hs hm (hadmits e (List.mem_append_right _ he)),
        h.2.move hs h.1 hm fun call hcall => howner call (hcall ▸ he)⟩
  refine ⟨hf.cached_eq_none_iff.2 hr.uncached, ?_⟩
  rcases hd with hnone | ⟨n, hn⟩
  · exact (congrFun hf.stored id).trans hnone
  · exact absurd hn (hf.not_deletes hs hquiet n)

/-- Two batches with an entry are under way when the entry is deleted.  One lands before the
backend deletes the entry, and the other lands after it. -/
def deletedAmongBatches : WithJobs :=
  run (JobSystem.single Call.isRemoval).step (JobSystem.single Call.isRemoval).start
    ([.offer (.hash [1]) (.ofBytes .transaction [1]), .begin .flush, .advance 0 0, .begin .pass,
      .advance 1 0] ++ .delete ⟨.transaction, .hash [1]⟩ :: [.answer 0 .done] ++
      .own (.delete .transaction (.hash [1])) ::
        [.answer 1 .done, .advance 0 0, .answer 0 .done, .advance 1 0, .answer 1 .done,
          .advance 1 0])

theorem deleted_among_batches :
    deletedAmongBatches.cached ⟨.transaction, .hash [1]⟩ = none ∧
      deletedAmongBatches.stored ⟨.transaction, .hash [1]⟩ = none :=
  deleted_for_good "memory" rfl (fun _ h => h) (by decide) (by decide)
    (by decide) (fun _ h => by simp at h) (by decide +kernel)

end Cache

end RecordStore
