import RecordStore.Proofs.Cache.Keeping
import RecordStore.Proofs.Cache.Redeletions

/-!
# The marks of batches

Any number of batches may be under way at a cache, and they may share addresses.  What a batch gives
back when it ends is told from the events since it began, one address at a time: it is what was
removed, and not admitted again since (`CallerSystem.RemovedLast`).  It does not matter whether the
entry was still cached when it was removed, nor what other batches began or ended meanwhile.

Every event changes the marks of all batches in the same way (`Batch.Remarked`).  So each batch has
a history: the event at which it began, with the addresses that it took up, and since then just the
marks of what was removed last (`CallerSystem.Tracks`).
-/

namespace RecordStore

namespace Cache

open Service (Prog)

variable {g : WithCallers.CallerSystem} {s : WithCallers} {stage : Nat → Stage} {id : EntryId}
    {e : WithCallers.Event}

/-! ## Marks that change -/

/-- A batch with its marks changed: some addresses are removed, and records are admitted under
others. -/
structure Batch.Remarked (removes admits : EntryId → Bool) (b b' : Batch) : Prop where
  number_eq : b'.number = b.number
  ids_eq : b'.ids = b.ids
  nodup : b.deleted.Nodup → b'.deleted.Nodup
  mem_iff : ∀ id, id ∈ b'.deleted ↔
    removes id = true ∧ id ∈ b.ids ∨ admits id = false ∧ id ∈ b.deleted

namespace Batch

theorem Remarked.same {removes admits : EntryId → Bool} (hremoves : ∀ id, removes id = false)
    (hadmits : ∀ id, admits id = false) (b : Batch) : b.Remarked removes admits b where
  number_eq := rfl
  ids_eq := rfl
  nodup h := h
  mem_iff id := by simp [hremoves, hadmits]

theorem nodup_markDeleted {b : Batch} (h : b.deleted.Nodup) (id : EntryId) :
    (b.markDeleted id).deleted.Nodup := by
  simp only [markDeleted]
  split
  · exact h.insert
  · exact h

theorem nodup_foldl_markDeleted {b : Batch} (h : b.deleted.Nodup) (l : List EntryId) :
    (l.foldl markDeleted b).deleted.Nodup := by
  induction l generalizing b with
  | nil => exact h
  | cons id l ih => exact ih (nodup_markDeleted h id)

theorem Remarked.unmark {removes admits : EntryId → Bool} (id : EntryId)
    (hremoves : ∀ i, removes i = false) (hadmits : ∀ i, admits i = (id == i)) (b : Batch) :
    b.Remarked removes admits (b.unmark id) where
  number_eq := rfl
  ids_eq := rfl
  nodup h := h.filter _
  mem_iff i := by
    rw [mem_unmark, hremoves, hadmits, beq_eq_false_iff_ne, ne_comm, and_comm]
    simp

theorem Remarked.markDeleted {removes admits : EntryId → Bool} (id : EntryId)
    (hremoves : ∀ i, removes i = (id == i)) (hadmits : ∀ i, admits i = false) (b : Batch) :
    b.Remarked removes admits (b.markDeleted id) where
  number_eq := (remarks_markDeleted id b).1
  ids_eq := (remarks_markDeleted id b).2
  nodup h := nodup_markDeleted h id
  mem_iff i := by
    rw [mem_markDeleted, hremoves, hadmits, beq_iff_eq, eq_comm (a := id), or_comm]
    simp

theorem Remarked.markCleared {removes admits : EntryId → Bool} (kind : Kind)
    (hremoves : ∀ i, removes i = (i.kind == kind)) (hadmits : ∀ i, admits i = false) (b : Batch) :
    b.Remarked removes admits (b.markCleared kind) where
  number_eq := (remarks_markCleared kind b).1
  ids_eq := (remarks_markCleared kind b).2
  nodup h := nodup_foldl_markDeleted h _
  mem_iff i := by
    rw [mem_markCleared, hremoves, hadmits, beq_iff_eq, or_comm]
    simp

end Batch

/-! ## Requests that begin no batch -/

namespace Running

theorem nextBatch_offer (c : Cache) (key : Key) (record : Record) :
    (c.offer key record).2.contents.nextBatch = c.contents.nextBatch := by
  rcases offer_cases c key record with ⟨-, hr⟩ | ⟨-, hr⟩ <;> rw [hr]
  exact Contents.nextBatch_put _ _ _

theorem nextBatch_offerAll (c : Cache) (entries : List Entry) :
    (c.offerAll entries).2.contents.nextBatch = c.contents.nextBatch := by
  induction entries generalizing c with
  | nil => rfl
  | cons e entries ih => exact (ih (c.offer e.1 e.2).2).trans (nextBatch_offer c e.1 e.2)

theorem nextBatch_foldl_delete (c : Cache) (ids : List EntryId) :
    (ids.foldl Cache.delete c).contents.nextBatch = c.contents.nextBatch := by
  induction ids generalizing c with
  | nil => rfl
  | cons id ids ih => exact (ih (c.delete id)).trans (Contents.nextBatch_remove _ _)

theorem nextBatch_perform (r : Running) (call : Call) :
    (r.perform call).2.cache.contents.nextBatch = r.cache.contents.nextBatch := by
  by_cases hplain : WithCallers.isPlain call = true
  · rcases WithCallers.contents_perform r hplain with
      ⟨kind, key, -, hc⟩ | ⟨kind, -, hc⟩ | ⟨-, hc⟩ <;>
      rw [hc]
    · exact Contents.nextBatch_remove _ _
    · exact Contents.nextBatch_removeKind _ _
  · cases call with
    | save record key | update record key => exact nextBatch_offer r.cache key record
    | saveBatch entries => exact nextBatch_offerAll r.cache entries
    | deleteBatch ids => exact nextBatch_foldl_delete r.cache ids
    | shutdown => rfl
    | _ => exact absurd rfl hplain

/-- Only the beginning of a pass uses up a number of a batch. -/
theorem nextBatch_reply? (r : Running) (caller now : Nat) {q : Request}
    (heviction : q ≠ .beginEviction) (hflush : q ≠ .beginFlush) :
    (r.reply? caller now q).2.cache.contents.nextBatch = r.cache.contents.nextBatch := by
  have haside : q.isAside = true →
      (r.reply? caller now q).2.cache.contents.nextBatch = r.cache.contents.nextBatch :=
    fun hq => congrArg _ (r.reply?_of_isAside caller now hq).1
  cases q with
  | perform call => exact r.nextBatch_perform call
  | receive key record => exact nextBatch_offer r.cache key record
  | beginEviction => exact absurd rfl heviction
  | beginFlush => exact absurd rfl hflush
  | dropWritten candidates =>
      exact (Contents.nextBatch_rebuild _ _).trans (Contents.nextBatch_dropAllWritten _ _)
  | close | finishBatch | empty | backend => rfl
  | _ => exact haside rfl

end Running

/-! ## Batches that begin and end -/

theorem beginPass_eq_some {c : Cache} {candidates : List Candidate} {p : Pass}
    (h : (c.beginPass candidates).1 = some p) :
    (c.beginPass candidates).2.contents.batches
      = c.contents.batches ++ [⟨p.batch, p.ids, []⟩] := by
  rcases c.beginPass_cases candidates with heq | heq <;> rw [heq] at h ⊢
  · cases h
  · cases h
    simp only [Contents.begin, Pass.ids, List.map_map]
    rfl

theorem beginPass_eq_none {c : Cache} {candidates : List Candidate}
    (h : (c.beginPass candidates).1 = none) : (c.beginPass candidates).2 = c := by
  rcases c.beginPass_cases candidates with heq | heq <;> rw [heq] at h ⊢
  cases h

namespace WithCallers

/-- The pass that begins at an event. -/
def begun? (s : WithCallers) : Event → Option Pass
  | .go party _ =>
      match s.asks? party with
      | some .beginEviction => s.running.cache.beginEviction.1
      | some .beginFlush => s.running.cache.beginFlush.1
      | _ => none
  | _ => none

/-- The number of the batch that ends at an event, and what it gives back. -/
def ended? (s : WithCallers) : Event → Option (Nat × List EntryId)
  | .go party _ =>
      match s.asks? party with
      | some (.finishBatch batch) => some (batch, (s.running.cache.finishBatch batch).1)
      | _ => none
  | _ => none

/-- The batch that a program is writing.  It has handed the batch to the backend and ends it next,
or the backend has dealt with it and the program takes that up. -/
def batchOf? {α : Type} : Prog α → Option Nat
  | .ask (.finishBatch batch) _ => some batch
  | .ask (.backend (.saveBatch _)) next =>
      match next (.ok true) with
      | .ask (.finishBatch batch) _ => some batch
      | _ => none
  | _ => none

/-- The batch that a party is writing. -/
def writes? (s : WithCallers) : Party → Option Nat
  | .worker => batchOf? s.worker
  | .caller n => s.callers[n]?.bind fun c => batchOf? c.program

theorem running_go (g : CallerSystem) (s : WithCallers) (party : Party) (now : Nat) :
    (g.step s (.go party now)).running
      = (s.asks? party).elim s.running fun q => (s.running.reply? party.number now q).2 := by
  cases party with
  | worker =>
      simp only [CallerSystem.step, goWorker, asks?, Party.number]
      split
      next hw => rw [hw]; rfl
      next hw => rw [hw]; rfl
      next q next hw =>
        rw [hw]
        simp only [request?, Option.elim_some]
        split
        next hr => rw [hr]
        next hr => rw [hr]
  | caller n =>
      simp only [CallerSystem.step, goCaller, asks?, Party.number]
      split
      next errand q next hc =>
        rw [hc]
        simp only [Option.bind_some, request?, Option.elim_some]
        split
        next hr => rw [hr]
        next hr => rw [hr]
      next hnone =>
        cases hc : s.callers[n]? with
        | none => rfl
        | some c =>
            obtain ⟨errand, program⟩ := c
            cases program with
            | done a => rfl
            | ask q next => exact absurd hc (hnone errand q next)

/-- A pass that begins adds a batch, and otherwise no number of a batch is used up. -/
theorem begun?_cases (g : CallerSystem) (s : WithCallers) (party : Party) (now : Nat) :
    (∃ p, s.begun? (.go party now) = some p ∧
        (g.step s (.go party now)).running.cache.contents.batches
          = s.running.cache.contents.batches ++ [⟨p.batch, p.ids, []⟩]) ∨
      (g.step s (.go party now)).running.cache.contents.nextBatch
        = s.running.cache.contents.nextBatch := by
  rw [running_go, begun?]
  cases hq : s.asks? party with
  | none => exact Or.inr rfl
  | some q =>
      simp only [Option.elim_some]
      by_cases heviction : q = .beginEviction
      · subst heviction
        simp only [Running.reply?, Cache.beginEviction]
        split
        next =>
          cases hp : (s.running.cache.beginPass _).1 with
          | some p => exact Or.inl ⟨p, rfl, beginPass_eq_some hp⟩
          | none => exact Or.inr (by rw [beginPass_eq_none hp])
        next => exact Or.inr rfl
      · by_cases hflush : q = .beginFlush
        · subst hflush
          simp only [Running.reply?, Cache.beginFlush]
          cases hp : (s.running.cache.beginPass _).1 with
          | some p => exact Or.inl ⟨p, rfl, beginPass_eq_some hp⟩
          | none => exact Or.inr (by rw [beginPass_eq_none hp])
        · exact Or.inr (s.running.nextBatch_reply? party.number now heviction hflush)

/-- Nothing happens to the batches at an event by which nothing is admitted or removed. -/
theorem remarked_of_cache {s' : WithCallers} (hcache : s'.running.cache = s.running.cache)
    (hremoves : ∀ id, e.removes id = false) (hadmits : ∀ id, s.admits id e = false) {b' : Batch}
    (hb' : b' ∈ s'.running.cache.contents.batches) :
    ∃ b ∈ s.running.cache.contents.batches,
      b.Remarked (fun id => e.removes id) (fun id => s.admits id e) b' := by
  rw [hcache] at hb'
  exact ⟨b', hb', .same hremoves hadmits b'⟩

theorem remarked_offer (key : Key) (record : Record) {b' : Batch}
    (hb' : b' ∈ (s.offer key record).running.cache.contents.batches) :
    ∃ b ∈ s.running.cache.contents.batches,
      b.Remarked (fun id => (Event.offer key record).removes id)
        (fun id => s.admits id (.offer key record)) b' := by
  have hfst : (s.running.receive key record).1.1 = (s.running.cache.offer key record).1 := rfl
  have hb' : b' ∈ (s.running.cache.offer key record).2.contents.batches := hb'
  rcases Running.offer_cases s.running.cache key record with ⟨-, hr⟩ | ⟨-, hr⟩ <;>
    rw [hr] at hfst hb'
  · rw [Contents.batches_put] at hb'
    obtain ⟨b, hb, rfl⟩ := List.mem_map.1 hb'
    refine ⟨b, hb, .unmark (record.idAt key) (fun _ => rfl) (fun id => ?_) b⟩
    rw [admits, hfst, Bool.and_true]
  · refine ⟨b', hb', .same (fun _ => rfl) (fun id => ?_) b'⟩
    rw [admits, hfst, Bool.and_false]

theorem remarked_call {call : Call} (hcall : isPlain call = true) {b' : Batch}
    (hb' : b' ∈ (s.call call).running.cache.contents.batches) :
    ∃ b ∈ s.running.cache.contents.batches, b.Remarked (fun id => (Event.call call).removes id)
      (fun id => s.admits id (.call call)) b' := by
  have hb' : b' ∈ (s.running.perform call).2.cache.contents.batches := hb'
  rcases contents_perform s.running hcall with ⟨kind, key, rfl, hc⟩ | ⟨kind, rfl, hc⟩ |
    ⟨hnot, hc⟩ <;> rw [hc] at hb'
  · rw [Contents.batches_remove] at hb'
    obtain ⟨b, hb, rfl⟩ := List.mem_map.1 hb'
    exact ⟨b, hb, .markDeleted ⟨kind, key⟩ (fun _ => rfl) (fun _ => rfl) b⟩
  · rw [Contents.batches_removeKind] at hb'
    obtain ⟨b, hb, rfl⟩ := List.mem_map.1 hb'
    exact ⟨b, hb, .markCleared kind (fun _ => rfl) (fun _ => rfl) b⟩
  · refine ⟨b', hb', .same (fun id => ?_) (fun _ => rfl) b'⟩
    rw [Event.removes, hnot, Bool.and_false]

/-- A batch begins at an event, or it was there before and its marks changed. -/
theorem Staged.step_batches (h : s.Staged g stage) (e : Event) {b' : Batch}
    (hb' : b' ∈ (g.step s e).running.cache.contents.batches) :
    (∃ p, s.begun? e = some p ∧ b' = ⟨p.batch, p.ids, []⟩) ∨
      ∃ b ∈ s.running.cache.contents.batches,
        b.Remarked (fun id => e.removes id) (fun id => s.admits id e) b' := by
  cases e with
  | offer key record => exact Or.inr (remarked_offer key record hb')
  | call call =>
      right
      simp only [CallerSystem.step] at hb'
      split at hb'
      next hcall => exact remarked_call hcall hb'
      next hcall =>
        refine remarked_of_cache rfl (fun id => ?_) (fun _ => rfl) hb'
        rw [Event.removes, Bool.eq_false_iff.2 hcall, Bool.false_and]
  | own | begin => exact Or.inr (remarked_of_cache rfl (fun _ => rfl) (fun _ => rfl) hb')
  | take e now =>
      exact Or.inr (remarked_of_cache (cache_take g s e now) (fun _ => rfl) (fun _ => rfl) hb')
  | answer party verdict =>
      refine Or.inr (remarked_of_cache ?_ (fun _ => rfl) (fun _ => rfl) hb')
      rw [step_answer]
      exact congrArg Running.cache (running_hear s party verdict.outcome)
  | go party now =>
      rcases begun?_cases g s party now with ⟨p, hp, hbatches⟩ | hnext
      · rw [hbatches, List.mem_append, List.mem_singleton] at hb'
        rcases hb' with hb' | hnew
        · exact Or.inr ⟨b', hb', .same (fun _ => rfl) (fun _ => rfl) b'⟩
        · exact Or.inl ⟨p, hp, hnew⟩
      · obtain ⟨st', hgoes, -⟩ := h.go party now
        refine Or.inr ⟨b', ?_, .same (fun _ => rfl) (fun _ => rfl) b'⟩
        generalize (g.step s (.go party now)).running.cache.contents = c' at hgoes hnext hb'
        generalize stage party.number = st at hgoes
        cases hgoes with
        | aside | empty => exact hb'
        | look => exact absurd hnext (Nat.succ_ne_self _)
        | finish | finishMarked => exact (Contents.mem_batches_finish.1 hb').1
        | drop =>
            rw [Contents.batches_rebuild, Contents.batches_dropAllWritten] at hb'
            exact hb'

/-! ## What was removed last -/

/-- An address is removed at some event, and no record is admitted under it later. -/
def CallerSystem.RemovedLast (g : CallerSystem) (id : EntryId) : WithCallers → List Event → Prop
  | _, [] => False
  | s, e :: events =>
      e.removes id = true ∧ Along g.step (fun s e => s.admits id e = false) (g.step s e) events ∨
        g.RemovedLast id (g.step s e) events

instance CallerSystem.instDecidableRemovedLast (g : CallerSystem) (id : EntryId) :
    (s : WithCallers) → (events : List Event) → Decidable (g.RemovedLast id s events)
  | _, [] => inferInstanceAs (Decidable False)
  | s, e :: events =>
      have := CallerSystem.instDecidableRemovedLast g id (g.step s e) events
      inferInstanceAs (Decidable (_ ∧ _ ∨ _))

theorem CallerSystem.removedLast_concat {events : List Event} : g.RemovedLast id s (events ++ [e]) ↔
    e.removes id = true ∨
      (run g.step s events).admits id e = false ∧ g.RemovedLast id s events := by
  induction events generalizing s with
  | nil => simp [CallerSystem.RemovedLast, Along]
  | cons a events ih =>
      simp only [List.cons_append, CallerSystem.RemovedLast, ih, along_append, Along,
        and_true, run_cons]
      tauto

/-- What was removed last is not cached. -/
theorem uncached_of_removedLast {first between : List Event}
    (h : g.RemovedLast id (run g.step g.start first) between) :
    (run g.step g.start (first ++ between)).cached id = none := by
  induction between generalizing first with
  | nil => cases h
  | cons e between ih =>
      rcases h with ⟨hremoves, halong⟩ | h
      · obtain ⟨stage, hstaged, hs⟩ := staged_run g first
        obtain ⟨stage', hstaged', hturn⟩ := hstaged.turn e
        have hdeleted : Deleted g (g.step (run g.step g.start first) e) id stage' :=
          ⟨hstaged', hturn.sound hs, hturn.removed_of_removes hs hremoves⟩
        obtain ⟨stage'', hgone⟩ := hdeleted.along_run halong
        rw [run_append, run_cons]
        exact Slots.recordAt?_eq_none_iff.2 hgone.removed.uncached
      · rw [List.append_cons]
        refine ih ?_
        rw [run_append]
        exact h

/-! ## The history of a batch -/

/-- A batch began at one of some events, and has the marks of what was removed last since then. -/
def CallerSystem.Tracks (g : CallerSystem) (events : List Event) (b : Batch) : Prop :=
  ∃ first e between p, events = first ++ e :: between ∧
    (run g.step g.start first).begun? e = some p ∧ b.number = p.batch ∧ b.ids = p.ids ∧
    b.deleted.Nodup ∧ ∀ id, id ∈ b.deleted ↔
      id ∈ p.ids ∧ g.RemovedLast id (run g.step g.start (first ++ [e])) between

/-- Every batch of a run has its history. -/
theorem tracks_run (g : CallerSystem) (events : List Event) :
    ∀ b ∈ (run g.step g.start events).running.cache.contents.batches, g.Tracks events b := by
  induction events using List.reverseRecOn with
  | nil => exact fun b hb => by cases hb
  | append_singleton events e ih =>
      intro b' hb'
      obtain ⟨stage, hstaged, -⟩ := staged_run g events
      have hrun : run g.step g.start (events ++ [e]) = g.step (run g.step g.start events) e :=
        run_append g.step g.start events [e]
      rw [hrun] at hb'
      rcases hstaged.step_batches e hb' with ⟨p, hp, rfl⟩ | ⟨b, hb, hremarked⟩
      · refine ⟨events, e, [], p, rfl, hp, rfl, rfl, List.nodup_nil, fun id => ?_⟩
        simp [CallerSystem.RemovedLast]
      · obtain ⟨first, e₀, between, p, rfl, hp, hnumber, hids, hnodup, hmarks⟩ := ih b hb
        refine ⟨first, e₀, between ++ [e], p, ?_, hp, hremarked.number_eq.trans hnumber,
          hremarked.ids_eq.trans hids, hremarked.nodup hnodup, fun id => ?_⟩
        · rw [List.append_assoc, List.cons_append]
        · have hsince : run g.step (run g.step g.start (first ++ [e₀])) between
              = run g.step g.start (first ++ e₀ :: between) := by
            rw [← run_append, List.append_assoc, List.singleton_append]
          rw [hremarked.mem_iff, hmarks, hids, g.removedLast_concat, hsince]
          tauto

end WithCallers

/-! ## Batches that are written -/

/-- Whether a request has a part in the writing of a batch. -/
def Request.isOfBatch : Request → Bool
  | .finishBatch _ | .backend (.saveBatch _) => true
  | _ => false

/-- What is asked while the batch of a pass is open: that it is written, and then that it ends. -/
inductive Opens {σ : Type} (stage : σ → Stage) (x : σ) : (q : Request) → (Reply q → σ) → Prop where
  | save {p : Pass} {state : Except Failure Bool → σ} (hx : stage x = .saving p)
      (hnext : stage (state (.ok true)) = .finishing p true) :
      Opens stage x (.backend (.saveBatch p.entries)) state
  | finish {p : Pass} {written : Bool} {state : List EntryId → σ}
      (hx : stage x = .finishing p written) : Opens stage x (.finishBatch p.batch) state
  | other {q : Request} {state : Reply q → σ} (hq : q.isOfBatch = false)
      (hx : (stage x).open? = none) : Opens stage x q state

theorem PassAsks.opens {σ : Type} {inside : Stage → σ} {after : Pass → σ} {gaveUp x : σ}
    {stage : σ → Stage} (hinside : ∀ st, stage (inside st) = st) {q : Request}
    {state : Reply q → σ} (h : PassAsks inside after gaveUp x q state) : Opens stage x q state := by
  cases h with
  | save p => exact .save (hinside _) (hinside _)
  | finish p written => exact .finish (hinside _)
  | delete p written ids => exact .other rfl (by rw [hinside]; rfl)

theorem Duty.Asks.opens {d : Duty} {q : Request} {state : Reply q → Duty}
    (h : Duty.Asks d q state) : Opens Duty.stage d q state := by
  cases h with
  | pass hpass => exact hpass.opens fun _ => rfl
  | _ => exact .other rfl rfl

theorem Stage.Asks.opens {st : Stage} {q : Request} {state : Reply q → Stage}
    (h : Stage.Asks st q state) : Opens (fun st => st) st q state := by
  cases h with
  | pass hafter hpass => exact hpass.opens fun _ => rfl
  | aside hq =>
      refine .other ?_ rfl
      cases q with
      | backend | finishBatch => cases hq
      | _ => rfl
  | _ => exact .other rfl rfl

theorem Closing.Asks.opens {k : Closing} {q : Request} {state : Reply q → Closing}
    (h : Closing.Asks k q state) : Opens Closing.stage k q state := by
  cases h with
  | pass hpass => exact hpass.opens fun _ => rfl
  | empty p => exact .other rfl (by cases p <;> rfl)
  | _ => exact .other rfl rfl

/-- A program of a routine is writing the batch that is open at its stage. -/
theorem batchOf?_of_obeys {σ α : Type} {stage : σ → Stage}
    {asks : σ → (q : Request) → (Reply q → σ) → Prop} {ends : σ → α → Prop}
    (hasks : ∀ {x q state}, asks x q state → Opens stage x q state)
    (hends : ∀ {x a}, ends x a → (stage x).open? = none) {x : σ} {program : Prog α}
    (h : program.Obeys asks ends x) :
    WithCallers.batchOf? program = (stage x).open?.map (·.batch) := by
  cases program with
  | done a =>
      rw [hends h]
      rfl
  | ask q next =>
      obtain ⟨state, hx, hobeys⟩ := h
      cases hasks hx with
      | finish hstage =>
          rw [hstage]
          rfl
      | other hq hopen =>
          rw [hopen]
          cases q with
          | backend call =>
              cases call with
              | saveBatch => cases hq
              | _ => rfl
          | finishBatch => cases hq
          | _ => rfl
      | @save p state hstage hnext =>
          have hafter := hobeys (.ok true)
          rw [hstage]
          simp only [WithCallers.batchOf?]
          cases hprogram : next (.ok true) with
          | done a =>
              rw [hprogram] at hafter
              have hopen := hends hafter
              rw [hnext] at hopen
              cases hopen
          | ask q' next' =>
              rw [hprogram] at hafter
              obtain ⟨state', hx', -⟩ := hafter
              cases hasks hx' with
              | finish hstage' =>
                  rw [hnext] at hstage'
                  cases hstage'
                  rfl
              | save hstage' _ =>
                  rw [hnext] at hstage'
                  cases hstage'
              | other _ hopen =>
                  rw [hnext] at hopen
                  cases hopen

theorem Caller.AtStage.batchOf?_eq {c : Caller} {r : Running} {st : Stage} (h : c.AtStage r st) :
    WithCallers.batchOf? c.program = st.open?.map (·.batch) := by
  cases h with
  | errand herrand hobeys =>
      exact batchOf?_of_obeys Stage.Asks.opens (fun hend => by rw [hend]; rfl) hobeys
  | shutdown hk hobeys =>
      exact batchOf?_of_obeys Closing.Asks.opens (fun hend => by cases hend <;> rfl) hobeys

namespace WithCallers

theorem Staged.writes?_eq (h : s.Staged g stage) (party : Party) :
    s.writes? party = (stage party.number).open?.map (·.batch) := by
  cases party with
  | worker =>
      obtain ⟨d, hobeys, hd⟩ := h.worker
      rw [Party.number, ← hd]
      exact batchOf?_of_obeys Duty.Asks.opens (fun hend => by cases hend <;> rfl) hobeys
  | caller n =>
      rw [writes?, Party.number]
      cases hc : s.callers[n]? with
      | none =>
          rw [h.resting n (List.getElem?_eq_none_iff.1 hc)]
          rfl
      | some c => exact (h.callers n c hc).batchOf?_eq

theorem nodup_parties (s : WithCallers) : s.parties.Nodup := by
  refine List.nodup_cons.2 ⟨by simp, ?_⟩
  exact List.nodup_range.map fun n m h => Party.caller.inj h

/-- The batches are those that parties are writing. -/
theorem Staged.perm_batches (h : s.Staged g stage) (hs : (s.viewOf stage).Sound) :
    (s.running.cache.contents.batches.map (·.number)).Perm (s.parties.filterMap s.writes?) := by
  have hopen : ∀ {party : Party} {number : Nat}, s.writes? party = some number →
      ∃ p, (stage party.number).open? = some p ∧ p.batch = number := by
    intro party number hp
    rw [h.writes?_eq] at hp
    exact Option.map_eq_some_iff.1 hp
  refine (List.perm_ext_iff_of_nodup hs.numbered.nodup ?_).2 fun number => ?_
  · refine s.nodup_parties.filterMap fun party party' number hwrites hwrites' => ?_
    obtain ⟨p, hp, rfl⟩ := hopen hwrites
    obtain ⟨q, hq, hsame⟩ := hopen hwrites'
    have hnumber := hs.apart _ _ p q hp hq hsame.symm
    cases party <;> cases party' <;> cases hnumber <;> rfl
  · rw [List.mem_map, List.mem_filterMap]
    constructor
    · rintro ⟨b, hb, rfl⟩
      obtain ⟨n, p, hp, hnumber⟩ := hs.opened b hb
      have hp : (stage n).open? = some p := hp
      obtain ⟨party, rfl, hparty⟩ := h.exists_isInPass (n := n) fun hn => by rw [hn] at hp; cases hp
      refine ⟨party, mem_parties hparty, ?_⟩
      rw [h.writes?_eq, hp, Option.map_some, hnumber]
    · rintro ⟨party, -, hwrites⟩
      obtain ⟨p, hp, rfl⟩ := hopen hwrites
      obtain ⟨b, hb, hnumber, -⟩ := hs.batch _ p hp
      exact ⟨b, hb, hnumber⟩

/-- A batch that ends is among the batches, and gives back its marks. -/
theorem Staged.ended?_cases (h : s.Staged g stage) (hs : (s.viewOf stage).Sound) {batch : Nat}
    {ids : List EntryId} (hended : s.ended? e = some (batch, ids)) :
    ∃ b ∈ s.running.cache.contents.batches, b.number = batch ∧ b.deleted = ids := by
  cases e with
  | go party now =>
      simp only [ended?] at hended
      split at hended
      next n hasks =>
        cases hended
        have hwrites : s.writes? party = some batch := by
          cases party with
          | worker =>
              simp only [asks?, writes?] at hasks ⊢
              cases hw : s.worker with
              | done a => rw [hw] at hasks; cases hasks
              | ask q next => rw [hw] at hasks; cases hasks; rfl
          | caller n =>
              simp only [asks?, writes?] at hasks ⊢
              obtain ⟨c, hc, hrequest⟩ := Option.bind_eq_some_iff.1 hasks
              rw [hc, Option.bind_some]
              cases hprogram : c.program with
              | done a => rw [hprogram] at hrequest; cases hrequest
              | ask q next => rw [hprogram] at hrequest; cases hrequest; rfl
        rw [h.writes?_eq] at hwrites
        obtain ⟨p, hp, rfl⟩ := Option.map_eq_some_iff.1 hwrites
        obtain ⟨b, hb, hnumber, -⟩ := hs.batch _ p hp
        refine ⟨b, hb, hnumber, ?_⟩
        have hmarks := hs.numbered.finish_fst hb
        rw [hnumber] at hmarks
        exact hmarks.symm
      next => cases hended
  | offer | call | own | begin | take | answer => cases hended

/-! ## Deletions are tracked -/

/-- When a batch ends, it gives back the addresses that it took up when it began and that were
removed later, with no admission after the last removal, and each of them once.  The marks of the
batches that are still written are addresses of theirs, and nothing is cached there.  And the
batches that are there are those that some party is still writing. -/
theorem deletions_tracked (g : CallerSystem) (events : List Event) :
    (∀ e batch ids, (run g.step g.start events).ended? e = some (batch, ids) →
      ∃ first e₀ between p, events = first ++ e₀ :: between ∧
        (run g.step g.start first).begun? e₀ = some p ∧ p.batch = batch ∧ ids.Nodup ∧
        ∀ id, id ∈ ids ↔
          id ∈ p.ids ∧ g.RemovedLast id (run g.step g.start (first ++ [e₀])) between) ∧
      (∀ b ∈ (run g.step g.start events).running.cache.contents.batches, ∀ id ∈ b.deleted,
        id ∈ b.ids ∧ (run g.step g.start events).cached id = none) ∧
      ((run g.step g.start events).running.cache.contents.batches.map (·.number)).Perm
        ((run g.step g.start events).parties.filterMap (run g.step g.start events).writes?) := by
  obtain ⟨stage, hstaged, hs⟩ := staged_run g events
  refine ⟨fun e batch ids hended => ?_, fun b hb id hid => ?_, hstaged.perm_batches hs⟩
  · obtain ⟨b, hb, rfl, rfl⟩ := hstaged.ended?_cases hs hended
    obtain ⟨first, e₀, between, p, hevents, hp, hnumber, -, hnodup, hmarks⟩ :=
      tracks_run g events b hb
    exact ⟨first, e₀, between, p, hevents, hp, hnumber.symm, hnodup, hmarks⟩
  · obtain ⟨first, e₀, between, p, rfl, -, -, hids, -, hmarks⟩ := tracks_run g events b hb
    obtain ⟨hmem, hremoved⟩ := (hmarks id).1 hid
    refine ⟨hids ▸ hmem, ?_⟩
    rw [List.append_cons]
    exact uncached_of_removedLast hremoved

/-- Two callers have an entry written.  Meanwhile it is removed, admitted again and removed again,
and then the backend has dealt with the first batch. -/
def removedTwice : List Event :=
  flushesUnderWay [1, 2] ++
    [.call (.delete .transaction (.hash [1])),
      .offer (.hash [1]) (.ofBytes .transaction [2]),
      .call (.clear .transaction),
      .answer (.caller 1) .done]

/-- The first batch gives the entry back when it ends, since the last removal came after the
admission. -/
theorem deletions_tracked_removedTwice : ∃ first e between p,
    removedTwice = first ++ e :: between ∧
      (run CallerSystem.single.step CallerSystem.single.start first).begun? e
        = some p ∧ p.batch = 0 ∧
      CallerSystem.single.RemovedLast ⟨.transaction, .hash [1]⟩
        (run CallerSystem.single.step CallerSystem.single.start (first ++ [e])) between := by
  obtain ⟨first, e, between, p, hevents, hp, hbatch, -, hmem⟩ :=
    (deletions_tracked CallerSystem.single removedTwice).1 (.go (.caller 1) 0) 0
      [⟨.transaction, .hash [1]⟩] (by decide +kernel)
  exact ⟨first, e, between, p, hevents, hp, hbatch, ((hmem _).1 (List.mem_singleton_self _)).2⟩

end WithCallers

end Cache

end RecordStore
