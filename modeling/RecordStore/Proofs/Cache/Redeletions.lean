import RecordStore.Proofs.Cache.Stages

/-!
# Redeletions that fail

An entry that is deleted while a batch with it is being written is deleted from the backend once
more when the batch has ended.  The marks that say so are taken from the batch before the backend
is called, and nobody keeps them.  If the backend fails to delete an entry then, the pass is given
up, and no later pass knows of the deletion (`WithCallers.forgets`).

Where the backend may fail at any call, this is the only way for a deleted entry to come back.  When
all is quiet, the backend stores something under the address if and only if the deletion was
forgotten, and nobody has removed the entry from the backend since (`stored_iff_forgotten`).
Otherwise the invariants are those of deletions that do not fail: the entry is marked wherever it is
being written, and what is stored is about to be deleted.
-/

namespace RecordStore

/-! ## Calls that erase -/

/-- Whether a call leaves nothing under an address. -/
def Call.erases (id : EntryId) : Call → Bool
  | clearMetadata kind => kind == .transaction && id.kind == .transactionMetadata
  | call => call.removes id

namespace Records

variable {t : Records} {id : EntryId} {call : Call}

theorem apply_of_erases (h : call.erases id = true) : t.apply call id = none := by
  cases call with
  | clearMetadata kind =>
      obtain ⟨hkind, hid⟩ := Bool.and_eq_true_iff.1 h
      rw [beq_iff_eq.1 hkind]
      exact if_pos (beq_iff_eq.1 hid)
  | _ => exact apply_of_removes h

/-- What is stored under an address stays there, or is replaced, by calls that do not erase it. -/
theorem apply_ne_none (h : call.erases id = false) (ht : t id ≠ none) :
    t.apply call id ≠ none := by
  cases call with
  | save record key | update record key _ =>
      simp only [apply, put]
      split
      · simp
      · exact ht
  | saveBatch entries =>
      have hcases : t.apply (.saveBatch entries) id = t id ∨ ∃ e ∈ entries, e.id = id ∧
          t.apply (.saveBatch entries) id = some e.2 := saveBatch_cases entries t
      rcases hcases with hsame | ⟨e, -, -, hsome⟩
      · rw [hsame]
        exact ht
      · rw [hsome]
        simp
  | delete kind key =>
      have hne : id ≠ ⟨kind, key⟩ := (beq_eq_false_iff_ne.1 h).symm
      simpa [apply, erase, hne] using ht
  | deleteBatch ids =>
      have hnot : id ∉ ids := by simpa [Call.erases, Call.removes] using h
      rw [deleteBatch_apply, if_neg hnot]
      exact ht
  | clear kind =>
      have hne : id.kind ≠ kind := beq_eq_false_iff_ne.1 h
      simpa [apply, drop, hne] using ht
  | clearMetadata kind =>
      simp only [Call.erases, Bool.and_eq_false_iff, beq_eq_false_iff_ne] at h
      have hmapped : (if id.kind = kind then (t id).map Record.clearMetadata else t id) ≠ none := by
        split
        · simpa using ht
        · exact ht
      simp only [apply, clearMetadata]
      split
      next hkind =>
        have hne : id.kind ≠ .transactionMetadata := h.resolve_left fun hne => hne hkind
        simpa only [drop, hne, if_false] using hmapped
      next => exact hmapped
  | _ => exact ht

end Records

namespace Cache

variable {g : WithCallers.CallerSystem} {s : WithCallers} {stage : Nat → Stage} {v v' : View}
    {id : EntryId}
  {n : Nat} {c' : Contents} {st' : Stage}

/-! ## What happens to a cache with callers -/

namespace WithCallers

/-- The call that the backend carries out at an event. -/
def carriedOut? (s : WithCallers) : Event → Option Call
  | .own call => some call
  | .answer party verdict => (s.waitsFor? party).bind verdict.carriedOut
  | _ => none

/-- Whether a program gives up deleting an entry again that the backend stores. -/
def forgets (s : WithCallers) (id : EntryId) : Event → Bool
  | .answer party (.failed _ part) =>
      match s.waitsFor? party with
      | some (.deleteBatch ids) =>
          ids.contains id && !(ids.take part).contains id && (s.stored id).isSome
      | _ => false
  | _ => false

/-- Whether no batch is being written and nobody waits for the backend. -/
def isQuiet (s : WithCallers) : Bool :=
  s.running.cache.contents.batches.isEmpty && (pending? s.worker).isNone &&
    s.callers.all fun c => (pending? c.program).isNone

/-- Whether a caller had entries written, and was told of no failure. -/
def hasWritten (s : WithCallers) (n : Nat) : Bool :=
  match s.callers[n]? with
  | some ⟨.writeAll, .done (.ok count)⟩ | some ⟨.evict, .done (.ok count)⟩ => count != 0
  | _ => false

/-- Whether the backend leaves something under an address, if there is something before. -/
def leaves (s : WithCallers) (id : EntryId) (e : Event) : Bool :=
  (s.carriedOut? e).all fun call => !call.erases id

/-- A deletion is forgotten, and the backend erases the entry at no later event. -/
def CallerSystem.Forgotten (g : CallerSystem) (id : EntryId) : WithCallers → List Event → Prop
  | _, [] => False
  | s, e :: events =>
      s.forgets id e = true ∧ Along g.step (fun s e => s.leaves id e = true) (g.step s e) events ∨
        g.Forgotten id (g.step s e) events

instance CallerSystem.instDecidableForgotten (g : CallerSystem) (id : EntryId) :
    (s : WithCallers) → (events : List Event) → Decidable (g.Forgotten id s events)
  | _, [] => inferInstanceAs (Decidable False)
  | s, e :: events =>
      have := CallerSystem.instDecidableForgotten g id (g.step s e) events
      inferInstanceAs (Decidable (_ ∧ _ ∨ _))

/-- What the backend stores changes by the call that it carries out. -/
theorem stored_step (g : CallerSystem) (s : WithCallers) (e : Event) :
    (g.step s e).stored = (s.carriedOut? e).elim s.stored s.stored.apply := by
  cases e with
  | offer | own | begin => rfl
  | call call => exact stored_call s call
  | go party now => exact stored_of_go g s party now
  | take e now => exact stored_of_take g s e now
  | answer party verdict =>
      rw [stored_of_answer, carriedOut?]
      cases s.waitsFor? party with
      | none => rfl
      | some call => rfl

/-- Where all is quiet nobody waits for anything. -/
theorem waitsFor?_of_isQuiet (h : s.isQuiet = true) (party : Party) :
    s.waitsFor? party = none := by
  simp only [isQuiet, Bool.and_eq_true, List.all_eq_true, Option.isNone_iff_eq_none] at h
  cases party with
  | worker => exact h.1.2
  | caller n =>
      cases hc : s.callers[n]? with
      | none => simp only [waitsFor?, hc, Option.bind_none]
      | some c =>
          simp only [waitsFor?, hc, Option.bind_some]
          exact h.2 c (List.mem_of_getElem? hc)

/-- The cache, what the backend stores, and the stage of everybody. -/
def viewOf (s : WithCallers) (stage : Nat → Stage) : View := s.viewWith s.stored [] stage

/-- What an event does to the view of a cache with callers. -/
inductive Turn (g : CallerSystem) (s : WithCallers) (v : View) : Event → View → Prop where
  /-- The view stays as it is. -/
  | aside {e : Event} (hremoves : ∀ id, e.removes id = false) : Turn g s v e v
  | told {e : Event} {v' : View} (h : Tells g s e v v') : Turn g s v e v'
  | own (call : Call) : Turn g s v (.own call) { v with stored := v.stored.apply call }
  | go {party : Party} {now : Nat} {c' : Contents} {st' : Stage}
      (hgoes : v.contents.Goes (v.stage party.number) c' st') :
      Turn g s v (.go party now) (View.enter { v with contents := c' } party.number st')
  | hear {party : Party} {verdict : Verdict} {call : Call} {st' : Stage}
      (hcall : s.waitsFor? party = some call)
      (hhears : Stage.Hears (v.stage party.number) call (verdict.outcome call) st') :
      Turn g s v (.answer party verdict)
        (View.enter { v with stored := verdict.carryOut v.stored call } party.number st')

namespace Staged

variable (h : s.Staged g stage)
include h

/-- What an event does to a cache with callers where everybody is at a stage. -/
theorem turn (e : Event) : ∃ stage',
    (g.step s e).Staged g stage' ∧ Turn g s (s.viewOf stage) e ((g.step s e).viewOf stage') := by
  cases e with
  | offer key record =>
      obtain ⟨hstaged, htells⟩ := h.told (e := .offer key record) rfl s.stored []
      exact ⟨stage, hstaged, .told htells⟩
  | call call =>
      obtain ⟨hstaged, htells⟩ := h.told (e := .call call) rfl s.stored []
      refine ⟨stage, hstaged, .told ?_⟩
      rw [viewOf, viewOf, stored_call]
      exact htells
  | own call => exact ⟨stage, h.withRunning h.sound (.refl _) _ _, .own call⟩
  | begin errand => exact ⟨stage, h.begin errand, .aside fun _ => rfl⟩
  | go party now =>
      obtain ⟨st', hgoes, hstaged⟩ := h.go party now
      refine ⟨_, hstaged, ?_⟩
      rw [viewOf, viewOf, stored_of_go]
      exact .go hgoes
  | take e now =>
      refine ⟨stage, h.take e now, ?_⟩
      have hsame : (g.step s (.take e now)).viewOf stage = s.viewOf stage := by
        simp only [viewOf, viewWith, stored_of_take, cache_take]
      rw [hsame]
      exact .aside fun _ => rfl
  | answer party verdict =>
      rw [step_answer]
      cases hcall : s.waitsFor? party with
      | none =>
          rw [hear_of_none hcall]
          exact ⟨stage, h, .aside fun _ => rfl⟩
      | some call =>
          obtain ⟨st', hhears, hstaged⟩ := h.hear hcall verdict.outcome
          refine ⟨_, hstaged.withRunning hstaged.sound (.refl _) _ _, ?_⟩
          simp only [viewOf, viewWith, running_hear]
          exact .hear hcall hhears

/-- Where all is quiet nobody is about to delete anything. -/
theorem not_deletes (hs : (s.viewOf stage).Sound) (hquiet : s.isQuiet = true) (n : Nat) :
    ¬(stage n).Deletes id := by
  intro hd
  cases hstage : stage n with
  | resting | saving p | dropping p =>
      rw [hstage] at hd
      exact hd
  | finishing p written =>
      have hopen : ((s.viewOf stage).stage n).open? = some p := by
        show (stage n).open? = some p
        rw [hstage]
        rfl
      obtain ⟨b, hb, -⟩ := hs.batch n p hopen
      simp only [isQuiet, Bool.and_eq_true, List.isEmpty_iff] at hquiet
      have hnone : (s.viewOf stage).contents.batches = [] := hquiet.1.1
      rw [hnone] at hb
      cases hb
  | deleting p written ids =>
      have hcall : (stage n).call? = some (p, .deleteBatch ids) := by rw [hstage]; rfl
      obtain ⟨party, -, hwaits⟩ := h.exists_waitsFor? hcall
      rw [waitsFor?_of_isQuiet hquiet] at hwaits
      cases hwaits

end Staged

end WithCallers

/-! ## Entries that were deleted -/

/-- A batch without an address leaves it alone, whatever the backend does. -/
theorem carryOut_saveBatch {t : Records} {entries : List Entry} (h : ∀ e ∈ entries, e.id ≠ id)
    (verdict : Verdict) : verdict.carryOut t (.saveBatch entries) id = t id := by
  cases verdict with
  | done => exact Records.saveBatch_of_not_mem h
  | refused => rfl
  | failed cause part =>
      exact Records.saveBatch_of_not_mem fun e he => h e (List.mem_of_mem_take he)

/-- A program that has ended its batch and waits for nothing is not about to delete anything. -/
theorem Stage.not_deletes {st : Stage} (hopen : st.open? = none) (hcall : st.call? = none) :
    ¬st.Deletes id := by
  cases st with
  | finishing => cases hopen
  | deleting => cases hcall
  | resting | saving | dropping => exact fun h => h

namespace View

/-- An entry stays removed while nobody begins or ends a batch. -/
theorem Removed.enter (h : v.Removed id) (hopen : st'.open? = (v.stage n).open?) :
    (v.enter n st').Removed id where
  uncached := h.uncached
  marked k p hp := by
    by_cases hk : k = n
    · rw [hk, stage_enter_self, hopen] at hp
      exact h.marked n p hp
    · rw [stage_enter_of_ne hk] at hp
      exact h.marked k p hp

theorem Removed.goes (h : v.Removed id) (hs : v.Sound)
    (hgoes : v.contents.Goes (v.stage n) c' st') :
    (View.enter { v with contents := c' } n st').Removed id := by
  rcases hgoes.cases_move (g := .single) with hm | ⟨rfl, rfl, hopen, -, -⟩
  · exact h.move hs hm rfl
  · have hclear : View.Removed { v with contents := v.contents.clear } id :=
      ⟨fun d hd => absurd hd List.not_mem_nil, h.marked⟩
    exact hclear.enter hopen.symm

theorem Doomed.goes (h : v.Doomed id) (hs : v.Sound) (hr : v.Removed id)
    (hgoes : v.contents.Goes (v.stage n) c' st') :
    (View.enter { v with contents := c' } n st').Doomed id := by
  rcases hgoes.cases_move (g := .single) with hm | ⟨rfl, rfl, hopen, hcall, -⟩
  · exact h.move hs hr hm fun call hcall => by cases hcall
  · refine Doomed.enter (v := { v with contents := _ }) h rfl fun hd => ?_
    exact absurd hd (Stage.not_deletes hopen hcall)

/-- What is stored stays doomed when the backend deals with a call, unless it is not deleted
again. -/
theorem Doomed.hears (h : v.Doomed id) {call : Call} {verdict : Verdict}
    (hhears : Stage.Hears (v.stage n) call (verdict.outcome call) st')
    (hpart : ∀ cause part ids, verdict = .failed cause part → call = .deleteBatch ids → id ∈ ids →
      id ∉ ids.take part → v.stored id = none) :
    View.Doomed (View.enter { v with stored := verdict.carryOut v.stored call } n st') id := by
  generalize hstage : v.stage n = st at hhears
  generalize ha : verdict.outcome call = a at hhears
  have hsame : verdict.carryOut v.stored call id = v.stored id →
      View.Doomed { v with stored := verdict.carryOut v.stored call } id :=
    fun hsame => h.imp hsame.trans fun hd => hd
  cases hhears with
  | save p a =>
      by_cases hid : id ∈ p.ids
      · exact Doomed.of_deletes (v := { v with stored := _ }) hid
      · have hnot : ∀ e ∈ p.entries, e.id ≠ id := fun e he heid => hid (p.mem_ids_of_entry he heid)
        exact (hsame (carryOut_saveBatch hnot verdict)).enter hstage False.elim
  | redelete ids hend =>
      have happly : verdict.carryOut v.stored (.deleteBatch ids) id
          = if id ∈ ids then none else v.stored id := by
        cases verdict with
        | done | refused => exact Records.deleteBatch_apply ids v.stored
        | failed cause part => cases ha
      by_cases hid : id ∈ ids
      · exact Or.inl (happly.trans (if_pos hid))
      · exact (hsame (happly.trans (if_neg hid))).enter hstage fun hd => absurd hd hid
  | lapse p written ids e =>
      cases verdict with
      | done | refused => cases ha
      | failed cause part =>
          have happly : (Verdict.failed cause part).carryOut v.stored (.deleteBatch ids) id
              = if id ∈ ids.take part then none else v.stored id :=
            Records.deleteBatch_apply (ids.take part) v.stored
          by_cases hpart' : id ∈ ids.take part
          · exact Or.inl (happly.trans (if_pos hpart'))
          · rw [if_neg hpart'] at happly
            by_cases hid : id ∈ ids
            · exact Or.inl (happly.trans (hpart cause part ids rfl rfl hid hpart'))
            · exact (hsame happly).enter hstage fun hd => absurd hd hid

end View

namespace WithCallers

namespace Turn

variable {e : Event} (h : Turn g s v e v') (hs : v.Sound)
include h hs

theorem sound : v'.Sound := by
  cases h with
  | aside => exact hs
  | told htells => exact htells.sound hs
  | own call => exact hs.congr _ v.calls
  | go hgoes => exact (hgoes.proceeds (g := g)).sound hs
  | hear hcall hhears =>
      exact (hs.congr _ v.calls).enter hhears.open?_eq fun p => hhears.pass?_of_some

/-- What the cache removes is removed. -/
theorem removed_of_removes (he : e.removes id = true) : v'.Removed id := by
  cases h with
  | aside hremoves =>
      rw [hremoves] at he
      cases he
  | told htells => exact htells.removed_of_removes hs he
  | own | go | hear => cases he

variable (hr : v.Removed id)
include hr

/-- An entry stays removed as long as it is not admitted. -/
theorem removed (he : s.admits id e = false) : v'.Removed id := by
  cases h with
  | aside => exact hr
  | told htells =>
      cases htells with
      | aside => exact hr
      | move hmove hm hown hadmits => exact hr.move hs hm ((hadmits id).symm.trans he)
  | own call => exact hr.congr _ v.calls
  | go hgoes => exact hr.goes hs hgoes
  | hear hcall hhears => exact (hr.congr _ v.calls).enter hhears.open?_eq

/-- What is stored under the address stays doomed, unless its deletion is forgotten. -/
theorem doomed (hstored : v.stored = s.stored) (hd : v.Doomed id)
    (hown : ∀ call, e = .own call → call.stores id = false) (he : s.forgets id e = false) :
    v'.Doomed id := by
  cases h with
  | aside => exact hd
  | told htells =>
      cases htells with
      | aside => exact hd
      | move hmove hm hown => exact hd.move hs hr hm fun call hcall => absurd hcall (hown call)
  | own call => exact hd.imp (Records.apply_eq_none (hown call rfl)) fun h => h
  | go hgoes => exact hd.goes hs hr hgoes
  | hear hcall hhears =>
      refine hd.hears hhears fun cause part ids hverdict hdelete hid hpart => ?_
      subst hverdict hdelete
      simpa [forgets, hcall, hid, hpart, hstored] using he

end Turn

/-! ## What is stored after a deletion -/

/-- Everybody has a stage, and an entry is removed. -/
structure Deleted (g : CallerSystem) (s : WithCallers) (id : EntryId)
    (stage : Nat → Stage) : Prop where
  staged : s.Staged g stage
  sound : (s.viewOf stage).Sound
  removed : (s.viewOf stage).Removed id

/-- At any time after the start everybody has a stage. -/
theorem staged_run (g : CallerSystem) (events : List Event) : ∃ stage,
    (run g.step g.start events).Staged g stage ∧
      ((run g.step g.start events).viewOf stage).Sound := by
  refine run_keeps (Q := fun s : WithCallers => ∃ stage, s.Staged g stage ∧ (s.viewOf stage).Sound)
    (fun s e hs => ?_) ⟨_, .start g, g.jobSystem.view_sound⟩ events
  obtain ⟨stage, h, hs⟩ := hs
  obtain ⟨stage', h', hturn⟩ := h.turn e
  exact ⟨stage', h', hturn.sound hs⟩

/-- What is stored stays stored until it is erased. -/
theorem stored_ne_none_of_leaves {e : Event} (hleaves : s.leaves id e = true)
    (h : s.stored id ≠ none) : (g.step s e).stored id ≠ none := by
  rw [stored_step]
  cases hcall : s.carriedOut? e with
  | none => exact h
  | some call => exact Records.apply_ne_none (by simpa [leaves, hcall] using hleaves) h

theorem stored_eq_none_of_erases {e : Event} (hleaves : s.leaves id e = false) :
    (g.step s e).stored id = none := by
  rw [stored_step]
  cases hcall : s.carriedOut? e with
  | none => simp [leaves, hcall] at hleaves
  | some call => exact Records.apply_of_erases (by simpa [leaves, hcall] using hleaves)

/-- What is not deleted again is stored. -/
theorem stored_of_forgets {e : Event} (h : s.forgets id e = true) :
    s.stored id ≠ none ∧ s.leaves id e = true := by
  simp only [forgets] at h
  split at h
  next party cause part =>
    split at h
    next ids hids =>
      simp only [Bool.and_eq_true] at h
      refine ⟨Option.isSome_iff_ne_none.1 h.2, ?_⟩
      simp only [leaves, carriedOut?, hids, Option.bind_some, Verdict.carriedOut, Option.all_some]
      exact h.1.2
    next => cases h
  next => cases h

theorem stored_of_forgotten {events : List Event} (h : g.Forgotten id s events) :
    (run g.step s events).stored id ≠ none := by
  induction events generalizing s with
  | nil => cases h
  | cons e events ih =>
      rw [run_cons]
      rcases h with ⟨hforgets, halong⟩ | h
      · obtain ⟨hstored, hleaves⟩ := stored_of_forgets hforgets
        have hstep : (g.step s e).stored id ≠ none := stored_ne_none_of_leaves hleaves hstored
        exact run_induction (Q := fun s => s.stored id ≠ none) halong hstep
          fun _ _ hq hp => stored_ne_none_of_leaves hp hq
      · exact ih h

namespace Deleted

/-- The entry stays removed, and doomed unless its deletion is forgotten. -/
theorem step (h : Deleted g s id stage) {e : Event} (hadmits : s.admits id e = false) :
    ∃ stage', Deleted g (g.step s e) id stage' ∧
      ((∀ call, e = .own call → call.stores id = false) → s.forgets id e = false →
        (s.viewOf stage).Doomed id → ((g.step s e).viewOf stage').Doomed id) := by
  obtain ⟨stage', hstaged, hturn⟩ := h.staged.turn e
  have h' : Deleted g (g.step s e) id stage' :=
    ⟨hstaged, hturn.sound h.sound, hturn.removed h.sound h.removed hadmits⟩
  exact ⟨stage', h', fun hown he hd => hturn.doomed h.sound h.removed rfl hd hown he⟩

theorem along_run {events : List Event} (h : Deleted g s id stage)
    (hadmits : Along g.step (fun s e => s.admits id e = false) s events) :
    ∃ stage', Deleted g (run g.step s events) id stage' := by
  refine run_induction (Q := fun s => ∃ stage, Deleted g s id stage) hadmits ⟨stage, h⟩
    fun s e hs hadmits => ?_
  obtain ⟨stage, h⟩ := hs
  obtain ⟨stage', h', -⟩ := h.step hadmits
  exact ⟨stage', h'⟩

/-- What is stored at the end was forgotten, or was there from the beginning. -/
theorem forgotten_or {events : List Event} (h : Deleted g s id stage)
    (hadmits : Along g.step (fun s e => s.admits id e = false) s events)
    (hown : ∀ call, .own call ∈ events → call.stores id = false)
    (hquiet : (run g.step s events).isQuiet = true)
    (hstored : (run g.step s events).stored id ≠ none) :
    g.Forgotten id s events ∨ ¬(s.viewOf stage).Doomed id := by
  -- from the end to the beginning: if the deletion was not forgotten, then it was not erased
  suffices hback : g.Forgotten id s events ∨
      ¬(s.viewOf stage).Doomed id ∧ Along g.step (fun s e => s.leaves id e = true) s events from
    hback.imp_right And.left
  induction events generalizing s stage with
  | nil =>
      refine Or.inr ⟨fun hd => ?_, trivial⟩
      rcases hd with hnone | ⟨n, hn⟩
      · exact hstored hnone
      · exact h.staged.not_deletes h.sound hquiet n hn
  | cons e events ih =>
      obtain ⟨stage', h', hdoomed⟩ := h.step hadmits.1
      rcases ih h' hadmits.2 (fun call hcall => hown call (List.mem_cons_of_mem e hcall)) hquiet
        hstored with hforgotten | ⟨hnot, halong⟩
      · exact Or.inl (Or.inr hforgotten)
      · cases hforgets : s.forgets id e with
        | true => exact Or.inl (Or.inl ⟨hforgets, halong⟩)
        | false =>
            have hown' : ∀ call, e = .own call → call.stores id = false :=
              fun call hcall => hown call (hcall ▸ List.mem_cons_self)
            cases hleaves : s.leaves id e with
            | true => exact Or.inr ⟨fun hd => hnot (hdoomed hown' hforgets hd), hleaves, halong⟩
            | false => exact absurd (Or.inl (stored_eq_none_of_erases hleaves)) hnot

end Deleted

/-- When the cache removes an entry, the backend removes it at some later time, the cache does not
admit it again, and only passes store it, then it is not cached any more.  And once nothing is
being written, it is stored if and only if some pass failed to delete it again, and nobody has
removed it from the backend since. -/
theorem stored_iff_forgotten (g : CallerSystem) {id : EntryId} {removal : Event} {call : Call}
    {before between after : List Event} (hremoval : removal.removes id = true)
    (hcall : call.removes id = true)
    (hadmits : Along g.step (fun s e => s.admits id e = false) (run g.step g.start before)
      (removal :: between ++ .own call :: after))
    (howner : ∀ call, .own call ∈ after → call.stores id = false)
    (hquiet : (run g.step g.start (before ++ removal :: between ++ .own call :: after)).isQuiet
      = true) :
    (run g.step g.start (before ++ removal :: between ++ .own call :: after)).cached id = none ∧
      ((run g.step g.start (before ++ removal :: between ++ .own call :: after)).stored id ≠ none ↔
        g.Forgotten id (run g.step g.start (before ++ removal :: between ++ [.own call]))
          after) := by
  rw [List.append_assoc, run_append, List.cons_append, run_cons, run_append, run_cons]
    at hquiet ⊢
  rw [List.append_assoc, run_append, List.cons_append, run_cons, run_append, run_cons]
  -- the cache removes the entry
  obtain ⟨stage₀, h₀, hs₀⟩ := staged_run g before
  obtain ⟨stage₁, hstaged, hturn⟩ := h₀.turn removal
  have h₁ : Deleted g (g.step (run g.step g.start before) removal) id stage₁ :=
    ⟨hstaged, hturn.sound hs₀, hturn.removed_of_removes hs₀ hremoval⟩
  obtain ⟨hbetween, -, hafter⟩ := along_append.1 hadmits.2
  obtain ⟨stage₂, h₂⟩ := h₁.along_run hbetween
  -- the backend removes the entry
  obtain ⟨stage₃, h₃, -⟩ := h₂.step (e := .own call) rfl
  have hd₃ : (viewOf (g.step (run g.step (g.step
    (run g.step g.start before) removal) between) (.own call))
      stage₃).Doomed id := Or.inl (Records.apply_of_removes hcall)
  obtain ⟨stage, h⟩ := h₃.along_run hafter
  refine ⟨Slots.recordAt?_eq_none_iff.2 h.removed.uncached, fun hstored => ?_, stored_of_forgotten⟩
  exact (h₃.forgotten_or hafter howner hquiet hstored).resolve_right (not_not.2 hd₃)

/-- A record is offered whose entry fills the cache.  There is no worker that accepts the request
for a pass. -/
def offerInVain (bytes : Bytes) (n : Nat) : List Event :=
  [.offer (.hash bytes) (.ofBytes .transaction bytes), .go (.caller n) 0, .go (.caller n) 0,
    .go (.caller n) 0]

/-- Callers have an entry written. -/
def flushesUnderWay (callers : List Nat) : List Event :=
  offerInVain [1] 0 ++
    callers.flatMap fun n => [.begin .writeAll, .go (.caller n) 0, .go (.caller n) 0]

/-- The first of them has written the entry, and the backend fails to delete it again. -/
def redeletionFails : List Event :=
  [.answer (.caller 1) .done, .go (.caller 1) 0,
    .answer (.caller 1) (.failed (.reported "disk unavailable") 0)]

/-- Two batches have the entry when it is deleted, and after the second one it is deleted again. -/
def redeletedBySecond : WithCallers :=
  run CallerSystem.single.step CallerSystem.single.start
    (flushesUnderWay [1, 2] ++ .call (.delete .transaction (.hash [1])) :: [] ++
      .own (.delete .transaction (.hash [1])) :: (redeletionFails ++
        [.answer (.caller 2) .done, .go (.caller 2) 0, .answer (.caller 2) .done]))

theorem redeleted_by_second : redeletedBySecond.stored ⟨.transaction, .hash [1]⟩ = none := by
  refine not_not.1 (mt (stored_iff_forgotten CallerSystem.single (by decide) (by decide)
    (by decide +kernel) (fun _ h => by simp [redeletionFails] at h) (by decide +kernel)).2.1 ?_)
  decide +kernel

/-- After the pass that is given up, another entry is written. -/
def nextPass : List Event :=
  offerInVain [2] 2 ++ [.begin .writeAll, .go (.caller 3) 0, .go (.caller 3) 0,
    .answer (.caller 3) .done, .go (.caller 3) 0]

/-- The next pass writes its entry without a failure, and what was deleted is stored. -/
theorem not_gone_of_forgotten : ¬∀ (before between after : List Event) (removal : Event)
    (call : Call) (id : EntryId) (r : Record) (n : Nat),
    (∃ b ∈ (run CallerSystem.single.step CallerSystem.single.start
        before).running.cache.contents.batches, id ∈ b.ids) →
    (run CallerSystem.single.step CallerSystem.single.start before).cached id = some r →
    removal.removes id = true → call.removes id = true →
    Along CallerSystem.single.step (fun s e => s.admits id e = false)
      (run CallerSystem.single.step CallerSystem.single.start before)
        (removal :: between ++ .own call :: after) →
    (∀ call, .own call ∉ after) →
    (run CallerSystem.single.step CallerSystem.single.start
      (before ++ removal :: between ++ [.own call])).callers.length ≤ n →
    (run CallerSystem.single.step CallerSystem.single.start
      (before ++ removal :: between ++ .own call :: after)).hasWritten n = true →
    (run CallerSystem.single.step CallerSystem.single.start
      (before ++ removal :: between ++ .own call :: after)).isQuiet = true →
    (run CallerSystem.single.step CallerSystem.single.start
      (before ++ removal :: between ++ .own call :: after)).stored id ≠ some r := by
  intro hclaim
  have hgone := hclaim (flushesUnderWay [1]) [] (redeletionFails ++ nextPass)
    (.call (.delete .transaction (.hash [1]))) (.delete .transaction (.hash [1]))
    ⟨.transaction, .hash [1]⟩ (.ofBytes .transaction [1]) 3 (by decide +kernel)
    (by decide +kernel) (by decide) (by decide) (by decide +kernel)
    (fun _ h => by simp [redeletionFails, nextPass, offerInVain] at h) (by decide +kernel)
    (by decide +kernel) (by decide +kernel)
  revert hgone
  decide +kernel

end WithCallers

end Cache

end RecordStore
