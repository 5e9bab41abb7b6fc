import RecordStore.Proofs.Cache.Closeout
import RecordStore.Proofs.Cache.Dealings

/-!
# One record under an address

A view is *uniform* under an address if every slot there, and every entry there that is being
written, has a given record (`View.Uniform`).  It is *settled* if the backend stores that record
as well (`View.Settled`).  Both stay so when programs go on, and at every event that leaves the
address alone or brings the same record there (`Event.Spares`).

When a record is admitted, the view is not uniform yet, since a pass that is under way may know an
older record.  But the record is kept, and as soon as its slot is gone the view is settled
(`View.Holds.settled`).
-/

namespace RecordStore

namespace Cache

variable {κ : Type} {g : JobSystem κ} {v v' : View} {e : Event κ} {id : EntryId} {o : Option Record}

/-- Whether an event leaves an address alone, or brings there what is said to be there. -/
def Event.Spares (config : Config) (id : EntryId) (o : Option Record) : Event κ → Prop
  | offer key record => record.idAt key = id → config.takes record = true → o = some record
  | delete i => i ≠ id
  | clear kind => id.kind ≠ kind
  | own call => ∀ t : Records, t.apply call id = t id ∨ t.apply call id = o
  | _ => True

/-- An event that spares an address leaves it alone, admits the record, or is a call of the
owner. -/
theorem Event.Spares.cases {config : Config} (h : e.Spares config id o) :
    e.concerns config id = false ∧ (∀ call, e ≠ .own call) ∨
      (∃ key record, e = .offer key record ∧ record.idAt key = id ∧ o = some record) ∨
      ∃ call, e = .own call ∧ ∀ t : Records, t.apply call id = t id ∨ t.apply call id = o := by
  cases e with
  | offer key record =>
      by_cases hid : record.idAt key = id
      · cases htakes : config.takes record with
        | true => exact Or.inr (Or.inl ⟨key, record, rfl, hid, h hid htakes⟩)
        | false => exact Or.inl ⟨by simp [concerns, admits, removes, htakes], by simp⟩
      · exact Or.inl ⟨by simp [concerns, admits, removes, hid], by simp⟩
  | delete i => exact Or.inl ⟨beq_eq_false_iff_ne.2 h, by simp⟩
  | clear kind => exact Or.inl ⟨beq_eq_false_iff_ne.2 h, by simp⟩
  | own call => exact Or.inr (Or.inr ⟨call, rfl, h⟩)
  | begin | advance | answer => exact Or.inl ⟨rfl, by simp⟩

/-! ## Uniform views -/

/-- Everything cached under an address, or being written there, has a given record.  If there is
one, it is not deleted again. -/
structure View.Uniform (v : View) (id : EntryId) (o : Option Record) : Prop where
  slot : ∀ d ∈ v.contents.slots.candidates, d.slot.id = id → o = some d.slot.record
  pass : ∀ n p, (v.stage n).open? = some p →
    ∀ d ∈ p.candidates, d.slot.id = id → o = some d.slot.record
  unmarked : o ≠ none → ∀ b ∈ v.contents.batches, id ∉ b.deleted
  redeletes : o ≠ none → ∀ n p written ids, v.stage n = .deleting p written ids → id ∉ ids

namespace View.Uniform

theorem congr (h : v.Uniform id o) (stored : Records) (calls : List (Option Nat × Call)) :
    View.Uniform { v with stored, calls } id o :=
  ⟨h.slot, h.pass, h.unmarked, h.redeletes⟩

theorem move (h : v.Uniform id o) (hs : v.Sound) (hm : Move g v e v')
    (he : e.concerns g.config id = false) : v'.Uniform id o where
  slot d hd hid := h.slot d (hm.mem_slots hs (Bool.or_eq_false_iff.1 he).1 hd hid) hid
  pass n p hp d hd hid := by
    rcases hm.open? hp with hold | ⟨-, hsub⟩
    · exact h.pass n p hold d hd hid
    · exact h.slot d (hsub.subset hd) hid
  unmarked ho b' hb' hdeleted := by
    rcases hm.mem_batches id hb' with ⟨-, hnil⟩ | ⟨b, hb, -, -, hmarks⟩
    · rw [hnil] at hdeleted
      cases hdeleted
    · exact h.unmarked ho b hb (hmarks (Bool.or_eq_false_iff.1 he).2 hdeleted)
  redeletes ho n p written ids hstage hid := by
    rcases hm.deleting hstage with hold | ⟨hopen, rfl⟩
    · exact h.redeletes ho n p written ids hold hid
    · obtain ⟨b, hb, hnumber, -⟩ := hs.batch n p hopen
      rw [← hnumber, hs.numbered.finish_fst hb] at hid
      exact h.unmarked ho b hb hid

/-- The record is admitted once more. -/
theorem put (h : v.Uniform id o) (hs : v.Sound) {key : Key} {record : Record}
    (hid : record.idAt key = id) (ho : o = some record) :
    View.Uniform { v with contents := v.contents.put key record } id o where
  slot d hd hdid := by
    rcases (Contents.mem_slots_put hs.slots).1 hd with rfl | ⟨hd, -⟩
    · exact ho
    · exact h.slot d hd hdid
  pass := h.pass
  unmarked ho b' hb' hdeleted := by
    rw [Contents.batches_put] at hb'
    obtain ⟨b, -, rfl⟩ := List.mem_map.1 hb'
    exact (Batch.mem_unmark.1 hdeleted).2 hid.symm
  redeletes := h.redeletes

/-- A program gives its pass up or ends it. -/
theorem rest (h : v.Uniform id o) (n : Nat) : (v.enter n .resting).Uniform id o where
  slot := h.slot
  pass k p hp := by
    rw [(stage_enter_resting (Stage.pass?_of_open? hp)).2] at hp
    exact h.pass k p hp
  unmarked := h.unmarked
  redeletes ho k p written ids hstage := by
    have hp : ((v.enter n .resting).stage k).pass? = some p := by rw [hstage]; rfl
    rw [(stage_enter_resting hp).2] at hstage
    exact h.redeletes ho k p written ids hstage

/-- An entry that no batch has is removed from the cache. -/
theorem remove (hs : v.Sound) (hfree : ∀ b ∈ v.contents.batches, id ∉ b.ids) :
    View.Uniform { v with contents := v.contents.remove id } id none where
  slot d hd hid := absurd hid ((Contents.mem_slots_remove hs.slots).1 hd).2
  pass n p hp d hd hid := by
    obtain ⟨b, hb, -, hids⟩ := hs.batch n p hp
    refine absurd ?_ (hfree b hb)
    rw [hids]
    exact Pass.mem_ids.2 ⟨d, hd, hid⟩
  unmarked ho := absurd rfl ho
  redeletes ho := absurd rfl ho

end View.Uniform

/-- A record that is kept, and whose slot is gone, is the only one. -/
theorem View.Kept.uniform {r : Record} {version first : Nat} (h : v.Kept id r version first)
    (hgone : ∀ d ∈ v.contents.slots.candidates, d.slot.id ≠ id) : v.Uniform id (some r) where
  slot d hd hid := absurd hid (hgone d hd)
  pass n p hp d hd hid := by
    have hpass := Stage.pass?_of_open? hp
    rw [h.current.newer n p hpass ((h.dropped hgone).2 n p hpass) d hd hid]
  unmarked _ := h.current.unmarked
  redeletes _ n p written ids hstage hid := by
    have hlt := h.current.redeletes n p written ids hstage hid
    exact Nat.not_le_of_gt hlt ((h.dropped hgone).2 n p (by rw [hstage]; rfl))

/-! ## Settled views -/

/-- The backend stores what everything else under an address has. -/
structure View.Settled (v : View) (id : EntryId) (o : Option Record) : Prop where
  uniform : v.Uniform id o
  stored : v.stored id = o

namespace View.Settled

theorem move (h : v.Settled id o) (hs : v.Sound) (hm : Move g v e v')
    (hown : ∀ call, e ≠ .own call) (he : e.concerns g.config id = false) : v'.Settled id o where
  uniform := h.uniform.move hs hm he
  stored := by
    cases hm.stores hown id with
    | same hsame => exact hsame.trans h.stored
    | saved n p d hstage hd hid hrecord =>
        rw [hrecord, h.uniform.pass n p (by rw [hstage]; rfl) d hd hid]
    | deleted n p written ids hstage hid hnone =>
        rw [hnone]
        by_contra ho
        exact h.uniform.redeletes (Ne.symm ho) n p written ids hstage hid

end View.Settled

/-! ## What a view holds -/

/-- What was brought to an address by the cache: a record that was admitted, or nothing. -/
def View.Told (v : View) (id : EntryId) : Option Record → Prop
  | some r => ∃ version first, v.Kept id r version first
  | none => v.Uniform id none

/-- What was brought to an address by the cache, and by the backend as well if it is nothing. -/
def View.Holds (v : View) (id : EntryId) : Option Record → Prop
  | some r => ∃ version first, v.Kept id r version first
  | none => v.Settled id none

namespace View

theorem Holds.told (h : v.Holds id o) : v.Told id o := by
  cases o with
  | some r => exact h
  | none => exact h.uniform

/-- A record that is taken is told. -/
theorem Told.of_offer (hs : v.Sound) {key : Key} {record : Record}
    (htakes : g.config.takes record = true) (hm : Move g v (.offer key record) v') :
    v'.Told (record.idAt key) (some record) := by
  cases hm with
  | accept => exact ⟨_, _, .of_accept hs key record⟩
  | refuse _ _ hrefused =>
      rw [htakes] at hrefused
      cases hrefused

/-- A slot has the record. -/
theorem Told.slot (h : v.Told id o) {d : Candidate} (hd : d ∈ v.contents.slots.candidates)
    (hid : d.slot.id = id) : o = some d.slot.record := by
  cases o with
  | some r =>
      obtain ⟨version, first, hk⟩ := h
      rw [(hk.current.slot d hd hid).2]
  | none => exact h.slot d hd hid

/-- Where nothing is cached, what is held is settled. -/
theorem Holds.settled (h : v.Holds id o)
    (hgone : ∀ d ∈ v.contents.slots.candidates, d.slot.id ≠ id) : v.Settled id o := by
  cases o with
  | some r =>
      obtain ⟨version, first, hk⟩ := h
      exact ⟨hk.uniform hgone, (hk.dropped hgone).1⟩
  | none => exact h

/-- What was told is held, if nothing is stored where nothing is to be. -/
theorem Told.holds (h : v.Told id o) (hstored : o = none → v.stored id = none) : v.Holds id o := by
  cases o with
  | some r => exact h
  | none => exact ⟨h, hstored rfl⟩

end View

/-! ## Steps and courses of a view -/

variable {g : WithCallers.CallerSystem} {E E' : Event Empty → Prop}

/-- A program goes on, or an event happens. -/
inductive View.Step (g : WithCallers.CallerSystem) (E : Event Empty → Prop)
    (v v' : View) : Prop where
  | proceeds (hp : v.Proceeds g v')
  | move {e : Event Empty} (he : E e) (hm : Move g.jobSystem v e v')

namespace View.Step

theorem sound (h : View.Step g E v v') (hs : v.Sound) : v'.Sound := by
  cases h with
  | proceeds hp => exact hp.sound hs
  | move he hm => exact hm.sound hs

theorem imp (h : View.Step g E v v') (hE : ∀ e, E e → E' e) : View.Step g E' v v' := by
  cases h with
  | proceeds hp => exact .proceeds hp
  | move he hm => exact .move (hE _ he) hm

theorem uniform (h : View.Step g (Event.Spares g.config id o) v v') (hs : v.Sound)
    (hu : v.Uniform id o) : v'.Uniform id o := by
  cases h with
  | proceeds hp =>
      cases hp with
      | advance hm => exact hu.move hs hm rfl
      | answer hm => exact hu.move hs hm rfl
      | lapse n p written hstage hpart => exact (hu.congr _ v.calls).rest n
      | empty n hopen hslots =>
          have hclear : View.Uniform { v with contents := v.contents.clear } id o :=
            ⟨fun d hd => (List.not_mem_nil hd).elim, hu.pass, hu.unmarked, hu.redeletes⟩
          exact hclear.rest n
  | move he hm =>
      rcases he.cases with ⟨hconcerns, -⟩ | ⟨key, record, rfl, hid, ho⟩ | ⟨call, rfl, -⟩
      · exact hu.move hs hm hconcerns
      · cases hm with
        | accept => exact hu.put hs hid ho
        | refuse => exact hu
      · exact hu.move hs hm rfl

theorem settled (h : View.Step g (Event.Spares g.config id o) v v') (hs : v.Sound)
    (hv : v.Settled id o) : v'.Settled id o := by
  refine ⟨h.uniform hs hv.uniform, ?_⟩
  cases h with
  | proceeds hp =>
      cases hp with
      | advance hm => exact (hv.move hs hm (by simp) rfl).stored
      | answer hm => exact (hv.move hs hm (by simp) rfl).stored
      | @lapse n p written ids part hstage hpart =>
          show v.stored.apply (.deleteBatch part) id = o
          rw [Records.deleteBatch_apply]
          split
          next hid =>
            by_contra ho
            exact hv.uniform.redeletes (Ne.symm ho) n p written ids hstage (hpart hid)
          next => exact hv.stored
      | empty => exact hv.stored
  | move he hm =>
      rcases he.cases with ⟨hconcerns, hown⟩ | ⟨key, record, rfl, -⟩ | ⟨call, rfl, hcall⟩
      · exact (hv.move hs hm hown hconcerns).stored
      · cases hm with
        | accept => exact hv.stored
        | refuse => exact hv.stored
      · cases hm
        rcases hcall v.stored with hsame | ho
        · exact hsame.trans hv.stored
        · exact ho

/-- A record that is kept stays kept, or is admitted once more. -/
theorem kept {r : Record} (h : View.Step g (Event.Spares g.config id (some r)) v v')
    (hs : v.Sound) (hserial : v.Serial) (hv : ∃ version first, v.Kept id r version first) :
    ∃ version first, v'.Kept id r version first := by
  obtain ⟨version, first, hk⟩ := hv
  cases h with
  | proceeds hp => exact ⟨version, first, hk.proceeds hs hserial hp⟩
  | move he hm =>
      rcases he.cases with ⟨hconcerns, hown⟩ | ⟨key, record, rfl, hid, ho⟩ | ⟨call, rfl, hcall⟩
      · exact ⟨version, first, hk.move hs hserial hm hown hconcerns⟩
      · cases ho
        cases hm with
        | accept =>
            rw [← hid]
            exact ⟨_, _, .of_accept hs key r⟩
        | refuse => exact ⟨version, first, hk⟩
      · cases hm
        exact ⟨version, first, hk.own (hcall v.stored)⟩

theorem told (h : View.Step g (Event.Spares g.config id o) v v') (hs : v.Sound)
    (hserial : v.Serial) (hv : v.Told id o) : v'.Told id o := by
  cases o with
  | some r => exact h.kept hs hserial hv
  | none => exact h.uniform hs hv

theorem holds (h : View.Step g (Event.Spares g.config id o) v v') (hs : v.Sound)
    (hserial : v.Serial) (hv : v.Holds id o) : v'.Holds id o := by
  cases o with
  | some r => exact h.kept hs hserial hv
  | none => exact h.settled hs hv

end View.Step

/-- Steps of a view, one after the other, while one pass is under way at most. -/
inductive View.Course (g : WithCallers.CallerSystem) (E : Event Empty → Prop) :
    View → View → Prop where
  | refl (v : View) : Course g E v v
  | step {v v' v'' : View} (hserial : v.Serial) (h : View.Step g E v v')
      (hrest : Course g E v' v'') : Course g E v v''

namespace View.Course

theorem single (hserial : v.Serial) (h : View.Step g E v v') : View.Course g E v v' :=
  .step hserial h (.refl v')

/-- What every step keeps holds after a course. -/
theorem keeps (h : View.Course g E v v') {P : View → Prop} (hs : v.Sound)
    (hstep : ∀ v v', v.Sound → v.Serial → View.Step g E v v' → P v → P v') (hv : P v) :
    v'.Sound ∧ P v' := by
  induction h with
  | refl => exact ⟨hs, hv⟩
  | step hserial h _ ih => exact ih (h.sound hs) (hstep _ _ hs hserial h hv)

theorem sound (h : View.Course g E v v') (hs : v.Sound) : v'.Sound :=
  (h.keeps (P := fun _ => True) hs (fun _ _ _ _ _ _ => trivial) trivial).1

theorem imp (h : View.Course g E v v') (hE : ∀ e, E e → E' e) : View.Course g E' v v' := by
  induction h with
  | refl v => exact .refl v
  | step hserial h _ ih => exact .step hserial (h.imp hE) ih

variable (h : View.Course g (Event.Spares g.config id o) v v') (hs : v.Sound)
include h hs

theorem told (hv : v.Told id o) : v'.Told id o :=
  (h.keeps hs (fun _ _ hs hserial hstep => hstep.told hs hserial) hv).2

theorem holds (hv : v.Holds id o) : v'.Holds id o :=
  (h.keeps hs (fun _ _ hs hserial hstep => hstep.holds hs hserial) hv).2

theorem settled (hv : v.Settled id o) : v'.Settled id o :=
  (h.keeps hs (fun _ _ hs _ hstep => hstep.settled hs) hv).2

end View.Course

namespace WithCallers

variable {s : WithCallers} {d d' : Duty} {k k' : Closing}

/-! ## What the backend stores -/

theorem stored_call (s : WithCallers) (call : Call) : (g.step s (.call call)).stored
    = s.stored := by
  simp only [CallerSystem.step]
  split <;> rfl

/-- A program that goes on without the backend leaves it as it is. -/
theorem stored_of_go (g : CallerSystem) (s : WithCallers) (party : Party) (now : Nat) :
    (g.step s (.go party now)).stored = s.stored := by
  cases party with
  | worker =>
      simp only [CallerSystem.step, goWorker]
      split
      · rfl
      · rfl
      · split <;> rfl
  | caller n =>
      simp only [CallerSystem.step, goCaller]
      split
      · split <;> rfl
      · rfl

theorem stored_of_take (g : CallerSystem) (s : WithCallers) (e : Worker.Event Task) (now : Nat) :
    (g.step s (.take e now)).stored = s.stored := by
  simp only [CallerSystem.step, WithCallers.take]
  split
  · split <;> rfl
  · rfl

/-- The backend deals with what a party waits for. -/
theorem stored_of_answer (g : CallerSystem) (s : WithCallers) (party : Party) (verdict : Verdict) :
    (g.step s (.answer party verdict)).stored
      = (s.waitsFor? party).elim s.stored (verdict.carryOut s.stored) := by
  cases party with
  | worker =>
      simp only [CallerSystem.step, answerWorker, waitsFor?]
      split
      next hw => rw [hw]; rfl
      next hnone =>
        rw [pending?_eq_none hnone]
        rfl
  | caller n =>
      simp only [CallerSystem.step, answerCaller, waitsFor?]
      split
      next hc => rw [hc]; rfl
      next hnone =>
        cases hc : s.callers[n]? with
        | none => rfl
        | some c =>
            rw [Option.bind_some, pending?_eq_none fun call next hp => ?_]
            · rfl
            · obtain ⟨errand, program⟩ := c
              exact hnone errand call next (hp ▸ hc)

/-! ## Views of a cache with callers -/

/-- Whether an event is about the cache alone, and no program goes on by it. -/
def Event.isCached : Event → Bool
  | .offer _ _ | .call _ => true
  | _ => false

theorem Event.isProgram_of_isCached {e : Event} (h : e.isCached = true) : e.isProgram = false := by
  cases e with
  | offer | call => rfl
  | _ => cases h

/-- What an event does that no program does. -/
def Event.move? : Event → Option (Cache.Event Empty)
  | .offer key record => some (.offer key record)
  | .call (.delete kind key) => some (.delete ⟨kind, key⟩)
  | .call (.clear kind) => some (.clear kind)
  | .own c => some (.own c)
  | _ => none

/-- The contents of the cache, with some records behind it and some stages of programs. -/
def viewWith (s : WithCallers) (stored : Records) (calls : List (Option Nat × Call))
    (stage : Nat → Stage) : View where
  contents := s.running.cache.contents
  stored
  calls
  stage

section

variable (s) (stored : Records) (calls : List (Option Nat × Call)) (stage : Nat → Stage)

/-- A call that admits nothing is answered. -/
theorem step_call (call : Call) :
    View.Step g (fun e => (Event.call call).move? = some e) (s.viewWith stored calls stage)
      ((g.step s (.call call)).viewWith stored calls stage) := by
  simp only [CallerSystem.step]
  split
  next hcall =>
    rcases contents_perform s.running hcall with ⟨kind, key, rfl, hcontents⟩ |
      ⟨kind, rfl, hcontents⟩ | ⟨-, hcontents⟩
    · refine .move rfl ?_
      simp only [WithCallers.call, viewWith, hcontents]
      exact .delete ⟨kind, key⟩
    · refine .move rfl ?_
      simp only [WithCallers.call, viewWith, hcontents]
      exact .clear kind
    · refine .proceeds ?_
      simp only [WithCallers.call, viewWith, hcontents]
      exact .refl _
  next => exact .proceeds (.refl _)

/-- A record is offered to the cache, and taken only if the cache is not closed. -/
theorem step_offer (hexcluded : s.running.cache.excluded = g.config.excludedKinds) (key : Key)
    (record : Record) :
    s.running.cache.closed = true ∧
        (s.offer key record).viewWith stored calls stage = s.viewWith stored calls stage ∨
      s.running.cache.closed = false ∧
        Move g.jobSystem (s.viewWith stored calls stage) (.offer key record)
          ((s.offer key record).viewWith stored calls stage) := by
  have haccepts := accepts_eq hexcluded record
  rcases Running.offer_cases s.running.cache key record with ⟨ha, hr⟩ | ⟨ha, hr⟩
  · rw [haccepts, Bool.and_eq_true, Bool.not_eq_true'] at ha
    refine Or.inr ⟨ha.2, ?_⟩
    simp only [WithCallers.offer, Running.receive, viewWith, hr]
    exact .accept key record ha.1
  · have hsame :
        (s.offer key record).viewWith stored calls stage = s.viewWith stored calls stage := by
      simp only [WithCallers.offer, Running.receive, viewWith, hr]
    cases hclosed : s.running.cache.closed with
    | true => exact Or.inl ⟨rfl, hsame⟩
    | false =>
        rw [haccepts, hclosed, Bool.not_false, Bool.and_true] at ha
        exact Or.inr ⟨rfl, hsame ▸ .refuse key record ha⟩

end

namespace Watched

theorem step_offer (h : Watched g s d k) (key : Key) (record : Record)
    (calls : List (Option Nat × Call)) :
    s.running.cache.closed = true ∧ (s.offer key record).view d k calls = s.view d k calls ∨
      s.running.cache.closed = false ∧
        Move g.jobSystem (s.view d k calls) (.offer key record)
          ((s.offer key record).view d k calls) :=
  s.step_offer s.stored calls (stages d k) h.running.sound.excluded key record

/-- The view after an event that is not of a program. -/
theorem step_direct (h : Watched g s d k) {e : Event} (he : e.isProgram = false)
    (calls : List (Option Nat × Call)) : Watched g (g.step s e) d k ∧
      ∃ calls', View.Step g (fun e' => e.move? = some e') (s.view d k calls)
        ((g.step s e).view d k calls') := by
  cases e with
  | offer key record =>
      refine ⟨h.offer key record, calls, ?_⟩
      rcases h.step_offer key record calls with ⟨-, hsame⟩ | ⟨-, hm⟩
      · exact .proceeds (hsame ▸ .refl _)
      · exact .move rfl hm
  | call call =>
      refine ⟨?_, calls, ?_⟩
      · simp only [CallerSystem.step]
        split
        next hcall => exact h.withRunning (h.running.perform hcall) _ _
        next => exact h
      · rw [view, view, stored_call]
        exact s.step_call s.stored calls (stages d k) call
  | own call =>
      exact ⟨h.withRunning h.running s.admitted (s.stored.apply call), _, .move rfl (.own call)⟩
  | begin | go | take | answer => cases he

/-- The view after several such events. -/
theorem run_direct (h : Watched g s d k) {events : List Event}
    (hevents : ∀ e ∈ events, e.isProgram = false) (calls : List (Option Nat × Call)) :
    Watched g (run g.step s events) d k ∧
      ∃ calls', View.Course g (fun e' => ∃ e ∈ events, e.move? = some e') (s.view d k calls)
        ((run g.step s events).view d k calls') := by
  induction events generalizing s calls with
  | nil => exact ⟨h, calls, .refl _⟩
  | cons e events ih =>
      obtain ⟨hwatched, calls', hstep⟩ := h.step_direct (hevents e List.mem_cons_self) calls
      obtain ⟨hrun, calls'', hcourse⟩ :=
        ih hwatched (fun e he => hevents e (List.mem_cons_of_mem _ he)) calls'
      refine ⟨hrun, calls'', .step (h.running.serial _ _ _) (hstep.imp fun e' he' => ?_)
        (hcourse.imp fun e' he' => ?_)⟩
      · exact ⟨e, List.mem_cons_self, he'⟩
      · obtain ⟨x, hx, hmove⟩ := he'
        exact ⟨x, List.mem_cons_of_mem _ hx, hmove⟩

/-- The view after an event of a program. -/
theorem step_program (h : Watched g s d k) {e : Event} (hreserved : s.Reserved e)
    (he : e.isProgram = true) (calls : List (Option Nat × Call)) : ∃ d' k' calls',
      Watched g (g.step s e) d' k' ∧
        (s.view d k calls).Proceeds g ((g.step s e).view d' k' calls') := by
  obtain ⟨d', k', hl⟩ := h.step hreserved
  obtain ⟨calls', hp⟩ := (hl.proceeds he).2 calls
  exact ⟨d', k', calls', hl.watched, hp⟩

/-- Callers that all came to shut the cache down or to request a pass leave the writing to the one
that shuts the cache down. -/
theorem reserved_of_shutdown (h : Watched g s d k)
    (hcallers : ∀ c ∈ s.callers, c.errand = .shutdown ∨ c.Requests)
    {e : Event} (hown : ∀ call, e ≠ .own call) : s.Reserved e := by
  cases e with
  | own call => exact absurd rfl (hown call)
  | go party now =>
      cases party with
      | worker => trivial
      | caller n =>
          refine or_iff_not_imp_left.2 fun hn => ?_
          cases hc : s.callers[n]? with
          | none => simp only [beginsBatch, hc]
          | some c =>
              rcases hcallers c (List.mem_of_getElem? hc) with hshutdown | hrequests
              case inr =>
                obtain ⟨errand, program⟩ := c
                cases program with
                | done a => simp only [beginsBatch, hc]
                | ask q next =>
                    simp only [beginsBatch, hc]
                    have hq := hrequests.isNotice
                    cases q <;> first | rfl | cases hq
              cases h.others n c hc hn with
              | errand herrand => exact absurd hshutdown herrand
              | @shutdown program k₀ hk hobeys =>
                  cases program with
                  | done a => simp only [beginsBatch, hc]
                  | ask q next =>
                      obtain ⟨state, hasks, -⟩ := hobeys
                      obtain rfl := hasks.eq_close hk
                      simp only [beginsBatch, hc]
                      rfl
  | offer | call | begin | take | answer => trivial

end Watched

end WithCallers

end Cache

end RecordStore
