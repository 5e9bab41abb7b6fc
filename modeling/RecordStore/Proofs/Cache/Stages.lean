import RecordStore.Proofs.Cache.Agreement

/-!
# The stages of the worker and of the callers

Any number of callers may come to a cache, and each may have a pass under way beside that of the
worker.  Every party keeps to its routine, so it has a stage at every time (`WithCallers.Staged`).
The parties are numbered: the worker is the first, and the callers follow in the order in which they
came.

A party goes on in one of two ways.  Without the backend it does a step of its pass to the contents
of the cache (`Contents.Goes`).  At an answer of the backend it gets to another stage, and the cache
stays as it is (`Stage.Hears`).  What the backend does is not said here: it may store records, or be
a cache itself.
-/

namespace RecordStore

namespace Cache

open Service (Prog)

variable {g : WithCallers.CallerSystem} {st st' : Stage} {r r' : Running}
    {k : Closing} {q : Request}

/-! ## Steps of a party -/

/-- What a party does to the contents without the backend, and to which stage it gets. -/
inductive Contents.Goes (c : Contents) : Stage → Contents → Stage → Prop where
  /-- It does nothing to them. -/
  | aside (st : Stage) : Goes c st c st
  | look {candidates : List Candidate} (hsub : candidates.Sublist c.slots.candidates) :
      Goes c .resting (c.begin (candidates.map (·.slot))).2 (.saving ⟨c.nextBatch, candidates⟩)
  | finish {p : Pass} {written : Bool} {st : Stage} (hend : Stage.Ends p written st)
      (hclean : (c.finish p.batch).1 = []) :
      Goes c (.finishing p written) (c.finish p.batch).2 st
  | finishMarked {p : Pass} {written : Bool} (hmarked : (c.finish p.batch).1 ≠ []) :
      Goes c (.finishing p written) (c.finish p.batch).2
        (.deleting p written (c.finish p.batch).1)
  | drop (p : Pass) (capacity : Nat) :
      Goes c (.dropping p) ((c.dropAllWritten p.candidates).2.rebuild capacity) .resting
  /-- The cache is emptied, and what was left in it is written. -/
  | empty {st : Stage} (hopen : st.open? = none) (hcall : st.call? = none)
      (hslots : ∀ d ∈ c.slots.candidates, ∃ p, st = .dropping p ∧ d ∈ p.candidates) :
      Goes c st c.clear .resting

namespace Contents.Goes

variable {c c' : Contents}

/-- No slots come. -/
theorem mem_slots (h : c.Goes st c' st') {d : Candidate} (hd : d ∈ c'.slots.candidates) :
    d ∈ c.slots.candidates := by
  cases h with
  | drop p capacity =>
      rw [slots_rebuild] at hd
      exact (mem_slots_dropAllWritten.1 hd).1
  | empty => cases hd
  | aside | look | finish | finishMarked => exact hd

/-- The view of the contents makes a move, or the cache is emptied. -/
theorem cases_move {v : View} {n : Nat} (h : v.contents.Goes (v.stage n) c' st') :
    Move g.jobSystem v (.advance n 0) (View.enter { v with contents := c' } n st') ∨
      c' = v.contents.clear ∧ st' = .resting ∧ (v.stage n).open? = none ∧
        (v.stage n).call? = none ∧
        ∀ d ∈ v.contents.slots.candidates, ∃ p, v.stage n = .dropping p ∧ d ∈ p.candidates := by
  generalize hstage : v.stage n = st at h
  cases h with
  | aside =>
      have hsame : View.enter { v with contents := v.contents } n st' = v := View.enter_self hstage
      rw [hsame]
      exact Or.inl (.aside n 0)
  | look hsub => exact Or.inl (.look n 0 _ hstage hsub)
  | @finish p written st' hend hclean => exact Or.inl (.finish n 0 p written st' hstage hend hclean)
  | @finishMarked p written hmarked => exact Or.inl (.finishMarked n 0 p written hstage hmarked)
  | drop p capacity => exact Or.inl (.drop n 0 p capacity hstage)
  | empty hopen hcall hslots => exact Or.inr ⟨rfl, rfl, hopen, hcall, hslots⟩

/-- The view of the contents goes on. -/
theorem proceeds {v : View} {n : Nat} (h : v.contents.Goes (v.stage n) c' st') :
    v.Proceeds g (View.enter { v with contents := c' } n st') := by
  rcases h.cases_move (g := g) with hm | ⟨rfl, rfl, hopen, -, hslots⟩
  · exact .advance hm
  · exact .empty n hopen hslots

end Contents.Goes

/-- To which stage a party gets when the backend has dealt with the call that it waits for. -/
inductive Stage.Hears : Stage → (call : Call) → call.Outcome → Stage → Prop where
  | save (p : Pass) (a : Except Failure Bool) :
      Hears (.saving p) (.saveBatch p.entries) a (.finishing p (isAccepted a))
  | redelete {p : Pass} {written : Bool} (ids : List EntryId) {st : Stage}
      (hend : Stage.Ends p written st) :
      Hears (.deleting p written ids) (.deleteBatch ids) (.ok ()) st
  /-- The pass is given up. -/
  | lapse (p : Pass) (written : Bool) (ids : List EntryId) (e : Failure) :
      Hears (.deleting p written ids) (.deleteBatch ids) (.error e) .resting

namespace Stage.Hears

variable {call : Call} {a : call.Outcome}

/-- A batch is ended by the cache and not by the backend. -/
theorem open?_eq (h : Stage.Hears st call a st') : st'.open? = st.open? := by
  cases h with
  | save => rfl
  | redelete ids hend => cases hend <;> rfl
  | lapse => rfl

theorem pass?_of_some (h : Stage.Hears st call a st') {p : Pass} (hp : st'.pass? = some p) :
    st.pass? = some p := by
  cases h with
  | save => exact hp
  | redelete ids hend =>
      cases hend with
      | rest => cases hp
      | drop => exact hp
  | lapse => cases hp

end Stage.Hears

/-! ## Caches that close -/

/-- As long as a cache is closed, it stays so and gets no slots. -/
structure Running.Ebbs (r r' : Running) : Prop where
  closed : r.cache.closed = true → r'.cache.closed = true
  slots : r.cache.closed = true →
    ∀ d ∈ r'.cache.contents.slots.candidates, d ∈ r.cache.contents.slots.candidates

/-- What a shutdown knows of the cache that it has closed. -/
structure Running.Closes (r : Running) (k : Closing) : Prop where
  closed : k.isUnder = true → r.cache.closed = true
  /-- Its pass has all slots. -/
  slots : ∀ p, k.stage.pass? = some p →
    ∀ d ∈ r.cache.contents.slots.candidates, d ∈ p.candidates
  bare : k.isBare = true → ∀ d, d ∉ r.cache.contents.slots.candidates

theorem Closing.isUnder_of_pass? {p : Pass} (h : k.stage.pass? = some p) : k.isUnder = true := by
  refine isUnder_of_hasJoined (hasJoined_of_hasLooked (hasLooked_of_stage fun hk => ?_))
  rw [hk] at h
  cases h

theorem Closing.isUnder_of_isBare (h : k.isBare = true) : k.isUnder = true := by
  cases k with
  | emptying p => rfl
  | succeeded => rfl
  | _ => cases h

namespace Running

namespace Ebbs

theorem refl (r : Running) : r.Ebbs r := ⟨fun h => h, fun _ _ hd => hd⟩

theorem trans {r'' : Running} (h : r.Ebbs r') (h' : r'.Ebbs r'') : r.Ebbs r'' where
  closed hclosed := h'.closed (h.closed hclosed)
  slots hclosed d hd := h.slots hclosed d (h'.slots (h.closed hclosed) d hd)

theorem of_cache (h : r'.cache = r.cache) : r.Ebbs r' := by
  refine ⟨fun hclosed => ?_, fun _ d hd => ?_⟩
  · rw [h]
    exact hclosed
  · rw [h] at hd
    exact hd

theorem of_wanes (h : r.Wanes r') : r.Ebbs r' :=
  ⟨fun hclosed => h.closed.trans hclosed, fun _ => h.slots⟩

theorem receive (r : Running) (key : Key) (record : Record) : r.Ebbs (r.receive key record).2 := by
  refine ⟨fun hclosed => (receive_of_closed hclosed key record).2.2, fun hclosed d hd => ?_⟩
  rw [(receive_of_closed hclosed key record).2.1] at hd
  exact hd

theorem saveBatch (r : Running) (entries : List Entry) :
    r.Ebbs (r.perform (.saveBatch entries)).2 := by
  induction entries generalizing r with
  | nil => exact .refl r
  | cons e entries ih => exact (Ebbs.receive r e.1 e.2).trans (ih (r.receive e.1 e.2).2)

theorem deleteBatch (hs : r.cache.contents.slots.Sound) (ids : List EntryId) :
    r.Ebbs (r.perform (.deleteBatch ids)).2 := by
  induction ids generalizing r with
  | nil => exact .refl r
  | cons id ids ih =>
      have hdelete : r.Ebbs { r with cache := r.cache.delete id } := .of_wanes (.remove hs id)
      refine hdelete.trans (ih ?_)
      show (r.cache.contents.remove id).slots.Sound
      rw [Contents.slots_remove]
      exact hs.remove id

end Ebbs

/-- A call only takes slots away from a closed cache. -/
theorem Ebbs.perform (hs : r.cache.contents.slots.Sound) (call : Call) :
    r.Ebbs (r.perform call).2 := by
  by_cases hplain : WithCallers.isPlain call = true ∧ call ≠ .init
  · exact .of_wanes (.perform hs hplain.1 hplain.2)
  · cases call with
    | init => exact .of_cache (cache_start r)
    | save record key | update record key _ => exact .receive r key record
    | saveBatch entries => exact .saveBatch r entries
    | deleteBatch ids => exact .deleteBatch hs ids
    | shutdown => exact .refl r
    | _ => exact absurd ⟨rfl, by simp⟩ hplain

/-- No request opens a cache again. -/
theorem closed_reply? (hs : r.cache.contents.slots.Sound) (caller now : Nat) (q : Request)
    (h : r.cache.closed = true) : (r.reply? caller now q).2.cache.closed = true := by
  have haside : q.isAside = true → (r.reply? caller now q).2.cache.closed = true := by
    intro hq
    rw [(r.reply?_of_isAside caller now hq).2.2]
    exact h
  have hbegin : ∀ candidates, (r.cache.beginPass candidates).2.closed = true := by
    intro candidates
    simp only [Cache.beginPass]
    split <;> exact h
  cases q with
  | perform call => exact (Ebbs.perform hs call).closed h
  | receive key record => exact (receive_of_closed h key record).2.2
  | close => rfl
  | beginEviction =>
      simp only [reply?, Cache.beginEviction]
      split
      · exact hbegin _
      · exact h
  | beginFlush => exact hbegin _
  | finishBatch | dropWritten | empty | backend => exact h
  | _ => exact haside rfl

theorem Ebbs.of_goes (hs : r.cache.contents.slots.Sound) {caller now : Nat}
    {a : Reply q} (hr : r.reply? caller now q = (some a, r'))
    (hgoes : r.cache.contents.Goes st r'.cache.contents st') : r.Ebbs r' := by
  refine ⟨fun hclosed => ?_, fun _ d hd => hgoes.mem_slots hd⟩
  have h := closed_reply? hs caller now q hclosed
  rw [hr] at h
  exact h

namespace Closes

theorem arriving (r : Running) : r.Closes .arriving where
  closed h := by cases h
  slots p hp := by cases hp
  bare h := by cases h

theorem ebb (h : r.Closes k) (he : r.Ebbs r') : r'.Closes k where
  closed hunder := he.closed (h.closed hunder)
  slots p hp d hd := h.slots p hp d (he.slots (h.closed (Closing.isUnder_of_pass? hp)) d hd)
  bare hbare d hd := h.bare hbare d (he.slots (h.closed (Closing.isUnder_of_isBare hbare)) d hd)

/-- The shutdown goes on with its pass, or ends it. -/
theorem lead (h : r.Closes k) {k' : Closing} (hunder : k.isUnder = true)
    (hpass : ∀ p, k'.stage.pass? = some p → k.stage.pass? = some p) (hbare : k'.isBare = false) :
    r.Closes k' where
  closed _ := h.closed hunder
  slots p hp := h.slots p (hpass p hp)
  bare htrue := by
    rw [hbare] at htrue
    cases htrue

end Closes

end Running

/-! ## What routines ask -/

section

variable {σ : Type} {inside : Stage → σ} {after : Pass → σ} {gaveUp : σ} (stage : σ → Stage)
  {x : σ} (hinside : ∀ st, stage (inside st) = st)
  (hafter : ∀ p, Stage.Ends p true (stage (after p))) (hgaveUp : stage gaveUp = .resting)

include hafter hgaveUp

/-- A pass is over that has nothing to delete again. -/
theorem ends_of_written (p : Pass) (written : Bool) :
    Stage.Ends p written (stage (if written then after p else gaveUp)) := by
  cases written with
  | true => exact hafter p
  | false =>
      simp only [Bool.false_eq_true, if_false, hgaveUp]
      exact .rest

include hinside

theorem PassAsks.goes {state : Reply q → σ} (h : PassAsks inside after gaveUp x q state)
    {caller now : Nat} {a : Reply q} (hr : r.reply? caller now q = (some a, r')) :
    r.cache.contents.Goes (stage x) r'.cache.contents (stage (state a)) := by
  cases h with
  | save p => cases hr
  | delete p written ids => cases hr
  | finish p written =>
      cases hr
      rw [hinside]
      simp only [passMarked]
      split
      next hclean =>
        exact .finish (ends_of_written stage hafter hgaveUp p written) (List.isEmpty_iff.1 hclean)
      next hmarked =>
        rw [hinside]
        exact .finishMarked fun h => hmarked (List.isEmpty_iff.2 h)

theorem PassAsks.hears {call : Call} {state : Reply (.backend call) → σ}
    (h : PassAsks inside after gaveUp x (.backend call) state) (a : call.Outcome) :
    Stage.Hears (stage x) call a (stage (state a)) := by
  cases h with
  | save p =>
      rw [hinside, hinside]
      exact .save p a
  | delete p written ids =>
      rw [hinside]
      cases a with
      | error e =>
          have hend : stage (if written then passEnd after gaveUp p (.error e) else gaveUp)
              = .resting := by
            cases written <;> exact hgaveUp
          rw [hend]
          exact .lapse p written ids e
      | ok a => exact .redelete ids (ends_of_written stage hafter hgaveUp p written)

omit hafter hgaveUp in
/-- A pass that waits for the backend asks for nothing else. -/
theorem PassAsks.eq_backend {state : Reply q → σ} (h : PassAsks inside after gaveUp x q state)
    {p : Pass} {call : Call} (hcall : (stage x).call? = some (p, call)) : q = .backend call := by
  cases h with
  | save | delete =>
      rw [hinside] at hcall
      cases hcall
      rfl
  | finish =>
      rw [hinside] at hcall
      cases hcall

end

theorem goes_of_isAside {caller now : Nat} {a : Reply q} (hq : q.isAside = true)
    (hr : r.reply? caller now q = (some a, r')) (hst : st' = st) :
    r.cache.contents.Goes st r'.cache.contents st' := by
  have hcontents := (r.reply?_of_isAside caller now hq).1
  rw [hr] at hcontents
  rw [hcontents, hst]
  exact .aside st

/-- What comes of a look at what is to be evicted. -/
theorem goes_beginEviction {caller now : Nat} {a : Option Pass}
    (hr : r.reply? caller now .beginEviction = (some a, r')) :
    r.cache.contents.Goes .resting r'.cache.contents (Stage.ofLook a) := by
  rcases r.cache.beginEviction_cases with hc | ⟨candidates, hsub, hc⟩
  · simp only [Running.reply?, hc] at hr
    cases hr
    exact .aside .resting
  · simp only [Running.reply?, hc] at hr
    cases hr
    exact .look hsub

theorem goes_beginFlush {caller now : Nat} {a : Option Pass}
    (hr : r.reply? caller now .beginFlush = (some a, r')) :
    r.cache.contents.Goes .resting r'.cache.contents (Stage.ofLook a) := by
  rcases r.cache.beginFlush_cases with hc | hc
  · simp only [Running.reply?, hc] at hr
    cases hr
    exact .aside .resting
  · simp only [Running.reply?, hc] at hr
    cases hr
    exact .look (List.Sublist.refl _)

namespace Duty.Asks

variable {d : Duty} {state : Reply q → Duty}

theorem goes (hasks : Duty.Asks d q state) {caller now : Nat} {a : Reply q}
    (hr : r.reply? caller now q = (some a, r')) :
    r.cache.contents.Goes d.stage r'.cache.contents (state a).stage := by
  cases hasks with
  | begin | reply _ _ | fail | clear | finish => exact goes_of_isAside rfl hr rfl
  | next => exact goes_of_isAside rfl hr (Duty.stage_ofEvent a)
  | check =>
      refine goes_of_isAside rfl hr ?_
      cases a <;> rfl
  | look =>
      have hstage : (Duty.ofLook a).stage = Stage.ofLook a := by cases a <;> rfl
      rw [hstage]
      exact goes_beginEviction hr
  | pass hpass => exact hpass.goes Duty.stage (fun _ => rfl) (fun _ => .drop) rfl hr
  | drop p =>
      cases hr
      exact .drop p r.cache.maxSize

theorem hears {call : Call} {state : Reply (.backend call) → Duty}
    (hasks : Duty.Asks d (.backend call) state) (a : call.Outcome) :
    Stage.Hears d.stage call a (state a).stage := by
  cases hasks with
  | pass hpass => exact hpass.hears Duty.stage (fun _ => rfl) (fun _ => .drop) rfl a

theorem eq_backend (hasks : Duty.Asks d q state) {p : Pass} {call : Call}
    (hcall : d.stage.call? = some (p, call)) : q = .backend call := by
  cases hasks with
  | pass hpass => exact hpass.eq_backend Duty.stage (fun _ => rfl) hcall
  | _ => cases hcall

end Duty.Asks

namespace Stage.Asks

variable {state : Reply q → Stage}

theorem goes (hasks : Stage.Asks st q state) {caller now : Nat} {a : Reply q}
    (hr : r.reply? caller now q = (some a, r')) :
    r.cache.contents.Goes st r'.cache.contents (state a) := by
  cases hasks with
  | aside hq =>
      have haside : q.isAside = true := by
        cases q with
        | noteRequest | queueRequest | withdrawRequest | isClosed | isAttached | newTicket | submit
        | await | failEviction => rfl
        | _ => cases hq
      exact goes_of_isAside haside hr rfl
  | evict => exact goes_beginEviction hr
  | flush => exact goes_beginFlush hr
  | pass hafter hpass =>
      refine hpass.goes id (fun _ => rfl) (fun p => ?_) rfl hr
      rcases hafter with rfl | rfl
      · exact .drop
      · exact .rest
  | drop p =>
      cases hr
      exact .drop p r.cache.maxSize

theorem hears {call : Call} {state : Reply (.backend call) → Stage}
    (hasks : Stage.Asks st (.backend call) state) (a : call.Outcome) :
    Stage.Hears st call a (state a) := by
  cases hasks with
  | aside hq => cases hq
  | pass hafter hpass =>
      refine hpass.hears id (fun _ => rfl) (fun p => ?_) rfl a
      rcases hafter with rfl | rfl
      · exact .drop
      · exact .rest

theorem eq_backend (hasks : Stage.Asks st q state) {p : Pass} {call : Call}
    (hcall : st.call? = some (p, call)) : q = .backend call := by
  cases hasks with
  | pass hafter hpass => exact hpass.eq_backend id (fun _ => rfl) hcall
  | _ => cases hcall

end Stage.Asks

namespace Closing.Asks

variable {state : Reply q → Closing}

theorem goes (hasks : Closing.Asks k q state) (h : r.Closes k) {caller now : Nat} {a : Reply q}
    (hr : r.reply? caller now q = (some a, r')) :
    r.cache.contents.Goes k.stage r'.cache.contents (state a).stage := by
  cases hasks with
  | close =>
      cases hr
      cases r.cache.closed <;> exact .aside .resting
  | detach =>
      refine goes_of_isAside rfl hr ?_
      cases a <;> rfl
  | join => exact goes_of_isAside rfl hr rfl
  | look =>
      have hstage : (Closing.ofLook a).stage = Stage.ofLook a := by cases a <;> rfl
      rw [hstage]
      exact goes_beginFlush hr
  | pass hpass => exact hpass.goes Closing.stage (fun _ => rfl) (fun _ => .drop) rfl hr
  | empty p =>
      cases hr
      cases p with
      | none => exact .empty rfl rfl fun d hd => absurd hd (h.bare rfl d)
      | some p => exact .empty rfl rfl fun d hd => ⟨p, rfl, h.slots p rfl d hd⟩

theorem hears {call : Call} {state : Reply (.backend call) → Closing}
    (hasks : Closing.Asks k (.backend call) state) (a : call.Outcome) :
    Stage.Hears k.stage call a (state a).stage := by
  cases hasks with
  | pass hpass => exact hpass.hears Closing.stage (fun _ => rfl) (fun _ => .drop) rfl a

theorem eq_backend (hasks : Closing.Asks k q state) {p : Pass} {call : Call}
    (hcall : k.stage.call? = some (p, call)) : q = .backend call := by
  cases hasks with
  | pass hpass => exact hpass.eq_backend Closing.stage (fun _ => rfl) hcall
  | empty o => cases o <;> cases hcall
  | _ => cases hcall

/-- What a shutdown knows of the cache stays true when it goes on. -/
theorem closes (hasks : Closing.Asks k q state) (h : r.Closes k) (hebbs : r.Ebbs r')
    {caller now : Nat} {a : Reply q} (hr : r.reply? caller now q = (some a, r')) :
    r'.Closes (state a) := by
  have h' := h.ebb hebbs
  cases hasks with
  | close =>
      cases hr
      refine ⟨fun _ => rfl, fun p hp => ?_, fun hbare => ?_⟩
      · cases hclosed : r.cache.closed <;> rw [hclosed] at hp <;> cases hp
      · cases hclosed : r.cache.closed <;> rw [hclosed] at hbare <;> cases hbare
  | detach =>
      cases a with
      | true => exact h'.lead rfl (fun p hp => by cases hp) rfl
      | false => exact h'.lead rfl (fun p hp => by cases hp) rfl
  | join => exact h'.lead rfl (fun p hp => by cases hp) rfl
  | look =>
      have hclosed : r'.cache.closed = true := hebbs.closed (h.closed rfl)
      simp only [Running.reply?, Cache.beginFlush, Cache.beginPass] at hr
      split at hr
      next hnil =>
        cases hr
        refine ⟨fun _ => hclosed, fun p hp => (by cases hp), fun _ d hd => ?_⟩
        rw [List.isEmpty_iff.1 hnil] at hd
        cases hd
      next =>
        cases hr
        refine ⟨fun _ => hclosed, fun p hp d hd => ?_, fun hbare => by cases hbare⟩
        cases hp
        exact hd
  | pass hpass =>
      cases hpass with
      | save | delete => cases hr
      | finish p written =>
          simp only [passMarked]
          split
          · split
            · exact h'.lead rfl (fun q hq => hq) rfl
            · exact h'.lead rfl (fun q hq => by cases hq) rfl
          · exact h'.lead rfl (fun q hq => hq) rfl
  | empty p =>
      cases hr
      refine ⟨fun _ => h.closed rfl, fun p hp => (by cases hp), fun _ d hd => ?_⟩
      cases hd

/-- A shutdown goes on with its pass at an answer of the backend. -/
theorem closes_answer {call : Call} {state : Reply (.backend call) → Closing}
    (hasks : Closing.Asks k (.backend call) state) (h : r.Closes k) (a : call.Outcome) :
    r.Closes (state a) := by
  have hhears := hasks.hears a
  cases hasks with
  | pass hpass =>
      refine h.lead ?_ (fun p => hhears.pass?_of_some) ?_
      · cases hpass <;> rfl
      · exact after_pass (P := fun k => k.isBare = false) hpass a (fun _ _ => rfl) (fun _ => rfl)
          rfl

end Closing.Asks

/-! ## Stages of everybody -/

/-- The stage of a caller that keeps to its routine. -/
inductive Caller.AtStage (r : Running) : Caller → Stage → Prop where
  | errand {errand : Errand} {program : Prog errand.Answer} {st : Stage}
      (herrand : errand ≠ .shutdown)
      (h : program.Obeys Stage.Asks (fun st _ => st = .resting) st) : AtStage r ⟨errand, program⟩ st
  | shutdown {program : Prog (Errand.Answer .shutdown)} {k : Closing} (hk : r.Closes k)
      (h : program.Obeys Closing.Asks Closing.Ends k) : AtStage r ⟨.shutdown, program⟩ k.stage

namespace Caller.AtStage

theorem program (r : Running) (backendName : String) (errand : Errand) :
    Caller.AtStage r ⟨errand, errand.program backendName⟩ .resting := by
  by_cases h : errand = .shutdown
  · subst h
    exact .shutdown (.arriving r) (Service.obeys_shutdown backendName)
  · exact .errand h (Errand.obeys_program backendName h)

theorem ebb {c : Caller} (h : c.AtStage r st) (he : r.Ebbs r') : c.AtStage r' st := by
  cases h with
  | errand herrand h => exact .errand herrand h
  | shutdown hk h => exact .shutdown (hk.ebb he) h

variable {errand : Errand}

/-- A caller gets a reply of the cache. -/
theorem reply {next : Reply q → Prog errand.Answer}
    (h : Caller.AtStage r ⟨errand, .ask q next⟩ st) (hs : r.cache.contents.slots.Sound)
    {caller now : Nat} {a : Reply q} (hr : r.reply? caller now q = (some a, r')) :
    ∃ st', r.cache.contents.Goes st r'.cache.contents st' ∧
      Caller.AtStage r' ⟨errand, next a⟩ st' := by
  cases h with
  | errand herrand hobeys =>
      obtain ⟨state, hasks, hnext⟩ := hobeys
      exact ⟨state a, hasks.goes hr, .errand herrand (hnext a)⟩
  | shutdown hk hobeys =>
      obtain ⟨state, hasks, hnext⟩ := hobeys
      have hgoes := hasks.goes hk hr
      have hebbs : r.Ebbs r' := .of_goes hs hr hgoes
      exact ⟨(state a).stage, hgoes, .shutdown (hasks.closes hk hebbs hr) (hnext a)⟩

/-- A caller gets an answer of the backend. -/
theorem answer {call : Call} {next : call.Outcome → Prog errand.Answer}
    (h : Caller.AtStage r ⟨errand, .ask (.backend call) next⟩ st) (a : call.Outcome) :
    ∃ st', Stage.Hears st call a st' ∧ Caller.AtStage r ⟨errand, next a⟩ st' := by
  cases h with
  | errand herrand hobeys =>
      obtain ⟨state, hasks, hnext⟩ := hobeys
      exact ⟨state a, hasks.hears a, .errand herrand (hnext a)⟩
  | shutdown hk hobeys =>
      obtain ⟨state, hasks, hnext⟩ := hobeys
      exact ⟨(state a).stage, hasks.hears a, .shutdown (hasks.closes_answer hk a) (hnext a)⟩

/-- A caller whose stage waits for the backend does so. -/
theorem pending?_eq {c : Caller} (h : c.AtStage r st) {p : Pass} {call : Call}
    (hcall : st.call? = some (p, call)) : WithCallers.pending? c.program = some call := by
  cases h with
  | @errand errand program st herrand hobeys =>
      cases program with
      | done a =>
          rw [show st = .resting from hobeys] at hcall
          cases hcall
      | ask q next =>
          obtain ⟨state, hasks, -⟩ := hobeys
          obtain rfl := hasks.eq_backend hcall
          rfl
  | @shutdown program k hk hobeys =>
      cases program with
      | done a => cases hobeys <;> cases hcall
      | ask q next =>
          obtain ⟨state, hasks, -⟩ := hobeys
          obtain rfl := hasks.eq_backend hcall
          rfl

end Caller.AtStage

/-- The number of a party. -/
def Party.number : Party → Nat
  | .worker => 0
  | .caller n => n + 1

namespace WithCallers

variable {s : WithCallers} {stage : Nat → Stage}

/-- The cache is sound, and every party has a stage. -/
structure Staged (g : CallerSystem) (s : WithCallers) (stage : Nat → Stage) : Prop where
  sound : s.running.cache.Sound g.config
  worker : ∃ d, s.worker.Obeys Duty.Asks Duty.Ends d ∧ d.stage = stage 0
  callers : ∀ (n : Nat) c, s.callers[n]? = some c → c.AtStage s.running (stage (n + 1))
  /-- Callers that have not come have no pass. -/
  resting : ∀ n, s.callers.length ≤ n → stage (n + 1) = .resting

/-- What is told to the cache by an event has the view make a move, or nothing happens. -/
inductive Tells (g : CallerSystem) (s : WithCallers) (e : Event) (v : View) : View → Prop where
  | aside (hadmits : ∀ id, s.admits id e = false) (hremoves : ∀ id, e.removes id = false) :
      Tells g s e v v
  | move {e' : Cache.Event Empty} {v' : View} (hmove : e.move? = some e')
      (hm : Move g.jobSystem v e' v') (hown : ∀ call, e' ≠ .own call)
      (hadmits : ∀ id, s.admits id e = e'.admits g.config id) : Tells g s e v v'

theorem Event.removes_of_move? {e : Event} {e' : Cache.Event Empty} (h : e.move? = some e')
    (id : EntryId) : e.removes id = e'.removes id := by
  cases e with
  | call call => cases call <;> cases h <;> rfl
  | offer | own => cases h; rfl
  | begin | go | take | answer => cases h

namespace Tells

variable {e : Event} {v v' : View} {id : EntryId} (h : Tells g s e v v') (hs : v.Sound)
include h hs

theorem sound : v'.Sound := by
  cases h with
  | aside => exact hs
  | move hmove hm => exact hm.sound hs

/-- What is told to be removed is removed. -/
theorem removed_of_removes (he : e.removes id = true) : v'.Removed id := by
  cases h with
  | aside hadmits hremoves =>
      rw [hremoves] at he
      cases he
  | move hmove hm => exact .of_removes hs hm ((Event.removes_of_move? hmove id).symm.trans he)

end Tells

/-- A worker that takes up an event leaves the cache as it is. -/
theorem cache_take (g : CallerSystem) (s : WithCallers) (e : Worker.Event Task) (now : Nat) :
    (g.step s (.take e now)).running.cache = s.running.cache := by
  simp only [CallerSystem.step, WithCallers.take]
  split
  · split <;> rfl
  · rfl

/-- A party goes on when the backend has dealt with the call that it waits for. -/
def hear (s : WithCallers) (party : Party) (reply : (call : Call) → call.Outcome) : WithCallers :=
  match party with
  | .worker =>
      match s.worker with
      | .ask (.backend call) next =>
          { s with
            worker := next (reply call)
            handed := s.handOver .worker (next (reply call)) }
      | _ => s
  | .caller n =>
      match s.callers[n]? with
      | some ⟨errand, .ask (.backend call) next⟩ =>
          { s with
            callers := s.callers.set n ⟨errand, next (reply call)⟩
            handed := s.handOver (.caller n) (next (reply call)) }
      | _ => s

/-- An answer is what the backend does, and what the party hears. -/
theorem step_answer (g : CallerSystem) (s : WithCallers) (party : Party) (verdict : Verdict) :
    g.step s (.answer party verdict) = { s.hear party verdict.outcome with
      stored := (s.waitsFor? party).elim s.stored (verdict.carryOut s.stored) } := by
  rw [← stored_of_answer g s party verdict]
  cases party with
  | worker =>
      obtain ⟨running, stored, worker, callers, closer, handed, admitted⟩ := s
      cases worker with
      | done a => rfl
      | ask q next => cases q <;> rfl
  | caller n =>
      cases hc : s.callers[n]? with
      | none => simp only [CallerSystem.step, answerCaller, hear, hc]
      | some c =>
          obtain ⟨errand, program⟩ := c
          cases program with
          | done a => simp only [CallerSystem.step, answerCaller, hear, hc]
          | ask q next => cases q <;> simp only [CallerSystem.step, answerCaller, hear, hc]

namespace Staged

theorem start (g : CallerSystem) : Staged g g.start fun _ => .resting where
  sound := sound_ofConfig g.config
  worker := ⟨.fresh, Service.obeys_setOut, rfl⟩
  callers n c hc := by cases hc
  resting _ _ := rfl

variable (h : s.Staged g stage)
include h

/-- A change of the cache alone. -/
theorem withRunning {running : Running} (hsound : running.cache.Sound g.config)
    (hebbs : s.running.Ebbs running) (admitted stored : Records) :
    Staged g { s with running, admitted, stored } stage where
  sound := hsound
  worker := h.worker
  callers n c hc := (h.callers n c hc).ebb hebbs
  resting := h.resting

/-- The worker gets to another duty. -/
theorem withWorker {running : Running} (hsound : running.cache.Sound g.config)
    (hebbs : s.running.Ebbs running) {worker : Prog Bool} {d : Duty}
    (hworker : worker.Obeys Duty.Asks Duty.Ends d) (handed : List (Party × Call)) :
    Staged g { s with running, worker, handed } (Function.update stage 0 d.stage) where
  sound := hsound
  worker := ⟨d, hworker, by rw [Function.update_self]⟩
  callers n c hc := by
    rw [Function.update_of_ne (Nat.succ_ne_zero n)]
    exact (h.callers n c hc).ebb hebbs
  resting n hn := by
    rw [Function.update_of_ne (Nat.succ_ne_zero n)]
    exact h.resting n hn

/-- A caller gets to another stage. -/
theorem withCaller {running : Running} (hsound : running.cache.Sound g.config)
    (hebbs : s.running.Ebbs running) {n : Nat} {c c' : Caller} (hc : s.callers[n]? = some c)
    (hstage : c'.AtStage running st') (closer : Option Nat) (handed : List (Party × Call)) :
    Staged g { s with running, callers := s.callers.set n c', closer, handed }
      (Function.update stage (n + 1) st') where
  sound := hsound
  worker := by
    rw [Function.update_of_ne (Nat.succ_ne_zero n).symm]
    exact h.worker
  callers m c₀ hm := by
    rcases getElem?_set_cases hm with ⟨rfl, rfl⟩ | ⟨hne, hold⟩
    · rw [Function.update_self]
      exact hstage
    · rw [Function.update_of_ne fun heq => hne (Nat.succ.inj heq)]
      exact (h.callers m c₀ hold).ebb hebbs
  resting m hm := by
    have hm : s.callers.length ≤ m := Nat.le_trans (Nat.le_of_eq List.length_set.symm) hm
    have hn := (List.getElem?_eq_some_iff.1 hc).1
    rw [Function.update_of_ne (by omega)]
    exact h.resting m hm

/-- Callers come. -/
theorem withNewcomers {newcomers : List Caller}
    (hnew : ∀ c ∈ newcomers, c.AtStage s.running .resting) :
    Staged g { s with callers := s.callers ++ newcomers } stage where
  sound := h.sound
  worker := h.worker
  callers n c hc := by
    have hc : (s.callers ++ newcomers)[n]? = some c := hc
    rw [List.getElem?_append] at hc
    split at hc
    · exact h.callers n c hc
    next hn =>
      rw [h.resting n (Nat.le_of_not_lt hn)]
      exact hnew c (List.mem_of_getElem? hc)
  resting n hn := by
    have hn : (s.callers ++ newcomers).length ≤ n := hn
    rw [List.length_append] at hn
    exact h.resting n (by omega)

theorem begin (errand : Errand) : (g.step s (.begin errand)).Staged g stage := by
  refine h.withNewcomers fun c hc => ?_
  rw [List.mem_singleton.1 hc]
  exact .program s.running g.backendName errand

/-- A record is offered, and whoever offers it may stay. -/
theorem offer (key : Key) (record : Record) : (s.offer key record).Staged g stage := by
  have hsound : (s.running.receive key record).2.cache.Sound g.config := h.sound.offer key record
  refine (h.withRunning hsound (.receive _ key record) _ s.stored).withNewcomers fun c hc => ?_
  rw [s.eq_of_mem_requester hc]
  exact .program _ g.backendName .requestPass

/-- What is offered is admitted unless it is not taken or the cache is closed. -/
theorem receive_fst (key : Key) (record : Record) : (s.running.receive key record).1.1
    = (g.config.takes record && !s.running.cache.closed) := by
  rw [← accepts_eq h.sound.excluded]
  show (s.running.cache.offer key record).1 = _
  rcases Running.offer_cases s.running.cache key record with ⟨ha, hr⟩ | ⟨ha, hr⟩ <;> rw [ha, hr]

/-- The cache is told something, and nobody goes on. -/
theorem told {e : Event} (he : e.isCached = true) (stored : Records)
    (calls : List (Option Nat × Call)) : (g.step s e).Staged g stage ∧
      Tells g s e (s.viewWith stored calls stage) ((g.step s e).viewWith stored calls stage) := by
  cases e with
  | offer key record =>
      refine ⟨h.offer key record, ?_⟩
      have hadmits : ∀ id, s.admits id (.offer key record) = (record.idAt key == id &&
          (g.config.takes record && !s.running.cache.closed)) := by
        intro id
        rw [admits, h.receive_fst]
      rcases s.step_offer stored calls stage h.sound.excluded key record with
        ⟨hclosed, hsame⟩ | ⟨hopen, hm⟩
      · rw [show (g.step s (.offer key record)).viewWith stored calls stage = _ from hsame]
        refine .aside (fun id => ?_) fun _ => rfl
        rw [hadmits, hclosed, Bool.not_true, Bool.and_false, Bool.and_false]
      · refine .move rfl hm (by simp) fun id => ?_
        rw [hadmits, hopen, Bool.not_false, Bool.and_true]
        rfl
  | call call =>
      have hadmits : ∀ id, s.admits id (.call call) = false := fun _ => rfl
      simp only [CallerSystem.step]
      split
      next hcall =>
        refine ⟨h.withRunning (Running.perform_sound h.sound call)
          (.perform h.sound.contents.slots call) _ _, ?_⟩
        rcases contents_perform s.running hcall with ⟨kind, key, rfl, hcontents⟩ |
          ⟨kind, rfl, hcontents⟩ | ⟨hnot, hcontents⟩
        · refine .move rfl ?_ (by simp) hadmits
          simp only [WithCallers.call, viewWith, hcontents]
          exact .delete ⟨kind, key⟩
        · refine .move rfl ?_ (by simp) hadmits
          simp only [WithCallers.call, viewWith, hcontents]
          exact .clear kind
        · simp only [WithCallers.call, viewWith, hcontents]
          refine .aside hadmits fun id => ?_
          rw [Event.removes, hnot, Bool.and_false]
      next hcall =>
        refine ⟨h, .aside hadmits fun id => ?_⟩
        rw [Event.removes, Bool.eq_false_iff.2 hcall, Bool.false_and]
  | own | begin | go | take | answer => cases he

/-- A party does not go on, but the cache may have changed. -/
theorem waits {running : Running} (hcache : running.cache = s.running.cache) (n : Nat) : ∃ st',
    s.running.cache.contents.Goes (stage n) running.cache.contents st' ∧
      Staged g { s with running } (Function.update stage n st') := by
  refine ⟨stage n, ?_, ?_⟩
  · rw [hcache]
    exact .aside _
  · rw [Function.update_eq_self]
    refine h.withRunning ?_ (.of_cache hcache) s.admitted s.stored
    rw [hcache]
    exact h.sound

/-- A party goes on without the backend. -/
theorem go (party : Party) (now : Nat) : ∃ st',
    s.running.cache.contents.Goes (stage party.number)
        (g.step s (.go party now)).running.cache.contents st' ∧
      (g.step s (.go party now)).Staged g (Function.update stage party.number st') := by
  cases party with
  | worker =>
      obtain ⟨d, hobeys, hd⟩ := h.worker
      simp only [CallerSystem.step, goWorker, Party.number]
      split
      next hw =>
        rw [hw] at hobeys
        cases hobeys
        refine ⟨.resting, ?_, h.withWorker h.sound (.refl _) (Service.obeys_work _) _⟩
        rw [← hd]
        exact .aside _
      next => exact h.waits rfl 0
      next q next hw =>
        rw [hw] at hobeys
        obtain ⟨state, hasks, hnext⟩ := hobeys
        split
        next a running hr =>
          have hgoes := hasks.goes hr
          have hsound := Running.reply?_sound h.sound 0 now q
          rw [hr] at hsound
          have hebbs : s.running.Ebbs running := .of_goes h.sound.contents.slots hr hgoes
          refine ⟨(state a).stage, ?_, h.withWorker hsound hebbs (hnext a) _⟩
          rw [← hd]
          exact hgoes
        next running hr => exact h.waits (Running.cache_of_wait hr) 0
  | caller n =>
      simp only [CallerSystem.step, goCaller, Party.number]
      split
      next errand q next hc =>
        split
        next a running hr =>
          obtain ⟨st', hgoes, hstage⟩ := (h.callers n _ hc).reply h.sound.contents.slots hr
          have hsound := Running.reply?_sound h.sound (n + 1) now q
          rw [hr] at hsound
          have hebbs : s.running.Ebbs running := .of_goes h.sound.contents.slots hr hgoes
          exact ⟨st', hgoes, h.withCaller hsound hebbs hc hstage _ _⟩
        next running hr => exact h.waits (Running.cache_of_wait hr) (n + 1)
      next => exact h.waits rfl (n + 1)

/-- The worker takes up an event, and has no pass then. -/
theorem take (e : Worker.Event Task) (now : Nat) : (s.take e now).Staged g stage := by
  obtain ⟨d, hobeys, hd⟩ := h.worker
  simp only [WithCallers.take]
  split
  next next w hworker hw =>
    rw [hworker] at hobeys
    obtain ⟨state, hasks, hnext⟩ := hobeys
    split
    next =>
      cases hasks with
      | pass hpass => cases hpass
      | next =>
          have hsound : ({ s.running with worker := some (w.take now e) } : Running).cache.Sound
              g.config := h.sound
          have hebbs : s.running.Ebbs { s.running with worker := some (w.take now e) } :=
            .of_cache rfl
          have hrest : Function.update stage 0 (Duty.ofEvent e).stage = stage := by
            rw [Duty.stage_ofEvent, ← show stage 0 = .resting from hd.symm, Function.update_eq_self]
          rw [← hrest]
          exact h.withWorker hsound hebbs (hnext e) _
    next => exact h
  next => exact h

/-- A party goes on at an answer of the backend. -/
theorem hear {party : Party} {call : Call} (hcall : s.waitsFor? party = some call)
    (reply : (call : Call) → call.Outcome) : ∃ st',
      Stage.Hears (stage party.number) call (reply call) st' ∧
        (s.hear party reply).Staged g (Function.update stage party.number st') := by
  cases party with
  | worker =>
      obtain ⟨d, hobeys, hd⟩ := h.worker
      obtain ⟨next, hw⟩ := pending?_eq_some hcall
      rw [hw] at hobeys
      obtain ⟨state, hasks, hnext⟩ := hobeys
      simp only [WithCallers.hear, hw, Party.number]
      refine ⟨(state (reply call)).stage, ?_, h.withWorker h.sound (.refl _) (hnext _) _⟩
      rw [← hd]
      exact hasks.hears (reply call)
  | caller n =>
      obtain ⟨c, hc, hpending⟩ := Option.bind_eq_some_iff.1 hcall
      obtain ⟨errand, program⟩ := c
      obtain ⟨next, hprogram⟩ := pending?_eq_some hpending
      have hc : s.callers[n]? = some ⟨errand, .ask (.backend call) next⟩ := hprogram ▸ hc
      obtain ⟨st', hhears, hstage⟩ := (h.callers n _ hc).answer (reply call)
      simp only [WithCallers.hear, hc, Party.number]
      exact ⟨st', hhears, h.withCaller h.sound (.refl _) hc hstage _ _⟩

/-- A party whose stage waits for the backend does so. -/
theorem exists_waitsFor? {n : Nat} {p : Pass} {call : Call}
    (hcall : (stage n).call? = some (p, call)) :
    ∃ party : Party, party.number = n ∧ s.waitsFor? party = some call := by
  cases n with
  | zero =>
      obtain ⟨d, hobeys, hd⟩ := h.worker
      rw [← hd] at hcall
      refine ⟨.worker, rfl, ?_⟩
      rw [waitsFor?]
      cases hw : s.worker with
      | done a =>
          rw [hw] at hobeys
          cases hobeys <;> cases hcall
      | ask q next =>
          rw [hw] at hobeys
          obtain ⟨state, hasks, -⟩ := hobeys
          obtain rfl := hasks.eq_backend hcall
          rfl
  | succ n =>
      refine ⟨.caller n, rfl, ?_⟩
      cases hc : s.callers[n]? with
      | none =>
          rw [h.resting n (List.getElem?_eq_none_iff.1 hc)] at hcall
          cases hcall
      | some c =>
          rw [waitsFor?, hc, Option.bind_some]
          exact (h.callers n c hc).pending?_eq hcall

end Staged

theorem hear_of_none {party : Party} (h : s.waitsFor? party = none)
    (reply : (call : Call) → call.Outcome) : s.hear party reply = s := by
  cases party with
  | worker =>
      simp only [hear]
      split
      next hw =>
        rw [waitsFor?, hw] at h
        cases h
      next => rfl
  | caller n =>
      simp only [hear]
      split
      next hc =>
        rw [waitsFor?, hc] at h
        cases h
      next => rfl

theorem running_hear (s : WithCallers) (party : Party) (reply : (call : Call) → call.Outcome) :
    (s.hear party reply).running = s.running := by
  cases party with
  | worker =>
      simp only [hear]
      split <;> rfl
  | caller n =>
      simp only [hear]
      split <;> rfl

end WithCallers

end Cache

end RecordStore
