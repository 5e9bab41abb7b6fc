import RecordStore.Proofs.Cache.Beside
import RecordStore.Proofs.Cache.Eviction
import RecordStore.Proofs.Cache.Marks

/-!
# Passes that fail leave no trace

A pass fails when its batch is refused or fails, or when the entries that were deleted meanwhile are
not deleted from the backend again.  It has registered its batch by then, and others may have used
the cache at any time since.

Two runs are compared: one in which somebody runs the pass among the requests of others
(`Visit.step`), and one with the requests of the others alone (`Running.heedAll`).  While the pass
goes on, the caches of the two runs differ in nothing but its batch and the number that it used up
(`PassState.At`).  When the pass has failed, the batch is gone as well, and an eviction that failed
is counted (`failed_pass_leaves_no_trace`).
-/

namespace RecordStore

namespace Cache

open Service (Prog)

/-- An eviction begins a pass over some slots, or over none. -/
theorem beginEviction_eq_beginPass (c : Cache) :
    ∃ candidates, c.beginEviction = c.beginPass candidates := by
  simp only [beginEviction]
  split
  · exact ⟨_, rfl⟩
  · exact ⟨[], rfl⟩

/-! ## The routine of one pass -/

/-- The kinds of passes. -/
inductive PassKind where
  /-- The oldest entries are written and dropped. -/
  | eviction
  /-- All entries are written and stay. -/
  | flush

/-- Where a program is that runs one pass. -/
inductive PassState where
  | looking
  | saving (p : Pass)
  /-- The write has a result, and the batch is to be ended. -/
  | finishing (p : Pass) (written : Except Failure Unit)
  /-- The batch has ended, and addresses are to be deleted again. -/
  | deleting (p : Pass) (written : Except Failure Unit) (ids : List EntryId)
  /-- The failure is to be counted. -/
  | blaming (p : Pass) (cause : Failure)
  | dropping (p : Pass)
  | ended (result : Except Error Nat)

namespace PassKind

def program (name : String) : PassKind → Prog (Except Error Nat)
  | eviction => Service.evictOldest name
  | flush => Service.flushAll name

/-- The failed evictions that a failed pass is counted as. -/
def failures : PassKind → UInt64
  | eviction => 1
  | flush => 0

/-- Where a pass leads that has a result. -/
def outcome (p : Pass) : PassKind → Except Failure Unit → PassState
  | eviction, .ok () => .dropping p
  | eviction, .error cause => .blaming p cause
  | flush, .ok () => .ended (.ok p.size)
  | flush, .error cause => .ended (.error (.flush p.size cause))

end PassKind

namespace PassState

def ofLook : Option Pass → PassState
  | none => ended (.ok 0)
  | some p => saving p

/-- The result of a write that has an answer. -/
def written (name : String) : Except Failure Bool → Except Failure Unit
  | .error cause => .error cause
  | .ok accepted => if accepted then .ok () else .error (.batchRefused name)

/-- The result of a pass whose deletions have an answer.  Of two failures the first counts. -/
def redeleted : Except Failure Unit → Except Failure Unit → Except Failure Unit
  | .error cause, _ => .error cause
  | .ok (), answer => answer

/-- What a program asks that runs one pass. -/
inductive Asks (name : String) : PassKind → PassState → (q : Request) → (Reply q → PassState) →
    Prop where
  | evict : Asks name .eviction looking .beginEviction ofLook
  | flush : Asks name .flush looking .beginFlush ofLook
  | save {kind : PassKind} (p : Pass) : Asks name kind (saving p)
      (.backend (.saveBatch p.entries)) fun a => finishing p (written name a)
  | finish {kind : PassKind} (p : Pass) (result : Except Failure Unit) :
      Asks name kind (finishing p result) (.finishBatch p.batch)
        fun ids => if ids.isEmpty then kind.outcome p result else deleting p result ids
  | delete {kind : PassKind} (p : Pass) (result : Except Failure Unit) (ids : List EntryId) :
      Asks name kind (deleting p result ids) (.backend (.deleteBatch ids))
        fun a => kind.outcome p (redeleted result a)
  | blame (p : Pass) (cause : Failure) : Asks name .eviction (blaming p cause) .failEviction
      fun _ => ended (.error (.flush p.size cause))
  | drop (p : Pass) : Asks name .eviction (dropping p) (.dropWritten p.candidates)
      fun removed => ended (.ok removed)

/-- A program that has ended has the result of the pass. -/
inductive Ends : PassState → Except Error Nat → Prop where
  | ended (result : Except Error Nat) : Ends (ended result) result

theorem obeys_endWrite (name : String) (kind : PassKind) (p : Pass)
    (result : Except Failure Unit) :
    (Service.endWrite p result).Obeys (Asks name kind)
      (fun st result => st = kind.outcome p result) (finishing p result) := by
  refine ⟨_, .finish p result, fun ids => ?_⟩
  cases ids with
  | nil => exact rfl
  | cons id ids =>
      refine ⟨_, .delete p result (id :: ids), fun a => ?_⟩
      cases result <;> rfl

theorem obeys_writeBatch (name : String) (kind : PassKind) (p : Pass) :
    (Service.writeBatch name p).Obeys (Asks name kind)
      (fun st result => st = kind.outcome p result) (saving p) := by
  refine ⟨_, .save p, fun a => ?_⟩
  cases a with
  | error cause => exact obeys_endWrite name kind p (.error cause)
  | ok accepted => cases accepted <;> exact obeys_endWrite name kind p _

/-- A program that runs one pass keeps to the routine of the pass. -/
theorem obeys_program (name : String) (kind : PassKind) :
    (kind.program name).Obeys (Asks name kind) Ends looking := by
  cases kind with
  | eviction =>
      refine ⟨_, .evict, fun p => ?_⟩
      cases p with
      | none => exact .ended _
      | some p =>
          refine (obeys_writeBatch name .eviction p).bind fun st result hst => ?_
          subst hst
          cases result with
          | error cause => exact ⟨_, .blame p cause, fun _ => .ended _⟩
          | ok a => exact ⟨_, .drop p, fun _ => .ended _⟩
  | flush =>
      refine ⟨_, .flush, fun p => ?_⟩
      cases p with
      | none => exact .ended _
      | some p =>
          refine (obeys_writeBatch name .flush p).bind fun st result hst => ?_
          subst hst
          cases result <;> exact .ended _

end PassState

/-! ## A pass among the requests of others -/

/-- A cache on which somebody runs a pass.  Two notes are kept that nothing depends on. -/
structure Visit where
  program : Prog (Except Error Nat)
  running : Running
  /-- The pass, once it has begun. -/
  pass : Option Pass := none
  /-- Whether the backend refused or failed a call of the pass. -/
  failed : Bool := false

namespace Visit

inductive Event where
  /-- Somebody else makes a request. -/
  | other (caller now : Nat) (q : Request)
  /-- The program goes on with a request that is not for the backend. -/
  | go (now : Nat)
  /-- The backend deals with the call that the program waits for. -/
  | answer (verdict : Verdict)

/-- What is noted of the pass after a reply. -/
def noted (pass : Option Pass) : (q : Request) → Reply q → Option Pass
  | .beginEviction, some p | .beginFlush, some p => some p
  | _, _ => pass

/-- Whether an answer of the backend says that a call was refused or failed. -/
def isFailure : (call : Call) → call.Outcome → Bool
  | _, .error _ => true
  | .saveBatch _, .ok accepted => !accepted
  | _, .ok _ => false

def step (v : Visit) : Event → Visit
  | .other caller now q => { v with running := (v.running.reply? caller now q).2 }
  | .go now =>
      match v.program with
      | .done _ => v
      | .ask q next =>
          match v.running.reply? 0 now q with
          | (some a, running) => { v with running, program := next a, pass := noted v.pass q a }
          | (none, running) => { v with running }
  | .answer verdict =>
      match v.program with
      | .ask (.backend call) next =>
          { v with
            program := next (verdict.outcome call)
            failed := v.failed || isFailure call (verdict.outcome call) }
      | _ => v

/-- The result of the pass, once it has ended. -/
def result? (v : Visit) : Option (Except Error Nat) :=
  match v.program with
  | .done result => some result
  | .ask _ _ => none

/-- Whether an event lets the batch of a number alone, and begins no other. -/
def Event.isBeside (number : Nat) : Event → Bool
  | .other _ _ .beginEviction | .other _ _ .beginFlush => false
  | .other _ _ (.finishBatch n) => n != number
  | _ => true

end Visit

/-- Somebody is about to run a pass on a cache. -/
def PassKind.visit (kind : PassKind) (name : String) (r : Running) : Visit where
  program := kind.program name
  running := r

/-- The cache after the request of somebody else. -/
def Running.heed (r : Running) : Visit.Event → Running
  | .other caller now q => (r.reply? caller now q).2
  | _ => r

/-- The cache after the requests of others alone. -/
def Running.heedAll (r : Running) (events : List Visit.Event) : Running := events.foldl heed r

/-- The cache with one more number of a batch used up, and with more failed evictions counted. -/
def Running.afterFailure (r : Running) (failures : UInt64) : Running :=
  { r with cache := r.cache.burdened r.cache.contents.batches failures }

/-- A cache that is sound, whose batches have numbers of their own below the next one. -/
structure Running.Steady (config : Config) (n : Nat) (r : Running) : Prop where
  sound : r.cache.Sound config
  numbered : r.cache.contents.Numbered
  nextBatch_eq : r.cache.contents.nextBatch = n

/-- Where a program is that runs one pass, beside a cache with the requests of others alone. -/
inductive PassState.At (kind : PassKind) (n : Nat) (r : Running) (v : Visit) :
    PassState → Prop where
  | looking (hrunning : v.running = r) (hfailed : v.failed = false) : At kind n r v looking
  | saving {p : Pass} (hp : v.pass = some p) (hn : p.batch = n) (hfailed : v.failed = false)
      (h : v.running.Beside (· != n) 0 r) : At kind n r v (saving p)
  | finishing {p : Pass} {written : Except Failure Unit} (hp : v.pass = some p) (hn : p.batch = n)
      (hfailed : v.failed = !written.toBool) (h : v.running.Beside (· != n) 0 r) :
      At kind n r v (finishing p written)
  | deleting {p : Pass} {written : Except Failure Unit} {ids : List EntryId}
      (hp : v.pass = some p) (hn : p.batch = n) (hfailed : v.failed = !written.toBool)
      (h : v.running.Beside (fun _ => true) 0 r) : At kind n r v (deleting p written ids)
  | blaming {p : Pass} {cause : Failure} (hp : v.pass = some p) (hn : p.batch = n)
      (h : v.running.Beside (fun _ => true) 0 r) : At kind n r v (blaming p cause)
  | dropping {p : Pass} (hfailed : v.failed = false) : At kind n r v (dropping p)
  | succeeded {result : Except Error Nat} (hfailed : v.failed = false) :
      At kind n r v (ended result)
  | failed {p : Pass} {cause : Failure} (hp : v.pass = some p) (hn : p.batch = n)
      (h : v.running.Beside (fun _ => true) kind.failures r) :
      At kind n r v (ended (.error (.flush p.size cause)))

namespace Visit

variable {config : Config} {kind : PassKind} {n : Nat} {r : Running} {v : Visit} {st : PassState}
  {name : String}

theorem isBeside_other {caller now : Nat} {q : Request}
    (h : (Event.other caller now q).isBeside n = true) :
    q ≠ .beginEviction ∧ q ≠ .beginFlush ∧ ∀ number, q = .finishBatch number → number ≠ n := by
  refine ⟨?_, ?_, ?_⟩
  · rintro rfl
    cases h
  · rintro rfl
    cases h
  · rintro number rfl
    exact bne_iff_ne.1 h

theorem steady_heed (h : r.Steady config n) {e : Event} (he : e.isBeside n = true) :
    (r.heed e).Steady config n := by
  cases e with
  | other caller now q =>
      obtain ⟨heviction, hflush, -⟩ := isBeside_other he
      refine ⟨Running.reply?_sound h.sound caller now q, ?_, ?_⟩
      · rcases Running.reply?_tends h.sound caller now q with ht | ht
        · exact ht.numbered h.numbered
        · exact ht.numbered h.numbered
      · exact (r.nextBatch_reply? caller now heviction hflush).trans h.nextBatch_eq
  | go | answer => exact h

/-- Others make a request, and the program stays where it is. -/
theorem at_other (h : st.At kind n r v) {caller now : Nat} {q : Request}
    (he : (Event.other caller now q).isBeside n = true) :
    st.At kind n (r.reply? caller now q).2
      { v with running := (v.running.reply? caller now q).2 } := by
  obtain ⟨heviction, hflush, hfinish⟩ := isBeside_other he
  have hopen : ∀ {failures}, v.running.Beside (· != n) failures r →
      (v.running.reply? caller now q).2.Beside (· != n) failures (r.reply? caller now q).2 :=
    fun h => (h.reply? caller now heviction hflush fun m hm => bne_iff_ne.2 (hfinish m hm)).2
  have hgone : ∀ {failures}, v.running.Beside (fun _ => true) failures r →
      (v.running.reply? caller now q).2.Beside (fun _ => true) failures
        (r.reply? caller now q).2 :=
    fun h => (h.reply? caller now heviction hflush fun _ _ => rfl).2
  cases h with
  | looking hrunning hfailed => exact .looking (by rw [hrunning]) hfailed
  | saving hp hn hfailed h => exact .saving hp hn hfailed (hopen h)
  | finishing hp hn hfailed h => exact .finishing hp hn hfailed (hopen h)
  | deleting hp hn hfailed h => exact .deleting hp hn hfailed (hgone h)
  | blaming hp hn h => exact .blaming hp hn (hgone h)
  | dropping hfailed => exact .dropping hfailed
  | succeeded hfailed => exact .succeeded hfailed
  | failed hp hn h => exact .failed hp hn (hgone h)

/-- A pass has a result. -/
theorem at_outcome {p : Pass} {result : Except Failure Unit} (hp : v.pass = some p)
    (hn : p.batch = n) (hfailed : v.failed = !result.toBool)
    (h : v.running.Beside (fun _ => true) 0 r) : (kind.outcome p result).At kind n r v := by
  cases kind with
  | eviction =>
      cases result with
      | ok => exact .dropping hfailed
      | error cause => exact .blaming hp hn h
  | flush =>
      cases result with
      | ok => exact .succeeded hfailed
      | error cause => exact .failed hp hn h

/-- An eviction that failed is counted. -/
theorem beside_blame {running : Running} (h : running.Beside (fun _ => true) 0 r) :
    Running.Beside (fun _ => true) 1 { running with cache := running.cache.failEviction } r := by
  obtain ⟨⟨batches, hcache, hfilter⟩, hrunning⟩ := h
  refine ⟨⟨batches, ?_, hfilter⟩, ?_⟩
  · simp only [hcache, Cache.failEviction, burdened, Counters.addFailedEviction, UInt64.add_zero]
  · rw [hrunning]

/-- A look at the cache finds nothing to do, or it begins a pass whose batch is beside those that
there are. -/
theorem at_look (hr : r.Steady config n) (h : PassState.looking.At kind n r v)
    {candidates : List Candidate} {o : Option Pass} {cache : Cache}
    (hlook : v.running.cache.beginPass candidates = (o, cache)) {pass : Option Pass}
    (hpass : ∀ p, o = some p → pass = some p) (program : Prog (Except Error Nat)) :
    (PassState.ofLook o).At kind n r
      { v with running := { v.running with cache }, program, pass } := by
  obtain ⟨rfl, hfailed⟩ : v.running = r ∧ v.failed = false := by
    cases h
    exact ⟨‹_›, ‹_›⟩
  have hnumber := hr.nextBatch_eq
  rcases v.running.cache.beginPass_cases candidates with heq | heq
  · cases heq.symm.trans hlook
    exact .succeeded hfailed
  · cases heq.symm.trans hlook
    refine .saving (hpass _ rfl) hnumber hfailed ?_
    refine ⟨⟨v.running.cache.contents.batches
      ++ [{ number := n, ids := (candidates.map (·.slot)).map Slot.id }], ?_, ?_⟩, rfl⟩
    · simp only [burdened, Contents.begin, Contents.burdened, hnumber, UInt64.add_zero]
    · rw [List.filter_append, List.filter_eq_self.2 fun b hb => ?_]
      · simp
      · exact bne_iff_ne.2 (Nat.ne_of_lt (hnumber ▸ hr.numbered.number_lt b hb))

/-- The batch of a pass ends. -/
theorem beside_finish {running : Running} (h : running.Beside (· != n) 0 r) :
    Running.Beside (fun _ => true) 0
      { running with cache := (running.cache.finishBatch n).2 } r := by
  obtain ⟨⟨batches, hcache, hfilter⟩, hrunning⟩ := h
  refine ⟨⟨batches.filter (fun b => b.number != n), ?_, ?_⟩, ?_⟩
  · rw [hcache]
    rfl
  · rw [List.filter_true, hfilter]
  · rw [hrunning]

theorem step_go_of_ask {q : Request} {next : Reply q → Prog (Except Error Nat)} {now : Nat}
    {a : Reply q} {running : Running} (hprogram : v.program = .ask q next)
    (hreply : v.running.reply? 0 now q = (some a, running)) :
    v.step (.go now) = { v with running, program := next a, pass := noted v.pass q a } := by
  simp only [step, hprogram, hreply]

/-- The program goes on without the backend. -/
theorem step_go (hr : r.Steady config n) (h : st.At kind n r v)
    (hobeys : v.program.Obeys (PassState.Asks name kind) PassState.Ends st) (now : Nat) :
    ∃ st', (v.step (.go now)).program.Obeys (PassState.Asks name kind) PassState.Ends st' ∧
      st'.At kind n r (v.step (.go now)) := by
  cases hprogram : v.program with
  | done a =>
      rw [hprogram] at hobeys
      refine ⟨st, ?_, ?_⟩ <;> simp only [step, hprogram]
      · exact hobeys
      · exact h
  | ask q next =>
      rw [hprogram] at hobeys
      obtain ⟨state, hasks, hnext⟩ := id hobeys
      cases hasks with
      | evict =>
          obtain ⟨candidates, hlook⟩ := v.running.cache.beginEviction_eq_beginPass
          rw [step_go_of_ask hprogram rfl]
          refine ⟨_, hnext _, at_look hr h hlook.symm (fun p hp => ?_) _⟩
          rw [hp]
          rfl
      | flush =>
          rw [step_go_of_ask hprogram rfl]
          refine ⟨_, hnext _, at_look hr h rfl (fun p hp => ?_) _⟩
          rw [hp]
          rfl
      | save | delete =>
          have hsame : v.step (.go now) = v := by
            simp only [step, hprogram, Running.reply?]
            rw [← hprogram]
          rw [hsame, hprogram]
          exact ⟨_, hobeys, h⟩
      | finish p result =>
          rw [step_go_of_ask hprogram rfl]
          refine ⟨_, hnext _, ?_⟩
          cases h with
          | finishing hp hn hfailed h =>
              subst hn
              simp only
              split
              · exact at_outcome hp rfl hfailed (beside_finish h)
              · exact .deleting hp rfl hfailed (beside_finish h)
      | blame p cause =>
          rw [step_go_of_ask hprogram rfl]
          refine ⟨_, hnext (), ?_⟩
          cases h with
          | blaming hp hn h => exact .failed hp hn (beside_blame h)
      | drop p =>
          rw [step_go_of_ask hprogram rfl]
          refine ⟨_, hnext _, ?_⟩
          cases h with
          | dropping hfailed => exact .succeeded hfailed

/-- The backend deals with a call of the pass. -/
theorem step_answer (h : st.At kind n r v)
    (hobeys : v.program.Obeys (PassState.Asks name kind) PassState.Ends st) (verdict : Verdict) :
    ∃ st', (v.step (.answer verdict)).program.Obeys (PassState.Asks name kind) PassState.Ends st' ∧
      st'.At kind n r (v.step (.answer verdict)) := by
  cases hpending : WithCallers.pending? v.program with
  | none =>
      have hsame : v.step (.answer verdict) = v := by
        simp only [step]
        split
        next hprogram =>
          rw [hprogram] at hpending
          cases hpending
        next => rfl
      rw [hsame]
      exact ⟨st, hobeys, h⟩
  | some call =>
      obtain ⟨next, hprogram⟩ := WithCallers.pending?_eq_some hpending
      have hstep : v.step (.answer verdict) = { v with
          program := next (verdict.outcome call)
          failed := v.failed || isFailure call (verdict.outcome call) } := by
        simp only [step, hprogram]
      rw [hprogram] at hobeys
      rw [hstep]
      generalize verdict.outcome call = a
      obtain ⟨state, hasks, hnext⟩ := hobeys
      refine ⟨_, hnext a, ?_⟩
      cases hasks with
      | save p =>
          cases h with
          | saving hp hn hfailed h =>
              refine .finishing hp hn ?_ h
              simp only [hfailed, Bool.false_or]
              cases a with
              | error cause => rfl
              | ok accepted => cases accepted <;> rfl
      | delete p result ids =>
          cases h with
          | deleting hp hn hfailed h =>
              refine at_outcome hp hn ?_ h
              simp only [hfailed]
              cases result with
              | error cause => rfl
              | ok => cases a <;> rfl

/-- Wherever the program is that runs the pass, an event leads it to another place. -/
theorem step_at (hr : r.Steady config n) (h : st.At kind n r v)
    (hobeys : v.program.Obeys (PassState.Asks name kind) PassState.Ends st) {e : Event}
    (he : e.isBeside n = true) :
    ∃ st', (v.step e).program.Obeys (PassState.Asks name kind) PassState.Ends st' ∧
      st'.At kind n (r.heed e) (v.step e) := by
  cases e with
  | other caller now q => exact ⟨st, hobeys, at_other h he⟩
  | go now => exact step_go hr h hobeys now
  | answer verdict => exact step_answer h hobeys verdict

theorem run_at {events : List Event} (hr : r.Steady config n) (h : st.At kind n r v)
    (hobeys : v.program.Obeys (PassState.Asks name kind) PassState.Ends st)
    (hbeside : ∀ e ∈ events, e.isBeside n = true) : (r.heedAll events).Steady config n ∧
      ∃ st', (run step v events).program.Obeys (PassState.Asks name kind) PassState.Ends st' ∧
        st'.At kind n (r.heedAll events) (run step v events) := by
  induction events generalizing r v st with
  | nil => exact ⟨hr, st, hobeys, h⟩
  | cons e events ih =>
      obtain ⟨he, hbeside⟩ := List.forall_mem_cons.1 hbeside
      obtain ⟨st', hobeys', h'⟩ := step_at hr h hobeys he
      exact ih (steady_heed hr he) h' hobeys' hbeside

end Visit

theorem Running.Beside.eq_afterFailure {failures : UInt64} {r r' : Running}
    (h : r.Beside (fun _ => true) failures r') : r = r'.afterFailure failures := by
  obtain ⟨⟨batches, hcache, hfilter⟩, hr⟩ := h
  rw [List.filter_true] at hfilter
  rw [hr, hcache, hfilter]
  rfl

/-- A pass that has failed, while others made any requests but to begin a pass or to end its batch,
leaves the cache as those requests alone would have left it.  Only a number of a batch is used up,
and an eviction is counted as failed.  Its batch is gone, and its error tells its size. -/
theorem failed_pass_leaves_no_trace (g : WithCallers.CallerSystem) (past : List WithCallers.Event)
    (name : String) (kind : PassKind) (events : List Visit.Event) {r : Running}
    (hr : (run g.step g.start past).running = r)
    (hbeside : ∀ e ∈ events, e.isBeside r.cache.contents.nextBatch = true)
    {result : Except Error Nat}
    (hdone : (run Visit.step (kind.visit name r) events).result? = some result)
    (hfailed : (run Visit.step (kind.visit name r) events).failed = true) :
    ∃ p cause, (run Visit.step (kind.visit name r) events).pass = some p ∧
      result = .error (.flush p.size cause) ∧
      (run Visit.step (kind.visit name r) events).running
        = (r.heedAll events).afterFailure kind.failures ∧
      ∀ b ∈ (r.heedAll events).cache.contents.batches, b.number ≠ p.batch := by
  obtain ⟨stage, hstaged, hs⟩ := WithCallers.staged_run g past
  have hsteady : r.Steady g.config r.cache.contents.nextBatch := by
    subst hr
    exact ⟨hstaged.sound, hs.numbered, rfl⟩
  obtain ⟨hsteady', st, hobeys, hat⟩ := Visit.run_at (v := kind.visit name r) hsteady
    (.looking rfl rfl) (PassState.obeys_program name kind) hbeside
  generalize run Visit.step (kind.visit name r) events = v at *
  cases hprogram : v.program with
  | ask q next =>
      simp only [Visit.result?, hprogram] at hdone
      cases hdone
  | done a =>
      simp only [Visit.result?, hprogram] at hdone
      cases hdone
      rw [hprogram] at hobeys
      obtain ⟨⟩ := hobeys
      cases hat with
      | succeeded hnot =>
          rw [hnot] at hfailed
          cases hfailed
      | @failed p cause hp hn h =>
          refine ⟨p, cause, hp, rfl, h.eq_afterFailure, fun b hb => ?_⟩
          rw [hn, ← hsteady'.nextBatch_eq]
          exact Nat.ne_of_lt (hsteady'.numbered.number_lt b hb)

/-- While an entry is evicted, it is deleted, and another one is admitted.  The batch is refused. -/
def refusedMeanwhile : List Visit.Event :=
  [.go 0,
    .other 1 0 (.perform (.delete .transaction (.hash [1]))),
    .other 1 0 (.receive (.hash [2]) (.ofBytes .transaction [2])),
    .answer .refused, .go 0, .answer .done, .go 0]

theorem failed_pass_leaves_no_trace_refused : ∃ r : Running,
    (run Visit.step (PassKind.eviction.visit "memory" r) refusedMeanwhile).result?
        = some (.error (.flush 1 (.batchRefused "memory"))) ∧
      (run Visit.step (PassKind.eviction.visit "memory" r) refusedMeanwhile).running
        = (r.heedAll refusedMeanwhile).afterFailure 1 := by
  have hresult : (run Visit.step (PassKind.eviction.visit "memory"
      (run WithCallers.CallerSystem.single.step WithCallers.CallerSystem.single.start
        [.offer (.hash [1]) (.ofBytes .transaction [1])]).running) refusedMeanwhile).result?
        = some (.error (.flush 1 (.batchRefused "memory"))) := by
    decide +kernel
  obtain ⟨p, cause, -, -, hrunning, -⟩ := failed_pass_leaves_no_trace
    WithCallers.CallerSystem.single
    [.offer (.hash [1]) (.ofBytes .transaction [1])] "memory" .eviction refusedMeanwhile rfl
    (by decide +kernel) hresult (by decide +kernel)
  exact ⟨_, hresult, hrunning⟩

end Cache

end RecordStore
