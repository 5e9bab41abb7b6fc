import RecordStore.Proofs.Cache.Stopping

/-!
# Who writes to the backend of a cache

Let the writing be left to the worker and to the caller that closes the cache
(`WithCallers.Reserved`).  Then whatever happens, the worker does its duty, the shutdown goes
through its closing, and the other callers rest (`WithCallers.Watched.step`).  What comes of one
event (`WithCallers.Leads`) is either an admission or a removal, or the view proceeds.  And a batch
is handed to the backend by a caller only when a shutdown looks at what is to be flushed.
-/

namespace RecordStore

namespace Cache

open Service (Prog)

/-! ## Views of caches with callers -/

namespace WithCallers

variable {contents : Contents} {stored : Records} {calls : List (Option Nat × Call)}
  {d d' : Duty} {k k' : Closing}

theorem stages_congr (hd : d'.stage = d.stage) (hk : k'.stage = k.stage) :
    stages d' k' = stages d k := by
  funext n
  rcases n with _ | _ | n
  · exact hd
  · exact hk
  · rfl

theorem enter_worker : View.enter ⟨contents, stored, calls, stages d k⟩ 0 d'.stage
    = ⟨contents, stored, calls, stages d' k⟩ := by
  rw [View.enter, View.mk.injEq]
  refine ⟨rfl, rfl, rfl, funext fun n => ?_⟩
  rcases n with _ | _ | n <;> rfl

theorem enter_closer : View.enter ⟨contents, stored, calls, stages d k⟩ 1 k'.stage
    = ⟨contents, stored, calls, stages d k'⟩ := by
  rw [View.enter, View.mk.injEq]
  refine ⟨rfl, rfl, rfl, funext fun n => ?_⟩
  rcases n with _ | _ | n <;> rfl

end WithCallers

section

variable {g : WithCallers.CallerSystem} {r r' : Running} {stored : Records}
  {calls : List (Option Nat × Call)} {d : Duty} {k : Closing} {now : Nat} {q : Request}

theorem proceeds_of_isAside {caller : Nat} {a : Reply q} (hq : q.isAside = true)
    (hr : r.reply? caller now q = (some a, r')) {d' : Duty} (hd : d'.stage = d.stage)
    {k' : Closing} (hk : k'.stage = k.stage) :
    View.Proceeds g ⟨r.cache.contents, stored, calls, WithCallers.stages d k⟩
      ⟨r'.cache.contents, stored, calls, WithCallers.stages d' k'⟩ := by
  have hcontents := (r.reply?_of_isAside caller now hq).1
  rw [hr] at hcontents
  rw [hcontents, WithCallers.stages_congr hd hk]
  exact .refl _

/-- The worker gets to another stage. -/
theorem View.Proceeds.worker {v : View} {contents' : Contents} {stored' : Records}
    {calls' : List (Option Nat × Call)} {d' : Duty}
    (hp : v.Proceeds g (View.enter ⟨contents', stored', calls',
      WithCallers.stages d k⟩ 0 d'.stage)) :
    v.Proceeds g ⟨contents', stored', calls', WithCallers.stages d' k⟩ :=
  WithCallers.enter_worker ▸ hp

/-- The shutdown gets to another stage. -/
theorem View.Proceeds.closer {v : View} {contents' : Contents} {stored' : Records}
    {calls' : List (Option Nat × Call)} {k' : Closing}
    (hp : v.Proceeds g (View.enter ⟨contents', stored', calls',
      WithCallers.stages d k⟩ 1 k'.stage)) :
    v.Proceeds g ⟨contents', stored', calls', WithCallers.stages d k'⟩ :=
  WithCallers.enter_closer ▸ hp

theorem Duty.stage_ofEvent (e : Worker.Event Task) : (Duty.ofEvent e).stage = .resting := by
  cases e with
  | task t => cases t <;> rfl
  | tick | stop => rfl

/-- The worker gets on with a request. -/
theorem Duty.Asks.proceeds {state : Reply q → Duty} (hasks : Duty.Asks d q state) {a : Reply q}
    (hr : r.reply? 0 now q = (some a, r')) :
    View.Proceeds g ⟨r.cache.contents, stored, calls, WithCallers.stages d k⟩
      ⟨r'.cache.contents, stored, calls, WithCallers.stages (state a) k⟩ := by
  cases hasks with
  | begin | reply _ _ | fail | clear | finish => exact proceeds_of_isAside rfl hr rfl rfl
  | next => exact proceeds_of_isAside rfl hr (Duty.stage_ofEvent a) rfl
  | check =>
      refine proceeds_of_isAside rfl hr ?_ rfl
      cases a <;> rfl
  | look =>
      rcases r.cache.beginEviction_cases with hc | ⟨candidates, hsub, hc⟩
      · simp only [Running.reply?, hc] at hr
        cases hr
        rw [WithCallers.stages_congr (d := .looking) rfl rfl]
        exact .refl _
      · simp only [Running.reply?, hc] at hr
        cases hr
        refine .worker (d := .looking) ?_
        exact .look rfl hsub
  | drop p =>
      cases hr
      refine .worker (d := .passing (.dropping p)) ?_
      exact .drop r.cache.maxSize rfl
  | pass hpass =>
      refine .worker (d := d) ?_
      exact hpass.proceeds Duty.stage (fun _ => rfl) (fun _ => rfl) rfl hr rfl rfl

/-- The backend deals with a call of the worker. -/
theorem Duty.Asks.answered {call : Call} {state : Reply (.backend call) → Duty}
    (hasks : Duty.Asks d (.backend call) state) (contents : Contents) (verdict : Verdict) :
    ∃ calls', View.Proceeds g ⟨contents, stored, calls, WithCallers.stages d k⟩
      ⟨contents, verdict.carryOut stored call, calls',
        WithCallers.stages (state (verdict.outcome call)) k⟩ := by
  cases hasks with
  | pass hpass =>
      obtain ⟨calls', hp⟩ := hpass.answered Duty.stage (g := g) (n := 0)
        (v := ⟨contents, stored, calls, WithCallers.stages d k⟩) (fun _ => rfl) (fun _ => rfl) rfl
        verdict rfl
      rw [WithCallers.enter_worker] at hp
      exact ⟨calls', hp⟩

/-- A shutdown gets on with a request. -/
theorem Closing.Asks.proceeds {state : Reply q → Closing} (hasks : Closing.Asks k q state)
    {config : Config} (h : r.Watched config d k) {caller : Nat} {a : Reply q}
    (hr : r.reply? caller now q = (some a, r')) :
    View.Proceeds g ⟨r.cache.contents, stored, calls, WithCallers.stages d k⟩
      ⟨r'.cache.contents, stored, calls, WithCallers.stages d (state a)⟩ := by
  cases hasks with
  | close =>
      cases hr
      cases r.cache.closed with
      | true => exact .refl _
      | false => exact .refl _
  | detach =>
      refine proceeds_of_isAside rfl hr rfl ?_
      cases a <;> rfl
  | join => exact proceeds_of_isAside rfl hr rfl rfl
  | look =>
      rcases r.cache.beginFlush_cases with hc | hc
      · simp only [Running.reply?, hc] at hr
        cases hr
        rw [WithCallers.stages_congr (k := .looking) rfl rfl]
        exact .refl _
      · simp only [Running.reply?, hc] at hr
        cases hr
        refine .closer (k := .looking) ?_
        exact .look rfl (List.Sublist.refl _)
  | pass hpass =>
      refine .closer (k := k) ?_
      exact hpass.proceeds Closing.stage (fun _ => rfl) (fun _ => rfl) rfl hr rfl rfl
  | empty p =>
      cases hr
      refine .closer (k := .emptying p) ?_
      refine .empty 1 (by cases p <;> rfl) fun e he => ?_
      cases p with
      | none =>
          rw [h.bare rfl] at he
          cases he
      | some p => exact ⟨p, rfl, h.slots p rfl e he⟩

/-- The backend deals with a call of a shutdown. -/
theorem Closing.Asks.answered {call : Call} {state : Reply (.backend call) → Closing}
    (hasks : Closing.Asks k (.backend call) state) (contents : Contents) (verdict : Verdict) :
    ∃ calls', View.Proceeds g ⟨contents, stored, calls, WithCallers.stages d k⟩
      ⟨contents, verdict.carryOut stored call, calls',
        WithCallers.stages d (state (verdict.outcome call))⟩ := by
  cases hasks with
  | pass hpass =>
      obtain ⟨calls', hp⟩ := hpass.answered Closing.stage (g := g) (n := 1)
        (v := ⟨contents, stored, calls, WithCallers.stages d k⟩) (fun _ => rfl) (fun _ => rfl) rfl
        verdict rfl
      rw [WithCallers.enter_closer] at hp
      exact ⟨calls', hp⟩

end

/-! ## Requests of a shutdown -/

/-- Whether a request looks at what is to be flushed. -/
def Request.looks : Request → Bool
  | .beginFlush => true
  | _ => false

namespace Closing

/-- The batch that a shutdown is about to hand to the backend. -/
def toSave : Closing → List (List Entry)
  | passing (.saving p) => [p.entries]
  | _ => []

variable {k : Closing} {q : Request} {state : Reply q → Closing}

/-- Where the pass of a shutdown leads. -/
theorem after_pass {P : Closing → Prop}
    (h : PassAsks passing (fun p => emptying (some p)) failed k q state) (a : Reply q)
    (hpassing : ∀ st, (passing st).toSave = [] → P (passing st))
    (hemptying : ∀ p, P (emptying (some p))) (hfailed : P failed) : P (state a) := by
  cases h with
  | save p => exact hpassing _ rfl
  | finish p written =>
      simp only [passMarked]
      split
      · split
        · exact hemptying p
        · exact hfailed
      · exact hpassing _ rfl
  | delete p written ids =>
      cases written with
      | false => exact hfailed
      | true =>
          cases a with
          | ok a => exact hemptying p
          | error e => exact hfailed

namespace Asks

theorem isUnder (hasks : Asks k q state) (hunder : k.isUnder = true) (a : Reply q) :
    (state a).isUnder = true := by
  cases hasks with
  | close => cases hunder
  | detach | look => cases a <;> rfl
  | join | empty => rfl
  | pass hpass =>
      exact after_pass (P := fun k => k.isUnder = true) hpass a (fun _ _ => rfl) (fun _ => rfl) rfl

/-- A shutdown has looked once it has gone on from the look. -/
theorem hasLooked (hasks : Asks k q state) (a : Reply q) :
    (state a).hasLooked = (k.hasLooked || q.looks) := by
  cases hasks with
  | close | detach | look => cases a <;> rfl
  | join | empty => rfl
  | pass hpass =>
      have hk : k.hasLooked = true := by cases hpass <;> rfl
      rw [hk]
      exact after_pass (P := fun k => k.hasLooked = true) hpass a (fun _ _ => rfl)
        (fun _ => rfl) rfl

/-- A shutdown has something to write only when it has looked just now. -/
theorem toSave_of_not_looks (hasks : Asks k q state) (hlooks : q.looks = false) (a : Reply q) :
    (state a).toSave = [] := by
  cases hasks with
  | close | detach => cases a <;> rfl
  | look => cases hlooks
  | join | empty => rfl
  | pass hpass =>
      exact after_pass (P := fun k => k.toSave = []) hpass a (fun _ h => h) (fun _ => rfl) rfl

theorem notedCloser (hasks : Asks k q state) (hunder : k.isUnder = true) (n : Nat)
    (closer : Option Nat) (a : Reply q) : WithCallers.notedCloser n closer q a = closer := by
  cases hasks with
  | close => cases hunder
  | detach | join | look | empty => rfl
  | pass hpass => cases hpass <;> rfl

/-- A shutdown asks the worker to stop, but does not stop it. -/
theorem hasStopped_reply (hasks : Asks k q state) (r : Running) (caller now : Nat) :
    (r.reply? caller now q).2.hasStopped = r.hasStopped := by
  cases hasks with
  | close | look | empty => rfl
  | detach =>
      simp only [Running.reply?, Running.hasStopped, Running.withWorker]
      cases r.worker <;> rfl
  | join =>
      simp only [Running.reply?]
      split
      · split <;> rfl
      · rfl
  | pass hpass => cases hpass <;> rfl

/-- What a shutdown asks of the backend leaves it in its pass. -/
theorem backend {call : Call} {state : Reply (.backend call) → Closing}
    (hasks : Asks k (.backend call) state) : k.hasLooked = true := by
  cases hasks with
  | pass hpass => cases hpass <;> rfl

end Asks

end Closing

/-! ## Callers that rest -/

/-- A caller that has no pass, and has not closed the cache. -/
inductive Caller.AtRest : Caller → Prop where
  | errand {errand : Errand} {program : Prog errand.Answer} (herrand : errand ≠ .shutdown)
      (h : program.Obeys Stage.Asks (fun st _ => st = .resting) .resting) : AtRest ⟨errand, program⟩
  | shutdown {program : Prog (Errand.Answer .shutdown)} {k : Closing} (hk : k.isUnder = false)
      (h : program.Obeys Closing.Asks Closing.Ends k) : AtRest ⟨.shutdown, program⟩

/-- Whether a caller is about to look at what is to be flushed by its shutdown. -/
def Caller.looks : Caller → Bool
  | ⟨.shutdown, .ask q _⟩ => q.looks
  | _ => false

theorem Caller.AtRest.program (backendName : String) (errand : Errand) :
    Caller.AtRest ⟨errand, errand.program backendName⟩ := by
  by_cases h : errand = .shutdown
  · subst h
    exact .shutdown rfl (Service.obeys_shutdown backendName)
  · exact .errand h (Errand.obeys_program backendName h)

/-- Whether a request begins a batch. -/
def Running.beginsBatch (r : Running) : Request → Bool
  | .beginEviction => r.cache.beginEviction.1.isSome
  | .beginFlush => r.cache.beginFlush.1.isSome
  | _ => false

/-- What a caller asks that rests has no part in the contents, if it begins no batch. -/
theorem Stage.Asks.rests {q : Request} {state : Reply q → Stage} (h : Stage.Asks .resting q state)
    {r : Running} (hbatch : r.beginsBatch q = false) (caller now : Nat) :
    r.Wanes (r.reply? caller now q).2 ∧
      (r.reply? caller now q).2.cache.contents = r.cache.contents ∧
      ∀ a, (r.reply? caller now q).1 = some a → state a = .resting := by
  generalize hst : Stage.resting = st at h
  cases h with
  | drop p => cases hst
  | pass hafter hpass => cases hpass <;> cases hst
  | aside hq =>
      have haside : q.isAside = true := by cases q <;> first | rfl | cases hq
      exact ⟨.errand r caller now hq, (r.reply?_of_isAside caller now haside).1, fun _ _ => rfl⟩
  | evict =>
      have hnone : r.cache.beginEviction = (none, r.cache) := by
        rcases r.cache.beginEviction_cases with hc | ⟨candidates, -, hc⟩
        · exact hc
        · rw [Running.beginsBatch, hc] at hbatch
          cases hbatch
      simp only [Running.reply?, hnone]
      exact ⟨.refl r, trivial, fun a ha => by cases ha; rfl⟩
  | flush =>
      have hnone : r.cache.beginFlush = (none, r.cache) := by
        rcases r.cache.beginFlush_cases with hc | hc
        · exact hc
        · rw [Running.beginsBatch, hc] at hbatch
          cases hbatch
      simp only [Running.reply?, hnone]
      exact ⟨.refl r, trivial, fun a ha => by cases ha; rfl⟩

theorem Stage.Asks.of_resting {q : Request} {state : Reply q → Stage}
    (h : Stage.Asks .resting q state) :
    q.isErrand = true ∨ q = .beginEviction ∨ q = .beginFlush := by
  generalize hst : Stage.resting = st at h
  cases h with
  | aside hq => exact Or.inl hq
  | evict => exact Or.inr (Or.inl rfl)
  | flush => exact Or.inr (Or.inr rfl)
  | drop p => cases hst
  | pass hafter hpass => cases hpass <;> cases hst

/-- A shutdown that has not come, or came too late, asks to close the cache and nothing else. -/
theorem Closing.Asks.eq_close {k : Closing} (hk : k.isUnder = false) {q : Request}
    {state : Reply q → Closing} (h : Closing.Asks k q state) : q = .close := by
  cases h with
  | close => rfl
  | detach | join | look | empty => cases hk
  | pass hpass => cases hpass <;> cases hk

/-- A caller at rest does not wait for the backend. -/
theorem Caller.AtRest.not_waits {errand : Errand} {call : Call}
    {next : Reply (.backend call) → Prog errand.Answer} :
    ¬ Caller.AtRest ⟨errand, .ask (.backend call) next⟩ := by
  intro hc
  cases hc with
  | errand herrand hobeys =>
      obtain ⟨state, hasks, -⟩ := hobeys
      rcases hasks.of_resting with hq | hq | hq <;> cases hq
  | shutdown hk hobeys =>
      obtain ⟨state, hasks, -⟩ := hobeys
      cases hasks.eq_close hk

namespace WithCallers

/-! ## What is flushed -/

/-- A batch that a caller handed to the backend. -/
def batchOf : Party × Call → Option (List Entry)
  | (.caller _, .saveBatch entries) => some entries
  | _ => none

/-- The batches that callers handed to the backend, the latest first. -/
def flushed (s : WithCallers) : List (List Entry) := s.handed.filterMap batchOf

/-- The entries of the cache, the one that was admitted first at first. -/
def entries (s : WithCallers) : List Entry :=
  s.running.cache.contents.slots.candidates.map fun d => d.slot.entry

/-- The batches by which the entries of the cache are flushed: one, or none if there are no
entries. -/
def toFlush (s : WithCallers) : List (List Entry) := if s.entries.isEmpty then [] else [s.entries]

/-- Whether a shutdown looks at what is to be flushed. -/
def flushes (s : WithCallers) : Event → Bool
  | .go (.caller n) _ => s.callers[n]?.any Caller.looks
  | _ => false

/-- Whether a caller begins a batch when it goes on. -/
def beginsBatch (s : WithCallers) (n : Nat) : Bool :=
  match s.callers[n]? with
  | some ⟨_, .ask q _⟩ => s.running.beginsBatch q
  | _ => false

/-- What leaves the writing to the worker and to the caller that closed the cache. -/
def Reserved (s : WithCallers) : Event → Prop
  | .own _ => False
  | .go (.caller n) _ => s.closer = some n ∨ s.beginsBatch n = false
  | _ => True

instance (s : WithCallers) : (e : Event) → Decidable (s.Reserved e)
  | .own _ => isFalse nofun
  | .go (.caller n) _ => inferInstanceAs (Decidable (s.closer = some n ∨ s.beginsBatch n = false))
  | .go .worker _ | .offer _ _ | .call _ | .begin _ | .take _ _ | .answer _ _ => isTrue trivial

variable {g : CallerSystem} {s : WithCallers} {d d' : Duty} {k k' : Closing} {n : Nat}

theorem filterMap_handOver {α : Type} (s : WithCallers) (party : Party) (program : Prog α) :
    (s.handOver party program).filterMap batchOf
      = (pending? program).toList.filterMap (fun call => batchOf (party, call)) ++ s.flushed := by
  rw [handOver, List.filterMap_append, List.filterMap_map]
  rfl

theorem flushed_worker {α : Type} (s : WithCallers) (program : Prog α) :
    (s.handOver .worker program).filterMap batchOf = s.flushed := by
  rw [filterMap_handOver]
  cases pending? program <;> rfl

theorem flushed_rest {c : Caller} (hc : c.AtRest) :
    (s.handOver (.caller n) c.program).filterMap batchOf = s.flushed := by
  have hnone : pending? c.program = none := by
    cases hc with
    | @errand errand program herrand h =>
        cases program with
        | done a => rfl
        | ask q next =>
            obtain ⟨state, hasks, -⟩ := h
            rcases hasks.of_resting with hq | rfl | rfl
            · cases q <;> first | rfl | cases hq
            · rfl
            · rfl
    | @shutdown program k hk h =>
        cases program with
        | done a => rfl
        | ask q next =>
            obtain ⟨state, hasks, -⟩ := h
            obtain rfl := hasks.eq_close hk
            rfl
  rw [filterMap_handOver, hnone]
  rfl

end WithCallers

theorem WithCallers.flushed_closer {s : WithCallers} {k : Closing} {n : Nat}
    {program : Prog (Except Failure Unit)} (h : program.Obeys Closing.Asks Closing.Ends k) :
    (s.handOver (.caller n) program).filterMap batchOf = k.toSave ++ s.flushed := by
  rw [filterMap_handOver]
  congr 1
  cases program with
  | done _ => cases h <;> rfl
  | ask q next =>
      obtain ⟨state, hasks, -⟩ := h
      cases hasks with
      | close | detach | join | look | empty => rfl
      | pass hpass => cases hpass <;> rfl

namespace WithCallers

variable {g : CallerSystem} {s : WithCallers} {d d' : Duty} {k k' : Closing} {n : Nat}

/-! ## Caches with callers that are watched -/

/-- The worker does its duty, the caller that closed the cache goes through its closing, and the
other callers rest. -/
structure Watched (g : CallerSystem) (s : WithCallers) (d : Duty) (k : Closing) : Prop where
  running : s.running.Watched g.config d k
  worker : s.worker.Obeys Duty.Asks Duty.Ends d
  under : k.isUnder = s.closer.isSome
  closer : ∀ n, s.closer = some n → ∃ program : Prog (Except Failure Unit),
    s.callers[n]? = some ⟨.shutdown, program⟩ ∧ program.Obeys Closing.Asks Closing.Ends k
  others : ∀ n c, s.callers[n]? = some c → s.closer ≠ some n → c.AtRest
  unflushed : k.hasLooked = false → s.flushed = []

def view (s : WithCallers) (d : Duty) (k : Closing) (calls : List (Option Nat × Call)) : View where
  contents := s.running.cache.contents
  stored := s.stored
  calls
  stage := stages d k

/-- Whether programs go on by an event, or begin. -/
def Event.isProgram : Event → Bool
  | .offer _ _ | .call _ | .own _ => false
  | _ => true

/-- What comes of an event: a cache with callers, what its worker is about, and how far the shutdown
has got. -/
structure Leads (g : CallerSystem) (s : WithCallers) (d : Duty) (k : Closing) (e : Event)
    (s' : WithCallers)
    (d' : Duty) (k' : Closing) : Prop where
  watched : Watched g s' d' k'
  looked : k'.hasLooked = (k.hasLooked || s.flushes e)
  flushed : s'.flushed = (if s.flushes e then s.toFlush else []) ++ s.flushed
  proceeds : e.isProgram = true → s'.admitted = s.admitted ∧
    ∀ calls, ∃ calls', (s.view d k calls).Proceeds g (s'.view d' k' calls')
  stays : e.isProgram = false → d' = d ∧ k' = k
  /-- In a closed cache a worker that has stopped does not begin again. -/
  stops : s.running.cache.closed = true → s.running.hasStopped = true →
    s'.running.hasStopped = true

namespace Watched

theorem start (g : CallerSystem) : Watched g g.start .fresh .arriving where
  running := .start g.config
  worker := Service.obeys_setOut
  under := rfl
  closer n hn := by cases hn
  others n c hc := by cases hc
  unflushed _ := rfl

/-- A change of the cache alone. -/
theorem withRunning (h : Watched g s d k) {running : Running}
    (hr : running.Watched g.config d k) (admitted : Records) (stored : Records) :
    Watched g { s with running, admitted, stored } d k :=
  ⟨hr, h.worker, h.under, h.closer, h.others, h.unflushed⟩

theorem withWorker (h : Watched g s d k) {running : Running} {worker : Prog Bool}
    {stored : Records} {handed : List (Party × Call)} (hr : running.Watched g.config d' k)
    (hworker : worker.Obeys Duty.Asks Duty.Ends d')
    (hflushed : handed.filterMap batchOf = s.flushed) :
    Watched g { s with running, stored, worker, handed } d' k :=
  ⟨hr, hworker, h.under, h.closer, h.others, fun hk => hflushed.trans (h.unflushed hk)⟩

/-- A caller that rests goes on and rests. -/
theorem withCaller (h : Watched g s d k) (hn : s.closer ≠ some n) {running : Running} {c : Caller}
    {handed : List (Party × Call)} (hr : running.Watched g.config d k) (hc : c.AtRest)
    (hflushed : handed.filterMap batchOf = s.flushed) :
    Watched g { s with running, callers := s.callers.set n c, handed } d k where
  running := hr
  worker := h.worker
  under := h.under
  closer m hm := by
    obtain ⟨program, hprogram, hobeys⟩ := h.closer m hm
    refine ⟨program, ?_, hobeys⟩
    have hne : n ≠ m := by
      rintro rfl
      exact hn hm
    exact (List.getElem?_set_ne hne).trans hprogram
  others m c' hc' hm := by
    rcases getElem?_set_cases hc' with ⟨-, rfl⟩ | ⟨-, hold⟩
    · exact hc
    · exact h.others m c' hold hm
  unflushed hk := hflushed.trans (h.unflushed hk)

/-- The caller that has closed the cache goes on, or a caller closes the cache. -/
theorem withCloser (h : Watched g s d k) (hn : ∀ m, s.closer = some m → m = n)
    {c : Caller} (hc : s.callers[n]? = some c) {running : Running} {stored : Records}
    {program : Prog (Except Failure Unit)} {handed : List (Party × Call)} {closer : Option Nat}
    (hcloser : closer = some n) (hr : running.Watched g.config d k') (hunder : k'.isUnder = true)
    (hprogram : program.Obeys Closing.Asks Closing.Ends k')
    (hflushed : k'.hasLooked = false → handed.filterMap batchOf = []) :
    Watched g { s with
      running, stored, callers := s.callers.set n ⟨.shutdown, program⟩, closer, handed } d k' where
  running := hr
  worker := h.worker
  under := by rw [hcloser, hunder]; rfl
  closer m hm := by
    obtain rfl := Option.some.inj (hm.symm.trans hcloser)
    refine ⟨program, ?_, hprogram⟩
    exact List.getElem?_set_self (List.getElem?_eq_some_iff.1 hc).1
  others m c' hc' hm := by
    rcases getElem?_set_cases hc' with ⟨rfl, -⟩ | ⟨hmn, hold⟩
    · exact absurd hcloser hm
    · exact h.others m c' hold fun hm' => hmn (hn m hm')
  unflushed := hflushed

/-- Callers come. -/
theorem withNewcomers (h : Watched g s d k) {newcomers : List Caller}
    (hnew : ∀ c ∈ newcomers, c.AtRest) :
    Watched g { s with callers := s.callers ++ newcomers } d k where
  running := h.running
  worker := h.worker
  under := h.under
  closer m hm := by
    obtain ⟨program, hprogram, hobeys⟩ := h.closer m hm
    refine ⟨program, ?_, hobeys⟩
    exact (List.getElem?_append_left (List.getElem?_eq_some_iff.1 hprogram).1).trans hprogram
  others m c hc hm := by
    have hc : (s.callers ++ newcomers)[m]? = some c := hc
    rw [List.getElem?_append] at hc
    split at hc
    · exact h.others m c hc hm
    · exact hnew c (List.mem_of_getElem? hc)
  unflushed := h.unflushed

/-- A caller begins. -/
theorem begin (h : Watched g s d k) (errand : Errand) :
    Watched g (g.step s (.begin errand)) d k := by
  refine h.withNewcomers fun c hc => ?_
  rw [List.mem_singleton.1 hc]
  exact .program _ _

/-- A record is offered. -/
theorem offer (h : Watched g s d k) (key : Key) (record : Record) :
    Watched g (s.offer key record) d k := by
  refine (h.withRunning (h.running.receive key record) _ s.stored).withNewcomers fun c hc => ?_
  rw [s.eq_of_mem_requester hc]
  exact .program g.backendName .requestPass

/-! ## Programs go on -/

end Watched

namespace Leads

variable {s' : WithCallers} {e : Event}

/-- A program goes on, and nothing is flushed. -/
theorem of_proceeds (hwatched : Watched g s' d' k') (hprogram : e.isProgram = true)
    (hflushes : s.flushes e = false) (hlooked : k'.hasLooked = k.hasLooked)
    (hflushed : s'.flushed = s.flushed) (hadmitted : s'.admitted = s.admitted)
    (hproceeds : ∀ calls, ∃ calls', (s.view d k calls).Proceeds g (s'.view d' k' calls'))
    (hstops : s.running.cache.closed = true → s.running.hasStopped = true →
      s'.running.hasStopped = true) : Leads g s d k e s' d' k' where
  watched := hwatched
  looked := by rw [hflushes, Bool.or_false, hlooked]
  flushed := by rw [hflushes, hflushed]; rfl
  proceeds _ := ⟨hadmitted, hproceeds⟩
  stays he := by rw [hprogram] at he; cases he
  stops := hstops

/-- A program goes on, and nothing happens to the view. -/
theorem of_aside (hwatched : Watched g s' d' k) (hprogram : e.isProgram = true)
    (hflushes : s.flushes e = false) (hflushed : s'.flushed = s.flushed)
    (hadmitted : s'.admitted = s.admitted) (hd : d'.stage = d.stage)
    (hcontents : s'.running.cache.contents = s.running.cache.contents)
    (hstored : s'.stored = s.stored)
    (hstops : s.running.cache.closed = true → s.running.hasStopped = true →
      s'.running.hasStopped = true) : Leads g s d k e s' d' k := by
  refine .of_proceeds hwatched hprogram hflushes rfl hflushed hadmitted
    (fun calls => ⟨calls, ?_⟩) hstops
  rw [view, view, hcontents, hstored, stages_congr hd rfl]
  exact .refl _

/-- A program does not go on. -/
theorem refl (h : Watched g s d k) (hprogram : e.isProgram = true)
    (hflushes : s.flushes e = false) : Leads g s d k e s d k :=
  .of_aside h hprogram hflushes rfl rfl rfl rfl rfl fun _ hstopped => hstopped

end Leads

namespace Watched

/-! ## Programs go on -/

/-- The worker goes on. -/
theorem goWorker (h : Watched g s d k) (now : Nat) :
    ∃ d', Leads g s d k (.go .worker now) (s.goWorker g now) d' k := by
  have hobeys := h.worker
  simp only [WithCallers.goWorker]
  split
  next hw =>
    rw [hw] at hobeys
    cases hobeys
    have hwatched : Watched g { s with worker := Service.work g.backendName } .free k :=
      h.withWorker h.running (Service.obeys_work g.backendName) rfl
    exact ⟨.free, .of_aside hwatched rfl rfl rfl rfl rfl rfl rfl fun _ hstopped => hstopped⟩
  next => exact ⟨d, .refl h rfl rfl⟩
  next q next hw =>
    rw [hw] at hobeys
    obtain ⟨state, hasks, hnext⟩ := hobeys
    have hcomes := h.running.goWorker now hasks
    split
    next a running hr =>
      have hflushed := s.flushed_worker (next a)
      refine ⟨state a, .of_proceeds ?_ rfl rfl rfl hflushed rfl (fun calls => ⟨calls, ?_⟩) ?_⟩
      · exact h.withWorker (hcomes.of_some a running hr) (hnext a) hflushed
      · exact hasks.proceeds hr
      · intro hclosed hstopped
        have hstill := (h.running.of_stopped hclosed hstopped).goWorker now hasks
        exact (hstill.of_some a running hr).stopped rfl
    next running hr =>
      refine ⟨d, .of_aside ?_ rfl rfl rfl rfl rfl ?_ rfl ?_⟩
      · exact h.withRunning (hcomes.of_none running hr) s.admitted s.stored
      · exact congrArg Cache.contents (Running.cache_of_wait hr)
      · intro hclosed hstopped
        have hstill := (h.running.of_stopped hclosed hstopped).goWorker now hasks
        exact (hstill.of_none running hr).stopped rfl

/-- The worker takes up an event. -/
theorem take (h : Watched g s d k) (e : Worker.Event Task) (now : Nat) :
    ∃ d', Leads g s d k (.take e now) (s.take e now) d' k := by
  have hobeys := h.worker
  simp only [WithCallers.take]
  split
  next next w hworker hw =>
    split
    next hready =>
      rw [hworker] at hobeys
      obtain ⟨state, hasks, hnext⟩ := hobeys
      rw [Bool.and_eq_true, Bool.not_eq_true'] at hready
      cases hasks with
      | pass hpass => cases hpass
      | next =>
          have hflushed := s.flushed_worker (next e)
          refine ⟨.ofEvent e, .of_aside ?_ rfl rfl hflushed rfl ?_ rfl rfl ?_⟩
          · exact h.withWorker (h.running.take hw hready.1 now e) (hnext e) hflushed
          · exact Duty.stage_ofEvent e
          · intro hclosed hstopped
            have hstill := h.running.of_stopped hclosed hstopped
            exact (hstill.take hw hready.1 now e).stopped rfl
    next => exact ⟨d, .refl h rfl rfl⟩
  next => exact ⟨d, .refl h rfl rfl⟩

/-- The backend deals with a call of the worker. -/
theorem answerWorker (h : Watched g s d k) (verdict : Verdict) :
    ∃ d', Leads g s d k (.answer .worker verdict) (s.answerWorker verdict) d' k := by
  have hobeys := h.worker
  simp only [WithCallers.answerWorker]
  split
  next call next hw =>
    rw [hw] at hobeys
    obtain ⟨state, hasks, hnext⟩ := hobeys
    have hflushed := s.flushed_worker (next (verdict.outcome call))
    refine ⟨state (verdict.outcome call), .of_proceeds ?_ rfl rfl rfl hflushed rfl
      (fun calls => ?_) fun _ hstopped => hstopped⟩
    · exact h.withWorker (h.running.answerWorker hasks _) (hnext _) hflushed
    · exact hasks.answered s.running.cache.contents verdict
  next => exact ⟨d, .refl h rfl rfl⟩

/-- The look of a shutdown finds what is to be flushed. -/
theorem toSave_look (s : WithCallers) : (Closing.ofLook s.running.cache.beginFlush.1).toSave
    = s.toFlush := by
  simp only [Cache.beginFlush, Cache.beginPass, toFlush, entries, List.isEmpty_map]
  split <;> rfl

/-- What a shutdown has to write is what it has found just now. -/
theorem toSave_reply {q : Request} {state : Reply q → Closing} {caller now : Nat} {a : Reply q}
    {running : Running} (hasks : Closing.Asks k q state)
    (hr : s.running.reply? caller now q = (some a, running)) :
    (state a).toSave = if q.looks then s.toFlush else [] := by
  cases hlooks : q.looks with
  | false => exact hasks.toSave_of_not_looks hlooks a
  | true =>
      cases hasks with
      | look =>
          obtain rfl : s.running.cache.beginFlush.1 = a := Option.some.inj (congrArg Prod.fst hr)
          exact toSave_look s
      | close | detach | join | empty => cases hlooks
      | pass hpass => cases hpass <;> cases hlooks

/-- The caller that closed the cache goes on. -/
theorem goCloser (h : Watched g s d k) (hn : s.closer = some n) (now : Nat) :
    ∃ k', Leads g s d k (.go (.caller n) now) (s.goCaller n now) d k' := by
  obtain ⟨program, hc, hobeys⟩ := h.closer n hn
  have hunder : k.isUnder = true := by rw [h.under, hn]; rfl
  simp only [WithCallers.goCaller, hc]
  cases program with
  | done a =>
      refine ⟨k, .refl h rfl ?_⟩
      simp only [flushes, hc]
      rfl
  | ask q next =>
      obtain ⟨state, hasks, hnext⟩ := hobeys
      have hcomes := h.running.goCloser hunder (n + 1) now hasks
      have hflushes : s.flushes (.go (.caller n) now) = q.looks := by
        simp only [flushes, hc]
        rfl
      simp only
      split
      next a running hr =>
        have hlooked := hasks.hasLooked a
        have hsaves := toSave_reply hasks hr
        rw [hasks.notedCloser hunder]
        refine ⟨state a, ?_, ?_, ?_,
          fun _ => ⟨rfl, fun calls => ⟨calls, hasks.proceeds h.running hr⟩⟩,
          fun h => (by cases h), fun _ hstopped => ?_⟩
        · refine h.withCloser (fun m hm => ?_) hc hn (hcomes.of_some a running hr)
            (hasks.isUnder hunder a) (hnext a) fun hk => ?_
          · exact Option.some.inj (hm.symm.trans hn)
          · rw [hlooked, Bool.or_eq_false_iff] at hk
            rw [s.flushed_closer (hnext a), hsaves, hk.2, h.unflushed hk.1]
            rfl
        · rw [hflushes, hlooked]
        · rw [hflushes, ← hsaves]
          exact s.flushed_closer (hnext a)
        · have hsame := hasks.hasStopped_reply s.running (n + 1) now
          rw [hr] at hsame
          exact hsame.trans hstopped
      next running hr =>
        refine ⟨k, .of_aside ?_ rfl ?_ rfl rfl rfl ?_ rfl fun _ hstopped => ?_⟩
        · exact h.withRunning (hcomes.of_none running hr) s.admitted s.stored
        · rw [hflushes]
          cases q with
          | beginFlush => cases hr
          | _ => rfl
        · exact congrArg Cache.contents (Running.cache_of_wait hr)
        · have hsame := hasks.hasStopped_reply s.running (n + 1) now
          rw [hr] at hsame
          exact hsame.trans hstopped

/-- A caller that rests goes on. -/
theorem goAtRest (h : Watched g s d k) (hn : s.closer ≠ some n) (now : Nat)
    (hbatch : s.beginsBatch n = false) {errand : Errand} {q : Request}
    {next : Reply q → Prog errand.Answer} (hc : s.callers[n]? = some ⟨errand, .ask q next⟩)
    (herrand : errand ≠ .shutdown) {state : Reply q → Stage}
    (hasks : Stage.Asks .resting q state)
    (hnext : ∀ a, (next a).Obeys Stage.Asks (fun st _ => st = .resting) (state a)) :
    Leads g s d k (.go (.caller n) now) (s.goCaller n now) d k := by
  have hflushes : s.flushes (.go (.caller n) now) = false := by
    simp only [flushes, hc, Option.any_some]
    cases errand <;> first | rfl | exact absurd rfl herrand
  have hbatch : s.running.beginsBatch q = false := by
    simpa only [WithCallers.beginsBatch, hc] using hbatch
  obtain ⟨hwanes, hcontents, hstate⟩ := hasks.rests hbatch (n + 1) now
  have hrunning := h.running.wane hwanes (Running.reply?_sound h.running.sound _ _ _)
  simp only [WithCallers.goCaller, hc]
  split
  next a running hr =>
    rw [hr] at hcontents hrunning hstate hwanes
    have hnoted : notedCloser n s.closer q a = s.closer := by
      rcases hasks.of_resting with hq | rfl | rfl
      · cases q <;> first | rfl | cases hq
      · rfl
      · rfl
    have hrests : Caller.AtRest ⟨errand, next a⟩ := .errand herrand (hstate a rfl ▸ hnext a)
    have hflushed := s.flushed_rest (n := n) hrests
    rw [hnoted]
    exact .of_aside (h.withCaller hn hrunning hrests hflushed) rfl hflushes hflushed rfl rfl
      hcontents rfl fun _ hstopped => hwanes.hasStopped_eq.trans hstopped
  next running hr =>
    rw [hr] at hcontents hrunning hwanes
    exact .of_aside (h.withRunning hrunning s.admitted s.stored) rfl hflushes rfl rfl rfl
      hcontents rfl fun _ hstopped => hwanes.hasStopped_eq.trans hstopped

/-- A shutdown closes the cache, or finds it closed. -/
theorem goArriving (h : Watched g s d k) (hn : s.closer ≠ some n) (now : Nat)
    {next : Bool → Prog (Except Failure Unit)}
    (hc : s.callers[n]? = some ⟨.shutdown, .ask .close next⟩)
    (hnext : ∀ closed, (next closed).Obeys Closing.Asks Closing.Ends
      (if closed then .late else .detaching)) :
    ∃ k', Leads g s d k (.go (.caller n) now) (s.goCaller n now) d k' := by
  have hflushes : s.flushes (.go (.caller n) now) = false := by
    simp only [flushes, hc]
    rfl
  have hclosed := h.running.closed.trans h.under
  simp only [WithCallers.goCaller, hc, Running.reply?, Cache.close]
  cases hopen : s.running.cache.closed with
  | true =>
      have hrests : Caller.AtRest ⟨.shutdown, next true⟩ := .shutdown rfl (hnext true)
      have hflushed := s.flushed_rest (n := n) hrests
      refine ⟨k, .of_aside (h.withCaller hn ?_ hrests hflushed) rfl hflushes hflushed rfl rfl rfl
        rfl fun _ hstopped => hstopped⟩
      exact h.running.wane (.withCache rfl rfl rfl hopen.symm) (h.running.sound.congr rfl rfl)
  | false =>
      have hunder : k.isUnder = false := h.running.closed.symm.trans hopen
      have hflushed := s.flushed_closer (n := n) (hnext false)
      have hk : k.stage = .resting ∧ k.hasLooked = false := by
        rcases Closing.eq_of_not_isUnder hunder with rfl | rfl <;> exact ⟨rfl, rfl⟩
      refine ⟨.detaching, .of_proceeds ?_ rfl hflushes hk.2.symm hflushed rfl
        (fun calls => ⟨calls, ?_⟩) fun _ hstopped => hstopped⟩
      · refine h.withCloser (fun m hm => ?_) hc rfl (h.running.close hopen) rfl (hnext false)
          fun _ => ?_
        · rw [hopen, hm] at hclosed
          cases hclosed
        · rw [hflushed, h.unflushed hk.2]
          rfl
      · have hsame : stages d .detaching = stages d k := stages_congr rfl hk.1.symm
        rw [view, view, hsame]
        exact .refl _

/-- A caller goes on that has not closed the cache. -/
theorem goOther (h : Watched g s d k) (hn : s.closer ≠ some n) (now : Nat)
    (hbatch : s.beginsBatch n = false) :
    ∃ k', Leads g s d k (.go (.caller n) now) (s.goCaller n now) d k' := by
  cases hc : s.callers[n]? with
  | none =>
      simp only [WithCallers.goCaller, hc]
      exact ⟨k, .refl h rfl (by simp only [flushes, hc]; rfl)⟩
  | some c =>
      cases h.others n c hc hn with
      | @errand errand program herrand hobeys =>
          cases program with
          | done a =>
              simp only [WithCallers.goCaller, hc]
              refine ⟨k, .refl h rfl ?_⟩
              simp only [flushes, hc, Option.any_some]
              cases errand <;> rfl
          | ask q next =>
              obtain ⟨state, hasks, hnext⟩ := hobeys
              exact ⟨k, h.goAtRest hn now hbatch hc herrand hasks hnext⟩
      | @shutdown program k₀ hk hobeys =>
          cases program with
          | done a =>
              simp only [WithCallers.goCaller, hc]
              exact ⟨k, .refl h rfl (by simp only [flushes, hc]; rfl)⟩
          | ask q next =>
              obtain ⟨state, hasks, hnext⟩ := hobeys
              cases hasks with
              | close => exact h.goArriving hn now hc hnext
              | detach | join | look | empty => cases hk
              | pass hpass => cases hpass <;> cases hk

/-- The backend deals with a call of a caller. -/
theorem answerCaller (h : Watched g s d k) (n : Nat) (verdict : Verdict) :
    ∃ k', Leads g s d k (.answer (.caller n) verdict) (s.answerCaller n verdict) d k' := by
  simp only [WithCallers.answerCaller]
  split
  next errand call next hc =>
    by_cases hn : s.closer = some n
    · obtain ⟨program, hprogram, hobeys⟩ := h.closer n hn
      rw [hc] at hprogram
      cases hprogram
      obtain ⟨state, hasks, hnext⟩ := hobeys
      have hlooked := hasks.hasLooked (verdict.outcome call)
      have hflushed := s.flushed_closer (n := n) (hnext (verdict.outcome call))
      rw [hasks.toSave_of_not_looks rfl, List.nil_append] at hflushed
      have hunder : k.isUnder = true := by rw [h.under, hn]; rfl
      refine ⟨state (verdict.outcome call), .of_proceeds ?_ rfl rfl ?_ hflushed rfl
        (fun calls => ?_) fun _ hstopped => hstopped⟩
      · refine h.withCloser (fun m hm => ?_) hc hn (h.running.answerCloser hasks _)
          (hasks.isUnder hunder _) (hnext _) fun hk => ?_
        · exact Option.some.inj (hm.symm.trans hn)
        · rw [hlooked, hasks.backend] at hk
          cases hk
      · rw [hlooked, Request.looks, Bool.or_false]
        exact fun h => (by cases h)
      · exact hasks.answered s.running.cache.contents verdict
    · exact absurd (h.others n _ hc hn) Caller.AtRest.not_waits
  next => exact ⟨k, .refl h rfl rfl⟩

/-- Whatever happens, the worker does its duty and the shutdown goes through its closing. -/
theorem step (h : Watched g s d k) {e : Event} (hreserved : s.Reserved e) :
    ∃ d' k', Leads g s d k e (g.step s e) d' k' := by
  cases e with
  | offer key record =>
      exact ⟨d, k, h.offer key record, (Bool.or_false _).symm, rfl, fun h => (by cases h),
        fun _ => ⟨rfl, rfl⟩,
        fun hclosed hstopped =>
          ((h.running.of_stopped hclosed hstopped).receive key record).stopped rfl⟩
  | call call =>
      simp only [CallerSystem.step]
      split
      next hcall =>
        exact ⟨d, k, h.withRunning (h.running.perform hcall) _ _, (Bool.or_false _).symm, rfl,
          fun h => (by cases h), fun _ => ⟨rfl, rfl⟩, fun hclosed hstopped =>
            ((h.running.of_stopped hclosed hstopped).perform hcall).stopped rfl⟩
      next =>
        exact ⟨d, k, h, (Bool.or_false _).symm, rfl, fun h => (by cases h), fun _ => ⟨rfl, rfl⟩,
          fun _ hstopped => hstopped⟩
  | own call => exact hreserved.elim
  | begin errand => exact ⟨d, k, .of_aside (h.begin errand) rfl rfl rfl rfl rfl rfl rfl
      fun _ hstopped => hstopped⟩
  | take e now =>
      obtain ⟨d', hl⟩ := h.take e now
      exact ⟨d', k, hl⟩
  | go party now =>
      cases party with
      | worker =>
          obtain ⟨d', hl⟩ := h.goWorker now
          exact ⟨d', k, hl⟩
      | caller n =>
          by_cases hn : s.closer = some n
          · exact ⟨d, h.goCloser hn now⟩
          · exact ⟨d, h.goOther hn now (hreserved.resolve_left hn)⟩
  | answer party verdict =>
      cases party with
      | worker =>
          obtain ⟨d', hl⟩ := h.answerWorker verdict
          exact ⟨d', k, hl⟩
      | caller n => exact ⟨d, h.answerCaller n verdict⟩

end Watched

end WithCallers

end Cache

end RecordStore
