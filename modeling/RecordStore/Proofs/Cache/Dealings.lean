import RecordStore.Proofs.Cache.Duties

/-!
# What callers have to do with the worker

Callers hand tasks to the worker under tickets that they draw, each only under a ticket of its own.
Whoever requests a pass for an admission notes that first.  From then on it *holds* the request,
until the request is in the queue of the worker or the note is taken back.  If it was noted before
that a pass is requested, then it has nothing more to do.

`Dealing` says where a caller is with this, and all their programs keep to it
(`Errand.obeys_asks`).  The rest of what they ask leaves the worker, its queue and the tickets
alone.
-/

namespace RecordStore

namespace Cache

open Service (Prog)

/-! ## What is apart from the worker -/

/-- Whether a request leaves the worker, its queue and the tickets alone. -/
def Request.isApart : Request → Bool
  | .isClosed | .close | .beginEviction | .beginFlush | .finishBatch _ | .dropWritten _
  | .failEviction | .empty | .isFull | .isAttached | .join | .backend _ => true
  | _ => false

/-- Whether a request is about the note that a pass is requested, from the side of a caller. -/
def Request.isNotice : Request → Bool
  | .noteRequest | .queueRequest | .withdrawRequest => true
  | _ => false

theorem Running.reply?_of_isApart (r : Running) (caller now : Nat) {q : Request}
    (hq : q.isApart = true) :
    (r.reply? caller now q).2 = { r with cache := (r.reply? caller now q).2.cache } := by
  cases q with
  | join =>
      simp only [reply?]
      split
      · split <;> rfl
      · rfl
  | isClosed | close | beginEviction | beginFlush | finishBatch | dropWritten | failEviction
  | empty | isFull | isAttached | backend => rfl
  | _ => cases hq

/-- A program that has nothing to do with the worker. -/
def Service.Apart {α : Type} (p : Prog α) : Prop :=
  p.Obeys (fun (_ : Unit) (q : Request) _ => q.isApart = true) (fun _ _ => True) ()

namespace Service

theorem apart_writeBatch (name : String) (p : Pass) : Apart (writeBatch name p) := by
  have hobeys := @obeys_writeBatch Unit (fun _ => ()) (fun _ => ()) ()
    (fun _ (q : Request) _ => q.isApart = true) (fun h => by cases h <;> rfl) name p
  exact hobeys.imp fun _ _ _ => trivial

/-- A pass, or what is left of it: it has nothing to do with the worker, and whatever its outcome
is, it is not that the cache was shut down. -/
def IsPass (p : Prog (Except Error Nat)) : Prop :=
  p.Obeys (fun (_ : Unit) (q : Request) _ => q.isApart = true)
    (fun _ outcome => outcome ≠ .error .shutDown) ()

theorem isPass_evictOldest (name : String) : IsPass (evictOldest name) := by
  refine ⟨fun _ => (), rfl, fun p => ?_⟩
  cases p with
  | none => exact nofun
  | some p =>
      refine (apart_writeBatch name p).bind fun _ result _ => ?_
      cases result with
      | error e => exact ⟨fun _ => (), rfl, fun _ => nofun⟩
      | ok a => exact ⟨fun _ => (), rfl, fun _ => nofun⟩

theorem isPass_flushAll (name : String) : IsPass (flushAll name) := by
  refine ⟨fun _ => (), rfl, fun p => ?_⟩
  cases p with
  | none => exact nofun
  | some p =>
      refine (apart_writeBatch name p).bind fun _ result _ => ?_
      cases result <;> exact nofun

theorem IsPass.apart {p : Prog (Except Error Nat)} (h : IsPass p) : Apart p :=
  h.imp fun _ _ _ => trivial

end Service

/-! ## Tickets and requests -/

/-- Where a caller is in its dealings with the worker. -/
inductive Dealing where
  /-- It gives the worker tasks under the ticket that it has drawn, if it has drawn one. -/
  | drawn (ticket? : Option Nat)
  /-- It is to note that a pass is requested. -/
  | due
  /-- It has noted so, and is to put the request into the queue. -/
  | noted
  /-- The request was not accepted, and the note is to be taken back. -/
  | refused

namespace Dealing

def ticket? : Dealing → Option Nat
  | drawn ticket? => ticket?
  | _ => none

def isDue : Dealing → Bool
  | due => true
  | _ => false

/-- Whether a noted request is neither in the queue nor given up. -/
def holds : Dealing → Bool
  | noted | refused => true
  | _ => false

end Dealing

namespace Errand

/-- What a caller asks in its dealings with the worker. -/
inductive Asks : Dealing → (q : Request) → (Reply q → Dealing) → Prop where
  | apart {o : Option Nat} {q : Request} (hq : q.isApart = true) :
    Asks (.drawn o) q fun _ => .drawn o
  | detach {o : Option Nat} : Asks (.drawn o) .detach fun _ => .drawn o
  | draw {o : Option Nat} : Asks (.drawn o) .newTicket fun ticket => .drawn (some ticket)
  | submit {task : Task} {ticket : Nat} (hticket : task.ticket? = some ticket) :
      Asks (.drawn (some ticket)) (.submit task) fun _ => .drawn (some ticket)
  | await {ticket : Nat} :
      Asks (.drawn (some ticket)) (.await ticket) fun _ => .drawn (some ticket)
  | note : Asks .due .noteRequest fun noted => if noted then .drawn none else .noted
  | queue : Asks .noted .queueRequest fun queued => if queued then .drawn none else .refused
  | withdraw : Asks .refused .withdrawRequest fun _ => .drawn none

/-- A caller leaves no request behind. -/
def Ends {α : Type} (d : Dealing) (_ : α) : Prop := ∃ o, d = .drawn o

/-- Where a caller begins. -/
def outset : Errand → Dealing
  | requestPass => .due
  | _ => .drawn none

theorem ticket?_outset (errand : Errand) : errand.outset.ticket? = none := by
  cases errand <;> rfl

theorem obeys_of_apart {α : Type} {p : Prog α} (h : Service.Apart p) (o : Option Nat) :
    p.Obeys Asks (fun d _ => d = .drawn o) (.drawn o) := by
  induction p with
  | done a => rfl
  | ask q next ih =>
      obtain ⟨state, hq, hnext⟩ := h
      exact ⟨_, .apart hq, fun a => ih a (hnext a)⟩

/-- What is done with a task that is submitted under the ticket. -/
theorem obeys_submit {α : Type} {ticket : Nat} {task : Task} (hticket : task.ticket? = some ticket)
    (f : Option (Except Error Nat) → α) (refused : α) :
    Program.Obeys Asks Ends (.drawn (some ticket)) (do
      if ← Service.ask (.submit task) then return f (← Service.ask (.await ticket))
      else return refused : Prog α) := by
  refine ⟨_, .submit hticket, fun accepted => ?_⟩
  cases accepted with
  | true => exact ⟨_, .await, fun _ => ⟨_, rfl⟩⟩
  | false => exact ⟨_, rfl⟩

theorem obeys_flushOut (backendName : String) :
    (Service.flushOut backendName).Obeys Asks Ends (.drawn none) := by
  refine (obeys_of_apart (Service.isPass_flushAll backendName).apart none).bind fun d a hd => ?_
  subst hd
  cases a with
  | error e => exact ⟨_, rfl⟩
  | ok a => exact ⟨_, .apart rfl, fun _ => ⟨_, rfl⟩⟩

/-- Every caller keeps to its dealings with the worker. -/
theorem obeys_asks (backendName : String) (errand : Errand) :
    (errand.program backendName).Obeys Asks Ends errand.outset := by
  have hend : ∀ o, Ends (.drawn o) () := fun o => ⟨o, rfl⟩
  cases errand with
  | writeAll =>
      refine ⟨_, .apart rfl, fun closed => ?_⟩
      cases closed with
      | true => exact ⟨_, rfl⟩
      | false =>
          exact (obeys_of_apart (Service.isPass_flushAll backendName).apart none).imp
            fun _ _ hd => ⟨_, hd⟩
  | evict =>
      refine ⟨_, .apart rfl, fun closed => ?_⟩
      cases closed with
      | true => exact ⟨_, rfl⟩
      | false =>
          refine ⟨_, .apart rfl, fun attached => ?_⟩
          cases attached with
          | false =>
              exact (obeys_of_apart (Service.isPass_evictOldest backendName).apart none).imp
                fun _ _ hd => ⟨_, hd⟩
          | true => exact ⟨_, .draw, fun ticket => obeys_submit rfl _ _⟩
  | waitForEvictions =>
      refine ⟨_, .apart rfl, fun attached => ?_⟩
      cases attached with
      | false => exact hend _
      | true => exact ⟨_, .draw, fun ticket => obeys_submit rfl (fun _ => ()) ()⟩
  | requestPass =>
      refine ⟨_, .note, fun noted => ?_⟩
      cases noted with
      | true => exact hend _
      | false =>
          refine ⟨_, .queue, fun queued => ?_⟩
          cases queued with
          | true => exact hend _
          | false => exact ⟨_, .withdraw, fun _ => hend _⟩
  | shutdown =>
      refine ⟨_, .apart rfl, fun closed => ?_⟩
      cases closed with
      | true => exact ⟨_, rfl⟩
      | false =>
          refine ⟨_, .detach, fun attached => ?_⟩
          cases attached with
          | true => exact ⟨_, .apart rfl, fun _ => obeys_flushOut backendName⟩
          | false => exact obeys_flushOut backendName

end Errand

/-! ## Callers that hold a request -/

/-- Whether a caller is just about to note that a pass is requested. -/
def Caller.isDue (c : Caller) : Bool :=
  match WithCallers.request? c.program with
  | some .noteRequest => true
  | _ => false

/-- Whether a caller has noted that a pass is requested, and the request is neither in the queue nor
given up. -/
def Caller.holds (c : Caller) : Bool :=
  match WithCallers.request? c.program with
  | some .queueRequest | some .withdrawRequest => true
  | _ => false

/-- Who holds a request is about to put it into the queue, or to take the note back. -/
theorem Caller.asks_of_holds {errand : Errand} {q : Request} {next : Reply q → Prog errand.Answer}
    (h : Caller.holds ⟨errand, .ask q next⟩ = true) : q = .queueRequest ∨ q = .withdrawRequest := by
  cases q with
  | queueRequest => exact Or.inl rfl
  | withdrawRequest => exact Or.inr rfl
  | _ => cases h

/-- What a program asks tells where it is. -/
theorem Caller.dealing_eq {c : Caller} {d : Dealing}
    (h : c.program.Obeys Errand.Asks Errand.Ends d) : c.isDue = d.isDue ∧ c.holds = d.holds := by
  obtain ⟨errand, program⟩ := c
  cases program with
  | done a =>
      obtain ⟨o, rfl⟩ := h
      exact ⟨rfl, rfl⟩
  | ask q next =>
      obtain ⟨state, hasks, -⟩ := h
      cases hasks with
      | @apart o q hq =>
          cases q with
          | noteRequest | queueRequest | withdrawRequest => cases hq
          | _ => exact ⟨rfl, rfl⟩
      | _ => exact ⟨rfl, rfl⟩

/-- A caller that only requests a pass. -/
structure Caller.Requests (c : Caller) : Prop where
  errand : c.errand = .requestPass
  program : c.program.Obeys (fun (_ : Unit) (q : Request) _ => q.isNotice = true)
    (fun _ _ => True) ()

namespace Caller

theorem requests_requestPass : Requests ⟨.requestPass, Service.requestPass⟩ where
  errand := rfl
  program := by
    refine ⟨fun _ => (), rfl, fun noted => ?_⟩
    cases noted with
    | true => trivial
    | false =>
        refine ⟨fun _ => (), rfl, fun queued => ?_⟩
        cases queued with
        | true => trivial
        | false => exact ⟨fun _ => (), rfl, fun _ => trivial⟩

variable {errand : Errand} {q : Request}

theorem Requests.next {next : Reply q → Prog errand.Answer} (h : Requests ⟨errand, .ask q next⟩)
    (a : Reply q) : Requests ⟨errand, next a⟩ := by
  obtain ⟨state, -, hnext⟩ := h.program
  exact ⟨h.errand, hnext a⟩

theorem Requests.isNotice {next : Reply q → Prog errand.Answer}
    (h : Requests ⟨errand, .ask q next⟩) : q.isNotice = true := by
  obtain ⟨state, hq, -⟩ := h.program
  exact hq

end Caller

namespace WithCallers

/-- The number of callers that are about to note that a pass is requested. -/
def due (s : WithCallers) : Nat := s.callers.countP Caller.isDue

/-- The number of callers that hold a request. -/
def held (s : WithCallers) : Nat := s.callers.countP Caller.holds

variable {g : CallerSystem} {s : WithCallers} {e : Event} {n : Nat}

/-! ## How a caller gets on -/

/-- What an event does to the program of a caller. -/
inductive Moves (s : WithCallers) (n : Nat) (e : Event) (s' : WithCallers) {α : Type} :
    Prog α → Prog α → Prop where
  /-- The caller does not get on. -/
  | stays {p : Prog α} (hwaits : ∀ now, e = .go (.caller n) now → ∀ q, request? p = some q →
      (s.running.reply? (n + 1) now q).1 = none) : Moves s n e s' p p
  /-- The cache replies. -/
  | reply {q : Request} {next : Reply q → Prog α} {a : Reply q} {now : Nat}
      (he : e = .go (.caller n) now)
      (hr : s.running.reply? (n + 1) now q = (some a, s'.running)) :
      Moves s n e s' (.ask q next) (next a)
  /-- The backend answers. -/
  | answer {call : Call} {next : Reply (.backend call) → Prog α} (a : call.Outcome) :
      Moves s n e s' (.ask (.backend call) next) (next a)

/-- A caller that is there stays there with its errand, and its program makes a move. -/
theorem moves_step (g : CallerSystem) (e : Event) {errand : Errand} {p : Prog errand.Answer}
    (hc : s.callers[n]? = some ⟨errand, p⟩) : ∃ p',
      (g.step s e).callers[n]? = some ⟨errand, p'⟩ ∧ Moves s n e (g.step s e) p p' := by
  have hn := (List.getElem?_eq_some_iff.1 hc).1
  by_cases hgo : ∃ now, e = .go (.caller n) now
  · obtain ⟨now, rfl⟩ := hgo
    cases p with
    | done a =>
        refine ⟨.done a, ?_, .stays fun _ _ q hq => by cases hq⟩
        simp only [CallerSystem.step, goCaller, hc]
    | ask q next =>
        simp only [CallerSystem.step, goCaller, hc]
        split
        next a running hr => exact ⟨_, List.getElem?_set_self hn, .reply rfl hr⟩
        next running hr =>
          refine ⟨_, hc, .stays fun now' hnow q' hq => ?_⟩
          cases hnow
          cases hq
          rw [hr]
  · -- the caller does not get on by itself, so only the backend may move it
    have hstays : Moves s n e (g.step s e) p p :=
      .stays fun now he => absurd ⟨now, he⟩ hgo
    have htouches := touches_step g s e
    generalize g.step s e = s' at hstays htouches ⊢
    cases htouches with
    | aside hcallers | own call hcallers | answerWorker verdict hw hcallers =>
        exact ⟨p, hcallers ▸ hc, hstays⟩
    | offer hcallers | begin errand' hcallers =>
        refine ⟨p, ?_, hstays⟩
        rw [hcallers, List.getElem?_append_left hn]
        exact hc
    | @go m now errand' q next a running hm hr hcallers =>
        have hmn : m ≠ n := by
          rintro rfl
          exact hgo ⟨now, rfl⟩
        refine ⟨p, ?_, hstays⟩
        rw [hcallers, List.getElem?_set_ne hmn]
        exact hc
    | @answerCaller m errand' call next verdict hm hcallers =>
        by_cases hmn : m = n
        · subst hmn
          cases hc.symm.trans hm
          refine ⟨_, ?_, .answer (verdict.outcome call)⟩
          rw [hcallers, List.getElem?_set_self hn]
        · refine ⟨p, ?_, hstays⟩
          rw [hcallers, List.getElem?_set_ne hmn]
          exact hc

end WithCallers

end Cache

end RecordStore
