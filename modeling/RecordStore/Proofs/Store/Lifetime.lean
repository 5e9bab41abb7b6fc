import RecordStore.Proofs.Store.Logged

/-!
# How a store begins and ends

The components of a store are its *parts*: the cache, if there is one, and then the backends.  A
start goes through the parts in order and ends at the first that fails (`exchanges_init`).  A
shutdown goes through all of them whatever happens, and then tells the listeners
(`exchanges_shutdown`).  Both report the first failure, with the name of the part.

With many clients, whatever the components do, the store is shut down once.  Of several shutdowns
the one that closes the store does all the work, and the others are refused.  Everything that begins
later is refused as well, and changes nothing (`LoggedStore.lifecycle_run`).
-/

namespace RecordStore

/-! ## Who is told of what -/

namespace Listener

mutual

/-- The leaves of a tree in order: their numbers, and whether they are quiet. -/
def seats : Listener → List (Nat × Bool)
  | leaf number quiet => [(number, quiet)]
  | group members => seatsOf members

/-- The leaves of several trees. -/
def seatsOf : List Listener → List (Nat × Bool)
  | [] => []
  | l :: rest => l.seats ++ seatsOf rest

end

mutual

/-- A notice reaches every leaf that does not ignore it, once and in order. -/
theorem notify_eq_seats (n : Notice) : ∀ l : Listener, l.notify n
    = (l.seats.filter fun seat => !ignores seat.2 n).map fun seat => ⟨seat.1, n⟩
  | leaf number quiet => by
      rw [notify, seats, List.filter_singleton]
      cases ignores quiet n <;> rfl
  | group members => by rw [notify, seats, notifyAll_eq_seatsOf n members]

theorem notifyAll_eq_seatsOf (n : Notice) : ∀ ls : List Listener, notifyAll n ls
    = ((seatsOf ls).filter fun seat => !ignores seat.2 n).map fun seat => ⟨seat.1, n⟩
  | [] => rfl
  | l :: rest => by
      rw [notifyAll, seatsOf, List.filter_append, List.map_append, notify_eq_seats n l,
        notifyAll_eq_seatsOf n rest]

end

end Listener

namespace Store

open Bench (StoreStep Value)
open Program (Exchange)

/-! ## Parts -/

/-- A component of a store. -/
inductive Part where
  | cache (name : String)
  | backend (index : Nat) (name : String)

namespace Part

def name : Part → String
  | cache name | backend _ name => name

def ask (call : Call) : Part → Prog call.Outcome
  | cache _ => Store.ask (.cache call)
  | backend index _ => Store.ask (.backend index call)

/-- A call on a part, with what the part gave back. -/
def exchange (part : Part) (call : Call) (outcome : call.Outcome) : Exchange Effects :=
  match part with
  | cache _ => ⟨.cache call, outcome⟩
  | backend index _ => ⟨.backend index call, outcome⟩

end Part

/-- The parts of a store in the order in which they are started. -/
def Layout.parts (l : Layout) : List Part :=
  l.cache.toList.map .cache ++ l.numbered.map fun b => .backend b.1 b.2

/-- The same call on one part after the other. -/
def visits (call : Call) (parts : List Part) (outcomes : List call.Outcome) :
    List (Exchange Effects) :=
  (parts.zip outcomes).map fun visit => visit.1.exchange call visit.2

/-- The first failure of parts. -/
def firstFailed? (visited : List (Part × Except Failure Unit)) : Option Error :=
  visited.findSome? fun visit => firstFailure visit.1.name none visit.2

/-- The result of a start or a shutdown. -/
def settlement : Option Error → Result Unit
  | none => .ok ()
  | some e => .error e

/-- What is given back after parts were visited: the name of the first that failed, with its
failure, or nothing. -/
def summary (parts : List Part) (outcomes : List (Except Failure Unit)) : Value :=
  .ofResult (fun _ => .unit) (settlement (firstFailed? (parts.zip outcomes)))

/-- Outcomes of parts of which only the last may be a failure, and where all parts are visited if
there is none. -/
structure StopsAtFailure (parts : List Part) (outcomes : List (Except Failure Unit)) : Prop where
  length_le : outcomes.length ≤ parts.length
  succeeded : ∀ outcome ∈ outcomes.dropLast, outcome = .ok ()
  complete : (∀ outcome ∈ outcomes, outcome = .ok ()) → outcomes.length = parts.length

/-! ### Starts and shutdowns by parts -/

/-- Starts parts in their order, up to the first failure. -/
def startAll : List Part → Prog (Result Unit)
  | [] => return .ok ()
  | part :: rest => do
      match ← part.ask .init with
      | .error e => return .error (.lifecycle part.name e)
      | .ok () => startAll rest

theorem initBackends_eq (numbered : List (Nat × String)) :
    initBackends numbered = startAll (numbered.map fun b => .backend b.1 b.2) := by
  induction numbered with
  | nil => rfl
  | cons b rest ih =>
      rw [initBackends, List.map_cons, startAll, ih]
      refine congrArg (Program.bind (ask (.backend b.1 .init))) (funext fun outcome => ?_)
      cases outcome <;> rfl

theorem init_eq (l : Layout) : init l = opened (startAll l.parts) := by
  rw [init, Layout.parts, initBackends_eq]
  cases l.cache with
  | none => rfl
  | some name =>
      rw [Option.toList_some, List.map_singleton, List.singleton_append, startAll]
      refine congrArg opened (congrArg (Program.bind (ask (.cache .init)))
        (funext fun outcome => ?_))
      cases outcome <;> rfl

/-- Shuts parts down in their order, and gives the first failure. -/
def stopAll (failure : Option Error) : List Part → Prog (Option Error)
  | [] => return failure
  | part :: rest => do
      let outcome ← part.ask .shutdown
      stopAll (firstFailure part.name failure outcome) rest

theorem shutdownBackends_eq (failure : Option Error) (numbered : List (Nat × String)) :
    shutdownBackends failure numbered
      = stopAll failure (numbered.map fun b => .backend b.1 b.2) := by
  induction numbered generalizing failure with
  | nil => rfl
  | cons b rest ih =>
      rw [shutdownBackends, List.map_cons, stopAll]
      simp only [ih]
      rfl

/-- What a shutdown does once it has closed the store. -/
def close (l : Layout) : Prog (Result Unit) := do
  let failure ← stopAll none l.parts
  ask (.notify .shutdown)
  return settlement failure

theorem shutdown_eq (l : Layout) :
    shutdown l = (ask .close).bind fun wasOpen =>
      if wasOpen = true then close l else .done (.error .closed) := by
  simp only [shutdown, shutdownBackends_eq]
  refine congrArg (Program.bind (ask .close)) (funext fun wasOpen => ?_)
  have hrest : ∀ parts failure, (stopAll failure parts).bind
      (fun failure => (ask (.notify .shutdown)).bind fun _ =>
        match failure with
        | none => (return .ok () : Prog (Result Unit))
        | some e => return .error e)
      = (stopAll failure parts).bind fun failure =>
          (ask (.notify .shutdown)).bind fun _ => .done (settlement failure) := by
    intro parts failure
    refine congrArg (Program.bind _) (funext fun failure => congrArg (Program.bind _) ?_)
    cases failure <;> rfl
  split
  · rw [close, Layout.parts]
    cases l.cache with
    | none => exact hrest _ none
    | some name =>
        refine congrArg (Program.bind (ask (.cache .shutdown))) (funext fun outcome => ?_)
        exact hrest _ _
  · rfl

section

variable {σ : Type} (reply : (q : Request) → σ → Reply q × σ)

/-- What a part gives back for a call in an environment. -/
def Part.answer (part : Part) (call : Call) (s : σ) : call.Outcome × σ :=
  match part with
  | .cache _ => reply (.cache call) s
  | .backend index _ => reply (.backend index call) s

theorem Part.exchanges_ask {α : Type} (part : Part) (call : Call) (f : call.Outcome → Prog α)
    (s : σ) : ((part.ask call).bind f).exchanges reply s
      = part.exchange call (part.answer reply call s).1 ::
        (f (part.answer reply call s).1).exchanges reply (part.answer reply call s).2 := by
  cases part <;> rfl

theorem Part.run_ask {α : Type} (part : Part) (call : Call) (f : call.Outcome → Prog α) (s : σ) :
    ((part.ask call).bind f).run reply s
      = (f (part.answer reply call s).1).run reply (part.answer reply call s).2 := by
  cases part <;> rfl

theorem visits_cons (call : Call) (part : Part) (rest : List Part) (outcome : call.Outcome)
    (outcomes : List call.Outcome) : visits call (part :: rest) (outcome :: outcomes)
      = part.exchange call outcome :: visits call rest outcomes := rfl

theorem stopsAtFailure_error (part : Part) (rest : List Part) (e : Failure) :
    StopsAtFailure (part :: rest) [.error e] where
  length_le := by simp
  succeeded := by simp
  complete hall := by cases hall _ (List.mem_singleton_self _)

theorem StopsAtFailure.cons {rest : List Part} {outcomes : List (Except Failure Unit)}
    (h : StopsAtFailure rest outcomes) (part : Part) :
    StopsAtFailure (part :: rest) (.ok () :: outcomes) where
  length_le := Nat.succ_le_succ h.length_le
  succeeded outcome houtcome := by
    cases outcomes with
    | nil => cases houtcome
    | cons o os =>
        rw [List.dropLast_cons_cons, List.mem_cons] at houtcome
        rcases houtcome with rfl | houtcome
        · rfl
        · exact h.succeeded outcome houtcome
  complete hall := congrArg (· + 1) (h.complete fun outcome houtcome =>
    hall outcome (List.mem_cons_of_mem _ houtcome))

/-- Parts are started up to the first that fails. -/
theorem exchanges_startAll (parts : List Part) (s : σ) :
    ∃ outcomes, StopsAtFailure parts outcomes ∧
      (startAll parts).exchanges reply s = visits .init parts outcomes ∧
      ((startAll parts).run reply s).1 = settlement (firstFailed? (parts.zip outcomes)) := by
  induction parts generalizing s with
  | nil => exact ⟨[], ⟨Nat.le_refl _, by simp, by simp⟩, rfl, rfl⟩
  | cons part rest ih =>
      have hasked : (startAll (part :: rest)).exchanges reply s = _ :=
        part.exchanges_ask reply .init _ s
      have hrun : (startAll (part :: rest)).run reply s = _ := part.run_ask reply .init _ s
      rw [hasked, hrun]
      cases (part.answer reply .init s).1 with
      | error e =>
          refine ⟨[.error e], stopsAtFailure_error part rest e, ?_, rfl⟩
          rw [visits_cons, visits, List.zip_nil_right]
          rfl
      | ok _ =>
          obtain ⟨outcomes, hstops, hvisits, hresult⟩ := ih (part.answer reply .init s).2
          exact ⟨.ok () :: outcomes, hstops.cons part, congrArg _ hvisits, hresult⟩

/-- Every part is shut down, whatever became of those before. -/
theorem exchanges_stopAll (failure : Option Error) (parts : List Part) (s : σ) :
    ∃ outcomes : List (Except Failure Unit), outcomes.length = parts.length ∧
      (stopAll failure parts).exchanges reply s = visits .shutdown parts outcomes ∧
      ((stopAll failure parts).run reply s).1
        = failure.or (firstFailed? (parts.zip outcomes)) := by
  induction parts generalizing failure s with
  | nil => exact ⟨[], rfl, rfl, (Option.or_none).symm⟩
  | cons part rest ih =>
      have hasked : (stopAll failure (part :: rest)).exchanges reply s = _ :=
        part.exchanges_ask reply .shutdown _ s
      have hrun : (stopAll failure (part :: rest)).run reply s = _ :=
        part.run_ask reply .shutdown _ s
      obtain ⟨outcomes, hlength, hvisits, hresult⟩ :=
        ih (firstFailure part.name failure (part.answer reply .shutdown s).1)
          (part.answer reply .shutdown s).2
      refine ⟨(part.answer reply .shutdown s).1 :: outcomes, congrArg (· + 1) hlength,
        hasked.trans (congrArg _ hvisits), ?_⟩
      rw [hrun]
      refine hresult.trans ?_
      cases failure with
      | some e => rfl
      | none =>
          cases (part.answer reply .shutdown s).1 with
          | error e => rfl
          | ok _ => rfl

/-! ## The operations -/

/-- A start at an open store goes through the parts in order, up to the first that fails, and gives
back its name and its failure. -/
theorem exchanges_init (l : Layout) {s : σ} (hopen : (reply .isOpen s).1 = true) :
    ∃ outcomes, StopsAtFailure l.parts outcomes ∧
      (StoreStep.init.operation l).exchanges reply s
        = ⟨.isOpen, true⟩ :: visits .init l.parts outcomes ∧
      ((StoreStep.init.operation l).run reply s).1 = summary l.parts outcomes := by
  obtain ⟨outcomes, hstops, hvisits, hresult⟩ :=
    exchanges_startAll reply l.parts (reply .isOpen s).2
  refine ⟨outcomes, hstops, ?_, ?_⟩
  · refine (exchanges_map reply (init l) _ s).trans ?_
    rw [init_eq, exchanges_opened reply hopen, hvisits]
  · refine (run_map reply (init l) _ s).trans ?_
    rw [init_eq, run_opened reply hopen, hresult, summary]

/-- Everything that a shutdown asks which closes the store. -/
def closingOf (l : Layout) (outcomes : List (Except Failure Unit)) : List (Exchange Effects) :=
  ⟨.close, true⟩ :: visits .shutdown l.parts outcomes ++ [⟨.notify .shutdown, ()⟩]

theorem exchanges_close (l : Layout) {s : σ} (hopen : (reply .close s).1 = true) :
    (shutdown l).exchanges reply s = ⟨.close, true⟩ :: (close l).exchanges reply
    (reply .close s).2 := by
  rw [shutdown_eq]
  show ⟨.close, (reply .close s).1⟩ ::
    Program.exchanges reply (if (reply .close s).1 = true then close l else _) _ = _
  rw [hopen, if_pos rfl]

theorem run_close (l : Layout) {s : σ} (hopen : (reply .close s).1 = true) :
    (shutdown l).run reply s = (close l).run reply (reply .close s).2 := by
  rw [shutdown_eq]
  show Program.run reply (if (reply .close s).1 = true then close l else _) _ = _
  rw [if_pos hopen]

/-- The shutdown that closes the store goes through all parts in order, whatever becomes of them,
and then tells the listeners.  It gives back the name and the failure of the first part that
failed. -/
theorem exchanges_shutdown (l : Layout) {s : σ} (hopen : (reply .close s).1 = true) :
    ∃ outcomes : List (Except Failure Unit), outcomes.length = l.parts.length ∧
      (StoreStep.shutdown.operation l).exchanges reply s = closingOf l outcomes ∧
      ((StoreStep.shutdown.operation l).run reply s).1 = summary l.parts outcomes := by
  obtain ⟨outcomes, hlength, hvisits, hresult⟩ :=
    exchanges_stopAll reply none l.parts (reply .close s).2
  have hasked : (close l).exchanges reply (reply .close s).2 = _ :=
    Program.exchanges_bind reply (stopAll none l.parts) _ _
  have hrun : (close l).run reply (reply .close s).2 = _ :=
    Program.run_bind reply (stopAll none l.parts) _ _
  refine ⟨outcomes, hlength, ?_, ?_⟩
  · refine (exchanges_map reply (shutdown l) _ s).trans ?_
    rw [exchanges_close reply l hopen, hasked, hvisits]
    rfl
  · refine (run_map reply (shutdown l) _ s).trans ?_
    rw [run_close reply l hopen, hrun, summary]
    exact congrArg (fun failure => Value.ofResult _ (settlement failure)) hresult

/-- A shutdown reaches every leaf of the listeners that is not quiet, once and in order. -/
theorem deliveries_closingOf (l : Layout) (outcomes : List (Except Failure Unit)) :
    l.deliveries (closingOf l outcomes)
      = (l.listeners.seats.filter fun seat => !seat.2).map fun seat => ⟨seat.1, .shutdown⟩ := by
  have hvisits : l.deliveries (visits .shutdown l.parts outcomes) = [] := by
    rw [visits, Layout.deliveries, List.flatMap_map, List.flatMap_eq_nil_iff]
    rintro ⟨part, outcome⟩ -
    cases part <;> rfl
  rw [closingOf, deliveries_append, Layout.deliveries, List.flatMap_cons]
  refine (congrArg (· ++ _) hvisits).trans ?_
  exact (List.append_nil _).trans (Listener.notify_eq_seats .shutdown l.listeners)

end

/-! ## With many clients -/

theorem operation_eq_ask (l : Layout) (step : StoreStep) :
    ∃ q next, step.operation l = .ask q next := by
  cases step <;> exact ⟨_, _, rfl⟩

/-- Only a shutdown closes the store. -/
theorem closes_of_advances {l : Layout} {step : StoreStep} {asked : List (Exchange Effects)}
    {p : Prog Value} (h : (step.operation l).Advances asked p) {e : Exchange Effects}
    (he : e ∈ asked) (hcloses : e.1.closes = true) : step = .shutdown := by
  by_contra hstep
  have hstays : Stays (fun _ q _ => q.closes = false) () (step.operation l) :=
    .operation hstep rfl (fun _ _ _ => rfl) (fun _ _ _ _ => rfl) (fun _ _ _ _ => rfl) fun _ _ => rfl
  obtain ⟨_, _, hfalse⟩ := hstays.of_mem h he
  rw [hcloses] at hfalse
  cases hfalse

/-- The call on a component, if a request is one. -/
def Request.called? : Request → Option Call
  | .cache call | .backend _ call => some call
  | _ => none

theorem Part.called?_exchange (part : Part) (call : Call) (outcome : call.Outcome) :
    (part.exchange call outcome).1.called? = some call := by
  cases part <;> rfl

/-- Components are called as the operation came to call them. -/
theorem call?_of_advances {l : Layout} {step : StoreStep} {asked : List (Exchange Effects)}
    {p : Prog Value} (h : (step.operation l).Advances asked p) {e : Exchange Effects}
    (he : e ∈ asked) {call : Call} (hcall : e.1.called? = some call) : step.call? = some call := by
  obtain ⟨q, a⟩ := e
  obtain ⟨b, state, hasks⟩ := (obeys_operation l step).of_mem h he
  cases hasks with
  | cache hown | backend hown =>
      rw [← hcall]
      exact hown
  | _ => cases hcall

theorem eq_shutdown_of_call? {step : StoreStep} (h : step.call? = some .shutdown) :
    step = .shutdown := by
  cases step with
  | shutdown => rfl
  | _ => cases h

namespace LoggedStore

variable {σ : Type} {g : LoggedSystem σ} {s : LoggedStore σ} {m n : Nat}

/-- A client shuts the store down: it has closed the store, which was open. -/
def Closes (s : LoggedStore σ) (n : Nat) : Prop :=
  s.operation? n = some .shutdown ∧ ⟨.close, true⟩ ∈ s.asked n

/-- How a store is started and shut down. -/
structure Lifecycle (g : LoggedSystem σ) (s : LoggedStore σ) : Prop where
  /-- Parts are started in order, up to the first that fails. -/
  init : ∀ n, s.operation? n = some .init → s.asked n = [] ∨ s.Refused n ∨
    ∃ outcomes, StopsAtFailure g.layout.parts outcomes ∧
      s.Performs n (⟨.isOpen, true⟩ :: visits .init g.layout.parts outcomes)
        (summary g.layout.parts outcomes)
  /-- A shutdown does all the work, or it is refused. -/
  shutdown : ∀ n, s.operation? n = some .shutdown →
    s.asked n = [] ∨ s.Refused n ∨ s.Closes n
  /-- One shutdown of those that have begun does the work. -/
  one : (∃ n, s.operation? n = some .shutdown ∧ s.asked n ≠ []) → ∃! n, s.Closes n
  /-- All parts are shut down in order, whatever becomes of them, and then the listeners are
  told. -/
  closes : ∀ n, s.Closes n → ∃ outcomes : List (Except Failure Unit),
    outcomes.length = g.layout.parts.length ∧
      s.Performs n (closingOf g.layout outcomes) (summary g.layout.parts outcomes) ∧
      g.layout.deliveries (closingOf g.layout outcomes) =
        (g.layout.listeners.seats.filter fun seat => !seat.2).map fun seat => ⟨seat.1, .shutdown⟩
  /-- Nobody else shuts a part down. -/
  alone : ∀ n (part : Part) outcome, part.exchange .shutdown outcome ∈ s.asked n → s.Closes n
  /-- The store is closed when a shutdown has begun. -/
  closed : s.isOpen = false ↔ ∃ n, s.Closes n
  /-- What begins when the store is closed is refused, whatever happens meanwhile. -/
  late : s.isOpen = false → ∀ n, s.asked n = [] → ∀ events,
    (run g.step s events).asked n = [] ∨ (run g.step s events).Refused n
  /-- It is refused at once, and changes nothing. -/
  unchanged : s.isOpen = false → ∀ n, s.asked n = [] → n < s.clients.length →
    (s.go g n).Refused n ∧ (s.go g n).components = s.components ∧ (s.go g n).isOpen = false

namespace Consistent

/-- If the store is closed, someone shuts it down. -/
theorem exists_closes (h : Consistent g s) (hclosed : s.isOpen = false) : ∃ n, s.Closes n := by
  have hany : s.log.any Line.closes = true := by
    rw [← Bool.not_eq_false, ← Bool.not_eq_true', ← h.isOpen_eq, hclosed]
    exact Bool.false_ne_true
  -- the first line that closes the store
  obtain ⟨⟨n, q, wasOpen⟩, hfind⟩ :=
    Option.isSome_iff_exists.1 (List.find?_isSome.2 (List.any_eq_true.1 hany))
  obtain ⟨hcloses, before, after, hlog, hbefore⟩ := List.find?_eq_some_iff_append.1 hfind
  cases q with
  | close =>
      have hget : s.log[before.length]? = some ⟨n, .close, wasOpen⟩ := by
        rw [hlog, List.getElem?_append_right (Nat.le_refl _), Nat.sub_self, List.getElem?_cons_zero]
      have hopen : wasOpen = true := by
        rw [h.truthful _ _ wasOpen hget rfl, hlog, List.take_left, Bool.not_eq_true',
          List.any_eq_false]
        intro line hline
        simpa using hbefore line hline
      have hmem : (⟨n, .close, wasOpen⟩ : Line) ∈ s.log := List.mem_of_getElem? hget
      obtain ⟨step, hstep⟩ := h.exists_operation? hmem
      obtain ⟨p, -, hadvances⟩ := h.advances_of_operation? hstep
      have hasked : ⟨.close, wasOpen⟩ ∈ s.asked n := mem_asked.2 hmem
      refine ⟨n, ?_, hopen ▸ hasked⟩
      rw [hstep, closes_of_advances hadvances hasked rfl]
  | _ => cases hcloses

theorem isOpen_of_closes (h : Consistent g s) (hn : s.Closes n) : s.isOpen = false := by
  rw [h.isOpen_eq, Bool.not_eq_false', List.any_eq_true]
  exact ⟨_, mem_asked.1 hn.2, rfl⟩

theorem isOpen_of_refused (h : Consistent g s) (hn : s.Refused n) : s.isOpen = false := by
  obtain ⟨step, -, hasked, -⟩ := hn
  obtain ⟨i, hi, -⟩ := exists_first hasked
  -- whoever was refused came after somebody had closed the store
  have hfalse := h.truthful i _ false hi (told?_opens step n false)
  rw [eq_comm, Bool.not_eq_false', List.any_eq_true] at hfalse
  obtain ⟨line, hline, hcloses⟩ := hfalse
  rw [h.isOpen_eq, Bool.not_eq_false', List.any_eq_true]
  exact ⟨line, List.mem_of_mem_take hline, hcloses⟩

/-- The store is closed once. -/
theorem eq_of_closes (h : Consistent g s) (hm : s.Closes m) (hn : s.Closes n) : m = n := by
  obtain ⟨i, hi⟩ := List.mem_iff_getElem?.1 (mem_asked.1 hm.2)
  obtain ⟨j, hj⟩ := List.mem_iff_getElem?.1 (mem_asked.1 hn.2)
  have hij : i = j := Nat.le_antisymm (h.le_of_closes hi rfl hj rfl) (h.le_of_closes hj rfl hi rfl)
  rw [hij, hj] at hi
  exact (congrArg Line.client (Option.some.inj hi)).symm

/-- The shutdown that closes the store begins with that. -/
theorem asked_of_closes (h : Consistent g s) (hn : s.Closes n) :
    ∃ rest, s.asked n = StoreStep.shutdown.opens true :: rest := by
  rcases h.opening hn.1 with hnone | ⟨step, hstep, hfalse, -⟩ | hrest
  · rw [Closes, hnone] at hn
    cases hn.2
  · rw [hn.1] at hstep
    obtain rfl := Option.some.inj hstep
    rw [Closes, hfalse] at hn
    cases List.mem_singleton.1 hn.2
  · exact hrest

/-- What an operation calls a component with. -/
theorem call?_eq (h : Consistent g s) {e : Exchange Effects} (he : e ∈ s.asked n) {call : Call}
    (hcall : e.1.called? = some call) {step : StoreStep} (hstep : s.operation? n = some step) :
    step.call? = some call := by
  obtain ⟨p, -, hadvances⟩ := h.advances_of_operation? hstep
  exact call?_of_advances hadvances he hcall

theorem closes_of_shutdown (h : Consistent g s) {part : Part} {outcome : Except Failure Unit}
    (he : part.exchange .shutdown outcome ∈ s.asked n) : s.Closes n := by
  obtain ⟨step, hstep⟩ := h.exists_operation? (mem_asked.1 he)
  obtain rfl := eq_shutdown_of_call? (h.call?_eq he (part.called?_exchange _ _) hstep)
  rcases h.opening hstep with hnone | ⟨step', hstep', hfalse, -⟩ | ⟨rest, hrest⟩
  · rw [hnone] at he
    cases he
  · -- a shutdown that was refused has called nothing
    rw [hstep] at hstep'
    obtain rfl := Option.some.inj hstep'
    rw [hfalse] at he
    have hcalled := part.called?_exchange .shutdown outcome
    rw [List.mem_singleton.1 he] at hcalled
    cases hcalled
  · exact ⟨hstep, hrest ▸ List.mem_cons_self⟩

/-- What begins when the store is closed is refused. -/
theorem late (h : Consistent g s) (hclosed : s.isOpen = false) (hn : s.asked n = [])
    (events : List Event) :
    (run g.step s events).asked n = [] ∨ (run g.step s events).Refused n := by
  have hlater := h.along_run events
  obtain ⟨m, hm⟩ := h.exists_closes hclosed
  obtain ⟨j, hj⟩ := List.mem_iff_getElem?.1 (mem_asked.1 hm.2)
  obtain ⟨more, hmore⟩ := log_run g s events
  have hearlier : ∀ {i : Nat} {line : Line}, s.log[i]? = some line →
      (run g.step s events).log[i]? = some line := by
    intro i line hi
    rw [← hmore, List.getElem?_append_left (List.getElem?_eq_some_iff.1 hi).1, hi]
  cases hop : (run g.step s events).operation? n with
  | none => exact Or.inl (hlater.asked_of_operation?_eq_none hop)
  | some step =>
      rcases hlater.opening hop with hnone | hrefused | ⟨rest, hrest⟩
      · exact Or.inl hnone
      · exact Or.inr hrefused
      · -- it would have found the store open before it was closed
        obtain ⟨i, hi, -⟩ := exists_first hrest
        have hle : i ≤ j := hlater.le_of_closes hi (told?_opens step n true) (hearlier hj) rfl
        have hlt : i < s.log.length := by
          have := (List.getElem?_eq_some_iff.1 hj).1
          omega
        rw [← hmore, List.getElem?_append_left hlt] at hi
        have hmem : step.opens true ∈ s.asked n := mem_asked.2 (List.mem_of_getElem? hi)
        rw [hn] at hmem
        cases hmem

theorem unchanged (h : Consistent g s) (hclosed : s.isOpen = false) (hn : s.asked n = [])
    (hknown : n < s.clients.length) :
    (s.go g n).Refused n ∧ (s.go g n).components = s.components ∧ (s.go g n).isOpen = false := by
  obtain ⟨-, hnone⟩ | ⟨step, q, next, hclient, heq⟩ := go_cases g s n
  · -- a client that has asked nothing has something to ask
    have hadvances := h.advances n _ (List.getElem?_eq_getElem hknown)
    obtain ⟨q, next, hop⟩ := operation_eq_ask g.layout s.clients[n].step
    rw [hn] at hadvances
    refine absurd ?_ (hnone s.clients[n].step q next)
    rw [← hop, ← hadvances.eq_of_nil]
    exact List.getElem?_eq_getElem hknown
  · have hasked : (s.go g n).asked n = [⟨q, (s.reply g q).1⟩] := by
      rw [heq, asked, askedIn_concat, if_pos rfl]
      exact congrArg (· ++ _) hn
    have hrefused : (s.go g n).Refused n := by
      rcases h.late hclosed hn [.go n] with hnone | hrefused
      · rw [show (s.go g n).asked n = [] from hnone] at hasked
        cases hasked
      · exact hrefused
    refine ⟨hrefused, ?_, ?_⟩
    · -- all that it asks is whether the store is open
      obtain ⟨step', -, hopens, -⟩ := hrefused
      rw [hasked] at hopens
      have hq : q = (step'.opens false).1 := congrArg Sigma.fst (List.cons.inj hopens).1
      rw [heq]
      show (s.reply g q).2 = s.components
      rw [hq]
      cases step' <;> rfl
    · rw [heq, hclosed]
      rfl

theorem lifecycle (h : Consistent g s) : Lifecycle g s where
  init n hn := by
    rcases h.opening hn with hnone | hrefused | ⟨rest, hrest⟩
    · exact Or.inl hnone
    · exact Or.inr (Or.inl hrefused)
    · obtain ⟨τ, reply, t, hopen, hperforms⟩ := h.performs hn hrest
      obtain ⟨outcomes, hstops, hasked, hvalue⟩ := exchanges_init reply g.layout hopen
      rw [hasked, hvalue] at hperforms
      exact Or.inr (Or.inr ⟨outcomes, hstops, hperforms⟩)
  shutdown n hn := by
    rcases h.opening hn with hnone | hrefused | ⟨rest, hrest⟩
    · exact Or.inl hnone
    · exact Or.inr (Or.inl hrefused)
    · refine Or.inr (Or.inr ⟨hn, ?_⟩)
      rw [hrest]
      exact List.mem_cons_self
  one := by
    rintro ⟨n, hn, hasked⟩
    obtain ⟨m, hm⟩ : ∃ m, s.Closes m := by
      refine h.exists_closes ?_
      -- whoever has begun to shut the store down has left it closed
      have hcloses : ∃ e ∈ s.asked n, e.1.closes = true := by
        rcases h.opening hn with hnone | ⟨step, hstep, hfalse, -⟩ | ⟨rest, hrest⟩
        · exact absurd hnone hasked
        · rw [hn] at hstep
          obtain rfl := Option.some.inj hstep
          exact ⟨_, hfalse ▸ List.mem_singleton_self _, rfl⟩
        · exact ⟨_, hrest ▸ List.mem_cons_self, rfl⟩
      obtain ⟨e, he, hcloses⟩ := hcloses
      rw [h.isOpen_eq, Bool.not_eq_false', List.any_eq_true]
      exact ⟨_, mem_asked.1 he, hcloses⟩
    exact ⟨m, hm, fun k hk => h.eq_of_closes hk hm⟩
  closes n hn := by
    obtain ⟨rest, hrest⟩ := h.asked_of_closes hn
    obtain ⟨τ, reply, t, hopen, hperforms⟩ := h.performs hn.1 hrest
    obtain ⟨outcomes, hlength, hasked, hvalue⟩ := exchanges_shutdown reply g.layout hopen
    rw [hasked, hvalue] at hperforms
    exact ⟨outcomes, hlength, hperforms, deliveries_closingOf g.layout outcomes⟩
  alone _ _ _ he := h.closes_of_shutdown he
  closed := ⟨h.exists_closes, fun ⟨_, hn⟩ => h.isOpen_of_closes hn⟩
  late hclosed _ hn := h.late hclosed hn
  unchanged hclosed _ hn := h.unchanged hclosed hn

end Consistent

end LoggedStore

end Store

end RecordStore
