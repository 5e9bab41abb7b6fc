import Mathlib.Data.List.Basic
import RecordStore.Bench.Step

/-!
# What a write asks for

A program that runs in an environment exchanges requests for replies.  `Program.exchanges` lists
them, the earliest first.

A write to a store tells the cache, sends one call to every backend in order, and reports on what
the backends made of it (`Store.FansOut`).  The environment may be anything: the reply to a request
may depend on what was asked before, and on what others do meanwhile.
-/

namespace RecordStore

namespace Program

variable {I : Interface} {α β σ : Type}

/-- A request with its reply. -/
abbrev Exchange (I : Interface) := (r : I.Request) × I.Reply r

/-- What a program asks in an environment, with the replies. -/
def exchanges (reply : (r : I.Request) → σ → I.Reply r × σ) : Program I α → σ → List (Exchange I)
  | done _, _ => []
  | ask r next, s => ⟨r, (reply r s).1⟩ :: (next (reply r s).1).exchanges reply (reply r s).2

theorem exchanges_bind (reply : (r : I.Request) → σ → I.Reply r × σ) (p : Program I α)
    (f : α → Program I β) (s : σ) :
    (p.bind f).exchanges reply s
      = p.exchanges reply s ++ (f (p.run reply s).1).exchanges reply (p.run reply s).2 := by
  induction p generalizing s with
  | done a => rfl
  | ask r next ih => simp only [bind, exchanges, run, ih, List.cons_append]

end Program

/-! ## Notices of a change -/

namespace Listener

mutual

/-- The numbers of the leaves of a tree, in order. -/
def leaves : Listener → List Nat
  | leaf number _ => [number]
  | group members => leavesOf members

/-- The numbers of the leaves of several trees. -/
def leavesOf : List Listener → List Nat
  | [] => []
  | l :: rest => l.leaves ++ leavesOf rest

end

mutual

/-- A notice that no leaf ignores reaches every leaf once. -/
theorem notify_eq_leaves {n : Notice} (hn : ∀ quiet, ignores quiet n = false) :
    ∀ l : Listener, l.notify n = l.leaves.map fun number => ⟨number, n⟩
  | leaf number quiet => by simp [notify, hn, leaves]
  | group members => by rw [notify, leaves, notifyAll_eq_leavesOf hn members]

theorem notifyAll_eq_leavesOf {n : Notice} (hn : ∀ quiet, ignores quiet n = false) :
    ∀ ls : List Listener, notifyAll n ls = (leavesOf ls).map fun number => ⟨number, n⟩
  | [] => rfl
  | l :: rest => by
      rw [notifyAll, leavesOf, List.map_append, notify_eq_leaves hn l,
        notifyAll_eq_leavesOf hn rest]

end

end Listener

namespace Call

/-- Whether an outcome is an answer that says yes. -/
def accepts {call : Call} (accepted : call.Answer → Bool) : call.Outcome → Bool
  | .ok a => accepted a
  | .error _ => false

/-- Whether an answer accepts a write.  An answer that cannot refuse accepts nothing. -/
def accepted : (call : Call) → call.Answer → Bool
  | save _ _, b | saveBatch _, b | update _ _ _, b => b
  | _, _ => false

end Call

namespace Bench.StoreStep

/-- The call that a step sends to every backend, if it does that. -/
def sends? : StoreStep → Option Call
  | save record key => some (.save record key)
  | saveBatch entries => some (.saveBatch entries)
  | update record key reason => some (.update record key reason)
  | delete kind key => some (.delete kind key)
  | deleteBatch ids => some (.deleteBatch ids)
  | clearTable kind => some (.clear kind)
  | clearMetadata kind => some (.clearMetadata kind)
  | _ => none

/-- Whether a step sends its call to the cache first. -/
def tellsCache : StoreStep → Bool
  | clearTable _ | clearMetadata _ => false
  | _ => true

/-- What the listeners are told when no backend failed a step. -/
def notices : StoreStep → List Notice
  | update record key reason => [.change key record reason]
  | _ => []

end Bench.StoreStep

namespace Store

open Bench (StoreStep Value)
open Program (Exchange)

/-! ## What is reported -/

variable {call : Call}

/-- The failures among outcomes, in their order. -/
def failures (outcomes : List call.Outcome) : List Failure :=
  outcomes.filterMap fun
    | .ok _ => none
    | .error e => some e

theorem failures_cons_ok (a : call.Answer) (outcomes : List call.Outcome) :
    failures (.ok a :: outcomes) = failures outcomes := rfl

theorem failures_cons_error (e : Failure) (outcomes : List call.Outcome) :
    @failures call (.error e :: outcomes) = e :: failures outcomes := rfl

/-- The value of a call that backends have dealt with: how many of them failed, with the cause of
the first failure, or else the answer.  A call that can be refused was accepted if any backend
accepted it. -/
def report (call : Call) (outcomes : List call.Outcome) : Value :=
  match failures outcomes with
  | cause :: more => .storeError (.fanOut (more.length + 1) outcomes.length cause)
  | [] =>
      match call.refusal? with
      | some _ => .bool (outcomes.any (Call.accepts call.accepted))
      | none => .unit

/-- What became of a call at backends. -/
def Tally.ofOutcomes (accepted : call.Answer → Bool) (outcomes : List call.Outcome) : Tally where
  failed := (failures outcomes).length
  first := (failures outcomes).head?
  accepted := outcomes.any (Call.accepts accepted)

/-- Adding outcomes one after the other counts all failures and keeps the first. -/
theorem Tally.foldl_add (accepted : call.Answer → Bool) (outcomes : List call.Outcome) (t : Tally) :
    outcomes.foldl (fun t outcome => t.add (outcome.map accepted)) t =
      { failed := t.failed + (failures outcomes).length
        first := t.first.or (failures outcomes).head?
        accepted := t.accepted || outcomes.any (Call.accepts accepted) } := by
  induction outcomes generalizing t with
  | nil => simp [failures]
  | cons outcome rest ih =>
      rw [List.foldl_cons, ih]
      cases outcome with
      | ok a =>
          simp only [Except.map, Tally.add, failures_cons_ok, List.any_cons, Call.accepts,
            Bool.or_assoc]
      | error e =>
          simp only [Except.map, Tally.add, failures_cons_error, List.any_cons, Call.accepts,
            Bool.false_or, List.length_cons, List.head?_cons, Nat.add_assoc, Nat.add_comm 1]
          cases t.first <;> simp

theorem Tally.foldl_add_empty (accepted : call.Answer → Bool) (outcomes : List call.Outcome) :
    outcomes.foldl (fun (t : Tally) outcome => t.add (outcome.map accepted)) {}
      = .ofOutcomes accepted outcomes := by
  rw [Tally.foldl_add, Tally.ofOutcomes]
  simp

/-! ## What is asked -/

/-- The call on every backend in order, with what they gave back. -/
def sends (l : Layout) (outcomes : List call.Outcome) : List (Exchange Effects) :=
  (l.indices.zip outcomes).map fun sent => ⟨.backend sent.1 call, sent.2⟩

section

variable {σ α β : Type} (reply : (q : Request) → σ → Reply q × σ)

theorem exchanges_map (p : Prog α) (f : α → β) (s : σ) :
    (p.bind fun a => .done (f a)).exchanges reply s = p.exchanges reply s := by
  rw [Program.exchanges_bind]
  exact List.append_nil _

theorem run_map (p : Prog α) (f : α → β) (s : σ) :
    ((p.bind fun a => .done (f a)).run reply s).1 = f (p.run reply s).1 := by
  rw [Program.run_bind]
  rfl

/-- Every backend is sent the call, whatever became of it at those before. -/
theorem exchanges_sendAll (accepted : call.Answer → Bool) (t : Tally) (indices : List Nat) (s : σ) :
    ∃ outcomes : List call.Outcome, outcomes.length = indices.length ∧
      (sendAll call accepted t indices).exchanges reply s
        = (indices.zip outcomes).map (fun sent => ⟨.backend sent.1 call, sent.2⟩) ∧
      ((sendAll call accepted t indices).run reply s).1
        = outcomes.foldl (fun t outcome => t.add (outcome.map accepted)) t := by
  induction indices generalizing t s with
  | nil => exact ⟨[], rfl, rfl, rfl⟩
  | cons index rest ih =>
      obtain ⟨outcomes, hlength, hasked, hrun⟩ :=
        ih (t.add ((reply (.backend index call) s).1.map accepted))
          (reply (.backend index call) s).2
      refine ⟨(reply (.backend index call) s).1 :: outcomes, ?_, ?_, hrun⟩
      · rw [List.length_cons, hlength, List.length_cons]
      · rw [List.zip_cons_cons, List.map_cons, ← hasked]
        rfl

theorem exchanges_fanOut (l : Layout) (accepted : call.Answer → Bool) (s : σ) :
    ∃ outcomes : List call.Outcome, outcomes.length = l.backends.length ∧
      (fanOut l call accepted).exchanges reply s = sends l outcomes ∧
      ((fanOut l call accepted).run reply s).1
        = (Tally.ofOutcomes accepted outcomes).result outcomes.length := by
  obtain ⟨outcomes, hlength, hasked, hrun⟩ := exchanges_sendAll reply accepted {} l.indices s
  rw [Layout.indices, List.length_range] at hlength
  refine ⟨outcomes, hlength, ?_, ?_⟩
  · exact (exchanges_map reply _ _ s).trans hasked
  · rw [hlength, ← Tally.foldl_add_empty, ← hrun]
    exact run_map reply _ _ s

theorem exchanges_opened {p : Prog (Result α)} {s : σ} (hopen : (reply .isOpen s).1 = true) :
    (opened p).exchanges reply s = ⟨.isOpen, true⟩ :: p.exchanges reply (reply .isOpen s).2 := by
  show ⟨.isOpen, (reply .isOpen s).1⟩ ::
    Program.exchanges reply (if (reply .isOpen s).1 = true then p else _) _ = _
  rw [hopen, if_pos rfl]

theorem run_opened {p : Prog (Result α)} {s : σ} (hopen : (reply .isOpen s).1 = true) :
    (opened p).run reply s = p.run reply (reply .isOpen s).2 := by
  show Program.run reply (if (reply .isOpen s).1 = true then p else _) _ = _
  rw [if_pos hopen]

/-- What a step does at the cache before it goes to the backends. -/
def telling (l : Layout) (tells : Bool) (call : Call) : Prog Unit :=
  if tells then tellCache l call else pure ()

theorem exchanges_telling (l : Layout) (tells : Bool) (call : Call) (s : σ) :
    ∃ told : List call.Outcome, told.length = (if tells && l.cache.isSome then 1 else 0) ∧
      (telling l tells call).exchanges reply s
        = told.map fun outcome => ⟨.cache call, outcome⟩ := by
  cases tells with
  | false => exact ⟨[], rfl, rfl⟩
  | true =>
      simp only [telling, tellCache, Bool.true_and, if_true]
      split
      · exact ⟨[(reply (.cache call) s).1], rfl, rfl⟩
      · exact ⟨[], rfl, rfl⟩

/-- What a write is, with the cache told, and a clear, without. -/
def sending (l : Layout) (tells : Bool) (call : Call) (accepted : call.Answer → Bool) :
    Prog (Result Bool) :=
  opened ((telling l tells call).bind fun _ => fanOut l call accepted)

theorem exchanges_sending (l : Layout) (tells : Bool) {call : Call}
    (accepted : call.Answer → Bool) {s : σ} (hopen : (reply .isOpen s).1 = true) :
    ∃ told outcomes : List call.Outcome,
      told.length = (if tells && l.cache.isSome then 1 else 0) ∧
      outcomes.length = l.backends.length ∧
      (sending l tells call accepted).exchanges reply s
        = ⟨.isOpen, true⟩ :: told.map (fun outcome => ⟨.cache call, outcome⟩) ++ sends l outcomes ∧
      ((sending l tells call accepted).run reply s).1
        = (Tally.ofOutcomes accepted outcomes).result outcomes.length := by
  obtain ⟨told, htold, hcache⟩ := exchanges_telling reply l tells call (reply .isOpen s).2
  obtain ⟨outcomes, hlength, hbackends, hrun⟩ := exchanges_fanOut reply l accepted
    ((telling l tells call).run reply (reply .isOpen s).2).2
  refine ⟨told, outcomes, htold, hlength, ?_, ?_⟩
  · rw [sending, exchanges_opened reply hopen, Program.exchanges_bind, hcache, hbackends,
      List.cons_append]
  · rw [sending, run_opened reply hopen, Program.run_bind, hrun]

end

/-! ## Reports -/

theorem Tally.result_ofOutcomes (accepted : call.Answer → Bool) (outcomes : List call.Outcome) :
    (Tally.ofOutcomes accepted outcomes).result outcomes.length =
      match failures outcomes with
      | cause :: more => .error (.fanOut (more.length + 1) outcomes.length cause)
      | [] => .ok (outcomes.any (Call.accepts accepted)) := by
  rw [Tally.result, Tally.ofOutcomes]
  cases failures outcomes <;> rfl

/-- A write that can be refused tells whether any backend accepted it. -/
theorem report_of_refusal {refusal : call.Answer} (h : call.refusal? = some refusal)
    (outcomes : List call.Outcome) :
    Value.ofResult .bool ((Tally.ofOutcomes call.accepted outcomes).result outcomes.length)
      = report call outcomes := by
  rw [Tally.result_ofOutcomes, report, h]
  cases failures outcomes <;> rfl

theorem report_of_no_refusal (h : call.refusal? = none) (accepted : call.Answer → Bool)
    (outcomes : List call.Outcome) :
    Value.ofResult (fun _ => .unit)
        (done ((Tally.ofOutcomes accepted outcomes).result outcomes.length))
      = report call outcomes := by
  rw [Tally.result_ofOutcomes, report, h]
  cases failures outcomes <;> rfl

/-! ## Steps that go to every backend -/

/-- The notices that reach the leaves of the listeners of a store. -/
def Layout.deliveries (l : Layout) (asked : List (Exchange Effects)) : List Delivery :=
  asked.flatMap fun
    | ⟨.notify n, _⟩ => l.listeners.notify n
    | _ => []

theorem deliveries_append (l : Layout) (asked more : List (Exchange Effects)) :
    l.deliveries (asked ++ more) = l.deliveries asked ++ l.deliveries more :=
  List.flatMap_append

theorem deliveries_isOpen (l : Layout) (isOpen : Bool) (asked : List (Exchange Effects)) :
    l.deliveries (⟨.isOpen, isOpen⟩ :: asked) = l.deliveries asked := rfl

theorem deliveries_told (l : Layout) (told : List call.Outcome) :
    l.deliveries (told.map fun outcome => ⟨.cache call, outcome⟩) = [] := by
  rw [Layout.deliveries, List.flatMap_map]
  exact List.flatMap_eq_nil_iff.2 fun _ _ => rfl

theorem deliveries_sends (l : Layout) (outcomes : List call.Outcome) :
    l.deliveries (sends l outcomes) = [] := by
  rw [sends, Layout.deliveries, List.flatMap_map]
  exact List.flatMap_eq_nil_iff.2 fun _ _ => rfl

/-- The notices of a step, as exchanges. -/
def announces (step : StoreStep) (outcomes : List call.Outcome) : List (Exchange Effects) :=
  (if failures outcomes = [] then step.notices else []).map fun notice => ⟨.notify notice, ()⟩

/-- A change that is told reaches every leaf of the listeners once. -/
theorem deliveries_announces (l : Layout) (step : StoreStep) (outcomes : List call.Outcome) :
    l.deliveries (announces step outcomes) =
      (if failures outcomes = [] then step.notices else []).flatMap fun notice =>
        l.listeners.leaves.map fun number => ⟨number, notice⟩ := by
  have hnotify : ∀ notice ∈ step.notices, l.listeners.notify notice
      = l.listeners.leaves.map fun number => ⟨number, notice⟩ := by
    intro notice hnotice
    refine Listener.notify_eq_leaves (fun quiet => ?_) l.listeners
    cases step with
    | update record key reason =>
        cases List.mem_singleton.1 hnotice
        rfl
    | _ => cases hnotice
  rw [announces, Layout.deliveries, List.flatMap_map]
  split
  · exact List.flatMap_congr hnotify
  · rfl

/-- How a step goes at an open store: the cache is told, the call is sent to every backend, and the
value tells what became of it there.  What the cache gave back does not matter. -/
structure FansOut {σ : Type} (reply : (q : Request) → σ → Reply q × σ) (l : Layout)
    (step : StoreStep) (s : σ) (told outcomes : List call.Outcome) : Prop where
  told_length : told.length = if step.tellsCache && l.cache.isSome then 1 else 0
  outcomes_length : outcomes.length = l.backends.length
  /-- Everything that is asked, in order. -/
  asked : (step.operation l).exchanges reply s = ⟨.isOpen, true⟩ ::
    told.map (fun outcome => ⟨.cache call, outcome⟩) ++ sends l outcomes ++ announces step outcomes
  value : ((step.operation l).run reply s).1 = report call outcomes

section

variable {σ : Type} (reply : (q : Request) → σ → Reply q × σ) (l : Layout) {s : σ}

/-- A step that has no notices and makes its value of the result. -/
theorem fansOut_of_map {step : StoreStep} {accepted : call.Answer → Bool}
    {value : Result Bool → Value} (hopen : (reply .isOpen s).1 = true)
    (hstep : step.operation l
      = (sending l step.tellsCache call accepted).bind fun r => .done (value r))
    (hnotices : step.notices = [])
    (hvalue : ∀ outcomes : List call.Outcome,
      value ((Tally.ofOutcomes accepted outcomes).result outcomes.length) = report call outcomes) :
    ∃ told outcomes : List call.Outcome, FansOut reply l step s told outcomes := by
  obtain ⟨told, outcomes, htold, hlength, hasked, hrun⟩ :=
    exchanges_sending reply l step.tellsCache accepted hopen
  refine ⟨told, outcomes, htold, hlength, ?_, ?_⟩
  · rw [hstep, exchanges_map, hasked, announces, hnotices, ite_self, List.map_nil, List.append_nil]
  · rw [hstep, run_map, hrun, hvalue]

theorem fansOut_update {record : Record} {key : Key} {reason : String}
    (hopen : (reply .isOpen s).1 = true) :
    ∃ told outcomes : List (Call.update record key reason).Outcome,
      FansOut reply l (.update record key reason) s told outcomes := by
  obtain ⟨told, outcomes, htold, hlength, hasked, hrun⟩ :=
    exchanges_sending reply l true (id : (Call.update record key reason).Answer → Bool) hopen
  -- an update is a write, and then tells the listeners if the write went well
  have hexchanges : (Store.update l record key reason).exchanges reply s = _ :=
    Program.exchanges_bind reply (sending l true (.update record key reason) id) _ s
  have hvalue : (Store.update l record key reason).run reply s = _ :=
    Program.run_bind reply (sending l true (.update record key reason) id) _ s
  refine ⟨told, outcomes, htold, hlength, ?_, ?_⟩
  · refine (exchanges_map reply _ _ s).trans ?_
    rw [hexchanges, hasked, hrun, Tally.result_ofOutcomes, announces]
    cases failures outcomes <;> rfl
  · refine (run_map reply _ _ s).trans ?_
    rw [hvalue, hrun, Tally.result_ofOutcomes, report]
    cases failures outcomes <;> rfl

theorem exists_fansOut {step : StoreStep} (hcall : step.sends? = some call)
    (hopen : (reply .isOpen s).1 = true) :
    ∃ told outcomes : List call.Outcome, FansOut reply l step s told outcomes := by
  cases step with
  | update record key reason =>
      cases hcall
      exact fansOut_update reply l hopen
  | save record key | saveBatch entries =>
      cases hcall
      exact fansOut_of_map reply l hopen rfl rfl (report_of_refusal rfl)
  | delete kind key | deleteBatch ids | clearTable kind | clearMetadata kind =>
      cases hcall
      exact fansOut_of_map reply l hopen (Program.bind_assoc _ _ _) rfl
        (report_of_no_refusal rfl fun _ => true)
  | _ => cases hcall

theorem FansOut.deliveries {step : StoreStep} {told outcomes : List call.Outcome}
    (h : FansOut reply l step s told outcomes) :
    l.deliveries ((step.operation l).exchanges reply s) =
      (if failures outcomes = [] then step.notices else []).flatMap fun notice =>
        l.listeners.leaves.map fun number => ⟨number, notice⟩ := by
  rw [h.asked, deliveries_append, List.cons_append, deliveries_isOpen, deliveries_append,
    deliveries_told, deliveries_sends, List.nil_append, List.nil_append, deliveries_announces]

/-- A write at an open store goes to every backend once and in order, whatever became of it at the
cache and at the backends before, and reports exactly what became of it.  The listeners are told of
an update that no backend failed, each of them once, and of nothing else. -/
theorem reaches_every_backend {step : StoreStep} (hcall : step.sends? = some call)
    (hopen : (reply .isOpen s).1 = true) :
    ∃ told outcomes : List call.Outcome, FansOut reply l step s told outcomes ∧
      l.deliveries ((step.operation l).exchanges reply s) =
        (if failures outcomes = [] then step.notices else []).flatMap fun notice =>
          l.listeners.leaves.map fun number => ⟨number, notice⟩ := by
  obtain ⟨told, outcomes, hfansOut⟩ := exists_fansOut reply l hcall hopen
  exact ⟨told, outcomes, hfansOut, hfansOut.deliveries⟩

end

/-- A cache before four backends, with two listeners. -/
def fourBackends : Layout where
  cache := some "cache"
  backends := ["a", "b", "c", "d"]
  listeners := .group [.leaf 0 false, .leaf 1 true]

/-- An environment in which the cache fails, and of the backends one refuses, one accepts, and the
others fail. -/
def partlyFailing (q : Request) (s : Unit) : Reply q × Unit :=
  (match q with
  | .isOpen | .close | .offer _ _ => true
  | .cache _ => .error (.reported "cache")
  | .backend 0 call => .ok call.blank
  | .backend 1 _ => .error (.reported "first")
  | .backend 2 call => .ok call.discard
  | .backend _ _ => .error (.reported "other")
  | .notify _ => (), s)

/-- The first failure is reported of an update that other backends refuse, accept and fail, and no
listener is told. -/
theorem reaches_every_backend_partlyFailing :
    Bench.StoreStep.sends? (.update (.ofBytes .transaction [2]) (.hash [1]) "solid")
        = some (.update (.ofBytes .transaction [2]) (.hash [1]) "solid") ∧
      (partlyFailing .isOpen ()).1 = true ∧
      ∃ told outcomes : List (Call.update (.ofBytes .transaction [2]) (.hash [1]) "solid").Outcome,
        FansOut partlyFailing fourBackends
          (.update (.ofBytes .transaction [2]) (.hash [1]) "solid") () told outcomes ∧
        report _ outcomes = .storeError (.fanOut 2 4 (.reported "first")) ∧
        fourBackends.deliveries ((StoreStep.operation fourBackends (.update
          (.ofBytes .transaction [2]) (.hash [1]) "solid")).exchanges partlyFailing ()) = [] := by
  have hcall : Bench.StoreStep.sends? (.update (.ofBytes .transaction [2]) (.hash [1]) "solid")
      = some (.update (.ofBytes .transaction [2]) (.hash [1]) "solid") := rfl
  have hopen : (partlyFailing .isOpen ()).1 = true := rfl
  obtain ⟨told, outcomes, hfansOut, -⟩ :=
    reaches_every_backend partlyFailing fourBackends hcall hopen
  refine ⟨hcall, hopen, told, outcomes, hfansOut, ?_, rfl⟩
  rw [← hfansOut.value]
  decide

end Store

end RecordStore
