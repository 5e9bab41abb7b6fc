import RecordStore.Proofs.Schedules
import RecordStore.Proofs.WorkerWithCallers
import RecordStore.Trial.Run

/-!
# Trials are runs of a worker with its callers

A trial runs the program of a worker and the programs of its steps on one thread, in an order of
its own.  Whatever that order, what happens to the worker is a run of a worker with its callers, and
the lines that it writes tell the journal of that run (`Trial.run_shows`).  So what holds of every
run holds of trials.

The worker of a trial keeps to a routine (`Asks`), and the other processes leave its requests to it
(`LeavesWork`).
-/

namespace RecordStore

namespace Trial

open Worker (Place)

/-! ## What is told -/

/-- The lines that the worker writes about an event. -/
def lines (plain : Bool) : Worker.Event String → List String
  | .task task =>
      if task.startsWith "gate" then ["run " ++ task, "end " ++ task] else ["run " ++ task]
  | .tick => if plain then [] else ["tick"]
  | .stop => if plain then [] else ["shutdown"]

/-- The lines about a note of the journal.  An event is told when it begins. -/
def noteLines (plain : Bool) : Worker.Note String → List String
  | .begins e => lines plain e
  | _ => []

/-- The lines that a journal comes to. -/
def story (plain : Bool) (p : WorkerWithCallers String) : List String :=
  p.journal.flatMap (noteLines plain)

/-! ## What processes ask -/

/-- Whether a request is one that the worker alone makes. -/
def Request.isWork : Request → Bool
  | .log _ | .beginWork | .nextEvent | .finishWork => true
  | _ => false

/-- What the worker asks in a place, with lines that it has yet to write, and where each reply
leads it. -/
inductive Asks (plain : Bool) : Place String × List String → (q : Request) →
    (Reply q → Place String × List String) → Prop
  | begin : Asks plain (.fresh, []) .beginWork fun _ => (.waiting, [])
  | next : Asks plain (.waiting, []) .nextEvent fun e => (.handling e, lines plain e)
  | log (e : Worker.Event String) (line : String) (rest : List String) :
      Asks plain (.handling e, line :: rest) (.log line) fun _ => (.handling e, rest)
  | permit (e : Worker.Event String) (rest : List String) :
      Asks plain (.handling e, rest) .permit fun _ => (.handling e, rest)
  | finish (e : Worker.Event String) (he : e ≠ .tick) :
      Asks plain (.handling e, []) .finishWork fun _ => (.gone, [])

/-- How a round ends. -/
inductive Ends : Place String × List String → Ending Value → Prop
  | again (e : Worker.Event String) (he : e ≠ .stop) : Ends (.handling e, []) .again
  | result (v : Value) : Ends (.gone, []) (.result v)

/-- After an event the worker goes on, or it ends. -/
inductive Handles (e : Worker.Event String) : Place String × List String → Bool → Prop
  | goesOn (he : e ≠ .stop) : Handles e (.handling e, []) true
  | ends (he : e ≠ .tick) : Handles e (.handling e, []) false

/-- The worker writes its next line. -/
theorem obeys_log (plain : Bool) (e : Worker.Event String) (line : String) (rest : List String) :
    (ask (.log line)).Obeys (Asks plain) (fun st _ => st = (.handling e, rest))
      (.handling e, line :: rest) :=
  ⟨_, .log e line rest, fun _ => rfl⟩

theorem obeys_tell (plain : Bool) (line : String) (e : Worker.Event String) :
    (tell plain line).Obeys (Asks plain) (fun st _ => st = (.handling e, []))
      (.handling e, if plain then [] else [line]) := by
  cases plain with
  | true => rfl
  | false => exact obeys_log false e line []

theorem obeys_runTask (plain : Bool) (task : String) :
    (runTask task).Obeys (Asks plain) (Handles (.task task))
      (.handling (.task task), lines plain (.task task)) := by
  rw [lines, runTask]
  split
  next hgate =>
    refine (obeys_log plain _ _ _).bind fun _ _ hst => ?_
    rw [hst]
    refine ⟨_, .permit _ _, fun _ => ?_⟩
    refine (obeys_log plain _ _ _).bind fun _ _ hst => ?_
    rw [hst]
    exact .goesOn (fun h => by cases h)
  next hgate =>
    refine (obeys_log plain _ _ _).bind fun _ _ hst => ?_
    rw [hst]
    show Handles (.task task) (.handling (.task task), []) (!task.startsWith "panic")
    cases task.startsWith "panic" with
    | true => exact .ends (fun h => by cases h)
    | false => exact .goesOn (fun h => by cases h)

theorem obeys_handle (plain : Bool) (e : Worker.Event String) :
    (handle plain e).Obeys (Asks plain) (Handles e) (.handling e, lines plain e) := by
  cases e with
  | task task => exact obeys_runTask plain task
  | tick =>
      refine (obeys_tell plain "tick" .tick).bind fun _ _ hst => ?_
      rw [hst]
      exact .goesOn (fun h => by cases h)
  | stop =>
      refine (obeys_tell plain "shutdown" .stop).bind fun _ _ hst => ?_
      rw [hst]
      exact .ends (fun h => by cases h)

theorem obeys_round (plain : Bool) : (round plain).Obeys (Asks plain) Ends (.waiting, []) := by
  refine ⟨_, .next, fun e => (obeys_handle plain e).bind fun _ _ hends => ?_⟩
  cases hends with
  | goesOn he => exact .again e he
  | ends he => exact ⟨_, .finish e he, fun _ => .result .unit⟩

/-- A program that leaves the requests of the worker to it. -/
def LeavesWork {α : Type} (p : Prog α) : Prop :=
  p.Obeys (fun (_ : Unit) (q : Request) (_ : Reply q → Unit) => q.isWork = false)
    (fun _ _ => True) ()

namespace LeavesWork

variable {α β : Type}

theorem done (a : α) : LeavesWork (.done a) := trivial

theorem ask {q : Request} (haside : q.isWork = false) : LeavesWork (ask q) :=
  ⟨fun _ => (), haside, fun _ => trivial⟩

theorem bind {p : Prog α} {f : α → Prog β} (hp : LeavesWork p) (hf : ∀ a, LeavesWork (f a)) :
    LeavesWork (p.bind f) :=
  Program.Obeys.bind hp fun _ a _ => hf a

theorem mapM {f : α → Prog β} (hf : ∀ a, LeavesWork (f a)) (as : List α) :
    LeavesWork (as.mapM f) := by
  induction as with
  | nil => exact done []
  | cons a as ih =>
      rw [List.mapM_cons]
      exact (hf a).bind fun b => ih.bind fun bs => done (b :: bs)

theorem owned {p : Prog α} (mode : Lock.Mode) (hp : LeavesWork p) : LeavesWork (owned mode p) :=
  (ask rfl).bind fun _ => hp.bind fun a => (ask rfl).bind fun _ => done a

theorem program (t : Trial) (a : Action) : LeavesWork (a.program t) := by
  cases a with
  | release count => exact (ask rfl).bind fun _ => done _
  | submit task =>
      refine (owned .shared ((ask rfl).bind fun attached => ?_)).bind fun s => done _
      cases attached with
      | true => exact ask rfl
      | false => exact done _
  | burst tasks =>
      refine (owned .shared (mapM (fun task => (ask rfl).bind fun attached => ?_) tasks)).bind
        fun s => done _
      cases attached with
      | true => exact ask rfl
      | false => exact done _
  | stop => exact (owned .alone ((ask rfl).bind fun _ => ask rfl)).bind fun _ => done _
  | isRunning => exact (owned .shared (ask rfl)).bind fun b => done _
  | name => exact (owned .shared (done t.name)).bind fun s => done _
  | hold =>
      exact (owned .shared ((ask rfl).bind fun b => (ask rfl).bind fun _ => done b)).bind
        fun b => done _
  | sendHeld task =>
      refine (bind (ask rfl) fun held => ?_).bind fun b => done _
      cases held with
      | true => exact (ask rfl).bind fun s => done _
      | false => exact done _
  | dropHeld => exact (ask rfl).bind fun _ => done _

end LeavesWork

/-! ## Requests -/

/-- The worker of a world is that of a worker with its callers.  What was told and what the worker
has yet to write is the story of the journal. -/
structure World.Shows (plain : Bool) (told pending : List String) (w : World)
    (p : WorkerWithCallers String) : Prop where
  worker : w.worker = p.worker
  attached : w.attached = p.attached
  story : told ++ w.log.reverse ++ pending = story plain p

variable {w : World} {p : WorkerWithCallers String} {plain : Bool} {told pending : List String}

theorem story_snoc {p' : WorkerWithCallers String} {note : Worker.Note String}
    (h : p'.journal = p.journal ++ [note]) :
    story plain p' = story plain p ++ noteLines plain note := by
  rw [story, story, h, List.flatMap_append, List.flatMap_singleton]

/-- A process that is not the worker does what the owner or a caller does. -/
theorem World.Shows.reply (h : World.Shows plain told pending w p) {q : Request}
    (haside : q.isWork = false) (n : Nat) : ∃ acts,
    World.Shows plain told pending (w.reply? n q).2 (p.after acts) ∧
    (p.after acts).place = p.place := by
  obtain ⟨hworker, hattached, hstory⟩ := h
  cases q with
  | trySubmit task =>
      refine ⟨[.trySubmit .handle task], ⟨?_, hattached, hstory⟩, rfl⟩
      exact congrArg (fun worker => (worker.trySubmit task).2) hworker
  | submit task =>
      refine ⟨[.submit .handle n task], ⟨?_, hattached, hstory⟩, rfl⟩
      exact congrArg (fun worker => (worker.submit n task).2) hworker
  | detach => exact ⟨[.detach], ⟨congrArg Worker.stop hworker, rfl, hstory⟩, rfl⟩
  | log | beginWork | nextEvent | finishWork => cases haside
  | _ => exact ⟨[], ⟨hworker, hattached, hstory⟩, rfl⟩

/-- A process is that of the worker, with lines that it has yet to write.  A worker that ended as it
began still waits for an event. -/
structure AtWork (plain : Bool) (pending : List String) (p : WorkerWithCallers String)
    (c : Process Effects Value) : Prop where
  body : c.body = round plain
  left : ∃ place, c.left.Obeys (Asks plain) Ends (place, pending) ∧
    (p.place = place ∨ p.place = .gone ∧ place = .waiting)

namespace AtWork

variable {capacity : Nat} {period : Option Nat} {body : Prog (Ending Value)} (number : Nat)

/-- The worker begins. -/
theorem beginWork (h : World.Shows plain told pending w p) (hplace : p.place = .fresh) :
    ∃ acts, World.Shows plain told pending (w.reply? number .beginWork).2 (p.after acts) ∧
    ((p.after acts).place = .waiting ∨ (p.after acts).place = .gone) := by
  obtain ⟨hworker, hattached, hstory⟩ := h
  refine ⟨[.begin w.now], ?_⟩
  show World.Shows _ _ _ _ (p.begin w.now) ∧
    ((p.begin w.now).place = _ ∨ (p.begin w.now).place = _)
  rw [WorkerWithCallers.begin, hplace]
  refine ⟨⟨congrArg (fun worker => worker.begin w.now) hworker, hattached, hstory⟩, ?_⟩
  by_cases hended : (p.worker.begin w.now).hasEnded = true
  · exact Or.inr (if_pos hended)
  · exact Or.inl (if_neg hended)

/-- The worker asks for an event. -/
theorem nextEvent (h : World.Shows plain told [] w p) (hsound : p.Sound capacity period)
    (hplace : p.place = .waiting ∨ p.place = .gone) : ∃ acts,
    (∀ e, (w.reply? number .nextEvent).1 = some e → (p.after acts).place = .handling e ∧
      World.Shows plain told (lines plain e) (w.reply? number .nextEvent).2 (p.after acts)) ∧
    ((w.reply? number .nextEvent).1 = none → (p.after acts).place = p.place ∧
      World.Shows plain told [] (w.reply? number .nextEvent).2 (p.after acts)) := by
  obtain ⟨hworker, hattached, hstory⟩ := h
  simp only [World.reply?]
  rcases hplace with hplace | hplace
  · have hruns : w.worker.hasEnded = false := by
      rw [hworker]
      exact hsound.runs (by simp [hplace])
    obtain ⟨htaken, hstays, hsome, hnone⟩ := WorkerWithCallers.take_first hplace w.now
    rw [if_neg (by simp [hruns]), hworker]
    refine ⟨[.take w.now 0], fun e he => ?_, fun he => ?_⟩
    · obtain ⟨hhandling, hjournal⟩ := hsome e he
      refine ⟨hhandling, htaken.symm, hattached.trans hstays.symm, ?_⟩
      refine Eq.trans ?_ (story_snoc hjournal).symm
      rw [← hstory, List.append_nil]
      rfl
    · obtain ⟨hwaiting, hjournal⟩ := hnone he
      refine ⟨hwaiting.trans hplace.symm, htaken.symm, hattached.trans hstays.symm, ?_⟩
      refine hstory.trans ?_
      exact congrArg (List.flatMap (noteLines plain)) hjournal.symm
  · have hended : w.worker.hasEnded = true := by
      rw [hworker]
      exact hsound.ended.2 hplace
    rw [if_pos hended]
    exact ⟨[], fun e he => (by cases he), fun _ => ⟨rfl, hworker, hattached, hstory⟩⟩

/-- The worker ends, since it was asked to stop or a task broke it. -/
theorem finishWork (h : World.Shows plain told pending w p) {e : Worker.Event String}
    (hplace : p.place = .handling e) (he : e ≠ .tick) : ∃ acts,
    World.Shows plain told pending (w.reply? number .finishWork).2 (p.after acts) ∧
    (p.after acts).place = .gone := by
  obtain ⟨hworker, hattached, hstory⟩ := h
  cases e with
  | task t =>
      refine ⟨[.breakDown], ?_⟩
      show World.Shows _ _ _ _ p.breakDown ∧ p.breakDown.place = .gone
      have hbreaks : p.breakDown = { p with
          worker := p.worker.finish, place := .gone, journal := p.journal ++ [.breaks t] } := by
        rw [WorkerWithCallers.breakDown, hplace]
      rw [hbreaks]
      refine ⟨⟨congrArg Worker.finish hworker, hattached, ?_⟩, rfl⟩
      rw [story_snoc rfl]
      exact hstory.trans (List.append_nil _).symm
  | tick => exact absurd rfl he
  | stop =>
      refine ⟨[.finish], ?_⟩
      show World.Shows _ _ _ _ p.finish ∧ p.finish.place = .gone
      have hends : p.finish = { p with
          worker := p.worker.finish, place := .gone, journal := p.journal ++ [.ends .stop] } := by
        rw [WorkerWithCallers.finish, hplace]
      rw [hends]
      refine ⟨⟨congrArg Worker.finish hworker, hattached, ?_⟩, rfl⟩
      rw [story_snoc rfl]
      exact hstory.trans (List.append_nil _).symm

/-- The worker goes on with a request, or waits. -/
theorem reply (h : World.Shows plain told pending w p) (hsound : p.Sound capacity period)
    {q : Request} {next : Reply q → Prog (Ending Value)}
    (hwork : AtWork plain pending p ⟨number, .ask q next, body⟩) : ∃ acts pending',
    World.Shows plain told pending' (w.reply? number q).2 (p.after acts) ∧
    (∀ a, (w.reply? number q).1 = some a →
      AtWork plain pending' (p.after acts) ⟨number, next a, body⟩) ∧
    ((w.reply? number q).1 = none →
      AtWork plain pending' (p.after acts) ⟨number, .ask q next, body⟩) := by
  obtain ⟨hbody, place, ⟨state, hasks, hnext⟩, hplace⟩ := hwork
  have hobeys : Program.Obeys (I := Effects) (Asks plain) Ends (place, pending) (.ask q next) :=
    ⟨state, hasks, hnext⟩
  cases hasks with
  | begin =>
      have hfresh : p.place = .fresh := hplace.resolve_right fun h => by cases h.2
      obtain ⟨acts, hshows, hend⟩ := beginWork number h hfresh
      refine ⟨acts, [], hshows, fun a _ => ⟨hbody, .waiting, hnext a, ?_⟩,
        fun hnone => by cases hnone⟩
      exact hend.imp id fun h => ⟨h, rfl⟩
  | next =>
      obtain ⟨acts, hsome, hnone⟩ := nextEvent number h hsound (hplace.imp id And.left)
      cases hreply : (w.reply? number .nextEvent).1 with
      | some e =>
          obtain ⟨hhandling, hshows⟩ := hsome e hreply
          refine ⟨acts, lines plain e, hshows, fun e' he => ?_, fun he => by cases he⟩
          cases he
          exact ⟨hbody, _, hnext e, Or.inl hhandling⟩
      | none =>
          obtain ⟨hstays, hshows⟩ := hnone hreply
          refine ⟨acts, [], hshows, fun e he => (by cases he), fun _ => ⟨hbody, _, hobeys, ?_⟩⟩
          rw [hstays]
          exact hplace
  | log e line rest =>
      have hhandling : p.place = .handling e := hplace.resolve_right fun h => by cases h.2
      refine ⟨[], rest, ⟨h.worker, h.attached, ?_⟩,
        fun a _ => ⟨hbody, _, hnext a, Or.inl hhandling⟩, fun hnone => by cases hnone⟩
      refine Eq.trans ?_ h.story
      simp [World.reply?]
  | permit e =>
      obtain ⟨acts, hshows, hstays⟩ := h.reply (q := .permit) rfl number
      have hhandling : (p.after acts).place = .handling e :=
        hstays.trans (hplace.resolve_right fun h => by cases h.2)
      exact ⟨acts, pending, hshows, fun a _ => ⟨hbody, _, hnext a, Or.inl hhandling⟩,
        fun _ => ⟨hbody, _, hobeys, Or.inl hhandling⟩⟩
  | finish e he =>
      have hhandling : p.place = .handling e := hplace.resolve_right fun h => by cases h.2
      obtain ⟨acts, hshows, hgone⟩ := finishWork number h hhandling he
      exact ⟨acts, [], hshows, fun a _ => ⟨hbody, _, hnext a, Or.inl hgone⟩,
        fun hnone => by cases hnone⟩

/-- The worker starts over. -/
theorem again (h : World.Shows plain told pending w p)
    (hwork : AtWork plain pending p ⟨number, .done .again, body⟩) : ∃ acts,
    World.Shows plain told pending w (p.after acts) ∧
    AtWork plain pending (p.after acts) ⟨number, body, body⟩ := by
  obtain ⟨rfl, place, hends, hplace⟩ := hwork
  cases hends with
  | again e he =>
      have hhandling : p.place = .handling e := hplace.resolve_right fun h => by cases h.2
      have hfinish := WorkerWithCallers.finish_of_ne hhandling he
      refine ⟨[.finish], ?_⟩
      show World.Shows _ _ _ _ p.finish ∧ AtWork plain [] p.finish _
      rw [hfinish]
      refine ⟨⟨h.worker, h.attached, ?_⟩, rfl, .waiting, obeys_round plain, Or.inl rfl⟩
      rw [story_snoc rfl]
      exact h.story.trans (List.append_nil _).symm

/-- The worker has ended. -/
theorem result {v : Value} (hwork : AtWork plain pending p ⟨number, .done (.result v), body⟩) :
    p.place = .gone ∧ pending = [] := by
  obtain ⟨-, place, hends, hplace⟩ := hwork
  cases hends with
  | result => exact ⟨hplace.resolve_right (fun h => by cases h.2), rfl⟩

/-- A worker that is not dealing with an event has written everything. -/
theorem pending_eq_nil {c : Process Effects Value} (hwork : AtWork plain pending p c)
    (hplace : ∀ e, p.place ≠ .handling e) : pending = [] := by
  obtain ⟨number, left, body⟩ := c
  obtain ⟨-, place, hobeys, hat⟩ := hwork
  have hnot : ∀ e, place ≠ .handling e := by
    rintro e rfl
    exact hplace e (hat.resolve_right fun h => by cases h.2)
  cases left with
  | done e =>
      cases hobeys with
      | again e => exact absurd rfl (hnot e)
      | result => rfl
  | ask q next =>
      obtain ⟨state, hasks, -⟩ := hobeys
      cases hasks with
      | begin | next | finish => rfl
      | log e | permit e => exact absurd rfl (hnot e)

end AtWork

/-! ## Runs -/

/-- A process that leaves the requests of the worker to it. -/
structure IsAside (c : Process Effects Value) : Prop where
  left : LeavesWork c.left
  body : LeavesWork c.body

/-- The processes of a trial: that of the worker, as long as it has not ended, and others. -/
inductive OneWorker (plain : Bool) (pending : List String) (p : WorkerWithCallers String) :
    List (Process Effects Value) → Prop
  | gone (hgone : p.place = .gone) (hpending : pending = []) : OneWorker plain pending p []
  | working {c : Process Effects Value} {l : List (Process Effects Value)}
      (hwork : AtWork plain pending p c) (h : ∀ c ∈ l, IsAside c) :
      OneWorker plain pending p (c :: l)
  | aside {c : Process Effects Value} {l : List (Process Effects Value)} (haside : IsAside c)
      (h : OneWorker plain pending p l) : OneWorker plain pending p (c :: l)

namespace OneWorker

variable {p' : WorkerWithCallers String} {l l' : List (Process Effects Value)}
  {capacity : Nat} {period : Option Nat} {number : Nat} {body : Prog (Ending Value)}

theorem perm (h : OneWorker plain pending p l) (hperm : l.Perm l') :
    OneWorker plain pending p l' := by
  induction hperm with
  | nil => exact h
  | cons c hperm ih =>
      cases h with
      | working hwork h => exact .working hwork fun c hc => h c (hperm.mem_iff.2 hc)
      | aside haside h => exact .aside haside (ih h)
  | swap a b l =>
      cases h with
      | working hwork h =>
          obtain ⟨ha, hl⟩ := List.forall_mem_cons.1 h
          exact .aside ha (.working hwork hl)
      | aside hb h =>
          cases h with
          | working hwork h => exact .working hwork (List.forall_mem_cons.2 ⟨hb, h⟩)
          | aside ha h => exact .aside ha (.aside hb h)
  | trans _ _ ih ih' => exact ih' (ih h)

theorem of_gone (hgone : p.place = .gone) (hpending : pending = []) (h : ∀ c ∈ l, IsAside c) :
    OneWorker plain pending p l := by
  induction l with
  | nil => exact .gone hgone hpending
  | cons c l ih =>
      obtain ⟨hc, hl⟩ := List.forall_mem_cons.1 h
      exact .aside hc (ih hl)

/-- Others may go on, as long as the worker stays in its place. -/
theorem congr (h : OneWorker plain pending p l) (hplace : p'.place = p.place) :
    OneWorker plain pending p' l := by
  induction h with
  | gone hgone hpending => exact .gone (hplace.trans hgone) hpending
  | working hwork h => exact .working ⟨hwork.body, by rw [hplace]; exact hwork.left⟩ h
  | aside haside _ ih => exact .aside haside ih

/-- A process makes a request, and goes on with the reply if there is one. -/
theorem reply {q : Request} {next : Reply q → Prog (Ending Value)}
    (h : World.Shows plain told pending w p) (hsound : p.Sound capacity period)
    (hprocesses : OneWorker plain pending p (⟨number, .ask q next, body⟩ :: l)) : ∃ acts pending',
    World.Shows plain told pending' (w.reply? number q).2 (p.after acts) ∧
    (∀ a, (w.reply? number q).1 = some a →
      OneWorker plain pending' (p.after acts) (⟨number, next a, body⟩ :: l)) ∧
    ((w.reply? number q).1 = none →
      OneWorker plain pending' (p.after acts) (⟨number, .ask q next, body⟩ :: l)) := by
  cases hprocesses with
  | working hwork hl =>
      obtain ⟨acts, pending', hshows, hsome, hnone⟩ := hwork.reply number h hsound
      exact ⟨acts, pending', hshows, fun a ha => .working (hsome a ha) hl,
        fun ha => .working (hnone ha) hl⟩
  | aside haside hl =>
      obtain ⟨⟨state, hq, hnext⟩, hbody⟩ := haside
      obtain ⟨acts, hshows, hplace⟩ := h.reply hq number
      exact ⟨acts, pending, hshows, fun a _ => .aside ⟨hnext a, hbody⟩ (hl.congr hplace),
        fun _ => .aside ⟨⟨state, hq, hnext⟩, hbody⟩ (hl.congr hplace)⟩

/-- A process starts over. -/
theorem again (h : World.Shows plain told pending w p)
    (hprocesses : OneWorker plain pending p (⟨number, .done .again, body⟩ :: l)) : ∃ acts,
    World.Shows plain told pending w (p.after acts) ∧
    OneWorker plain pending (p.after acts) (⟨number, body, body⟩ :: l) := by
  cases hprocesses with
  | working hwork hl =>
      obtain ⟨acts, hshows, hwork⟩ := hwork.again number h
      exact ⟨acts, hshows, .working hwork hl⟩
  | aside haside hl => exact ⟨[], h, .aside ⟨haside.body, haside.body⟩ hl⟩

/-- A process ends. -/
theorem result {v : Value}
    (hprocesses : OneWorker plain pending p (⟨number, .done (.result v), body⟩ :: l)) :
    OneWorker plain pending p l := by
  cases hprocesses with
  | working hwork hl =>
      obtain ⟨hgone, hpending⟩ := hwork.result
      exact .of_gone hgone hpending hl
  | aside _ hl => exact hl

theorem pending_eq_nil (hprocesses : OneWorker plain pending p l)
    (hplace : ∀ e, p.place ≠ .handling e) : pending = [] := by
  induction hprocesses with
  | gone _ hpending => exact hpending
  | working hwork => exact hwork.pending_eq_nil hplace
  | aside _ _ ih => exact ih

end OneWorker

/-- The processes of a trial do what happens to a worker with its callers. -/
structure Shows (plain : Bool) (told : List String) (p : WorkerWithCallers String) (s : Processes) :
    Prop where
  exists_pending : ∃ pending, World.Shows plain told pending s.state p ∧
    OneWorker plain pending p (s.line ++ s.parked)

namespace Shows

variable {capacity : Nat} {period : Option Nat} {s s' : Processes}

theorem wake (h : Shows plain told p s) : Shows plain told p (s.wake World.environment) := by
  obtain ⟨pending, hworld, hprocesses⟩ := h
  refine ⟨pending, hworld, hprocesses.perm ?_⟩
  rw [Schedule.wake, List.append_assoc]
  exact ((List.filter_append_perm _ _).append_left _).symm

/-- The first process in line makes a request, or ends. -/
theorem step (h : Shows plain told p s) (hsound : p.Sound capacity period)
    (hstep : s.step? World.environment = some s') : ∃ acts, Shows plain told (p.after acts) s' := by
  obtain ⟨state, line, parked, results⟩ := s
  obtain ⟨pending, hworld, hprocesses⟩ := h
  rw [Schedule.step?.eq_def] at hstep
  split at hstep
  next => cases hstep
  next c rest hline =>
    obtain ⟨number, left, body⟩ := c
    simp only at hline
    subst hline
    cases left with
    | done e =>
        cases e with
        | result v =>
            cases hstep
            exact ⟨[], pending, hworld, hprocesses.result⟩
        | again =>
            cases hstep
            obtain ⟨acts, hworld, hprocesses⟩ := hprocesses.again hworld
            exact ⟨acts, pending, hworld, hprocesses⟩
    | ask q next =>
        obtain ⟨acts, pending', hshows, hsome, hnone⟩ := hprocesses.reply hworld hsound
        simp only at hstep
        split at hstep
        next a state' hreply =>
          cases hstep
          have hstate : state' = (state.reply? number q).2 := (congrArg Prod.snd hreply).symm
          rw [hstate]
          exact ⟨acts, wake ⟨pending', hshows, hsome a (congrArg Prod.fst hreply)⟩⟩
        next state' hreply =>
          cases hstep
          have hstate : state' = (state.reply? number q).2 := (congrArg Prod.snd hreply).symm
          rw [hstate]
          -- the process that waits goes to the end of the parked ones
          refine ⟨acts, pending', hshows, (hnone (congrArg Prod.fst hreply)).perm ?_⟩
          rw [← List.append_assoc]
          exact (List.perm_append_singleton _ _).symm

theorem settle (h : Shows plain told p s) (hsound : p.Sound capacity period) (n : Nat) :
    ∃ acts, Shows plain told (p.after acts) (s.settle World.environment n) := by
  induction n generalizing p s with
  | zero => exact ⟨[], h⟩
  | succ n ih =>
      rw [Schedule.settle]
      split
      next s' hstep =>
        obtain ⟨acts, hshows⟩ := h.step hsound hstep
        obtain ⟨acts', hshows⟩ := ih hshows (hsound.along_run acts)
        refine ⟨acts ++ acts', ?_⟩
        rw [WorkerWithCallers.after, run_append]
        exact hshows
      next => exact ⟨[], h⟩

/-- Time passes, or a step begins. -/
theorem start (h : Shows plain told p s) (t : Trial) (number : Nat) (step : Step) :
    Shows plain told p (t.start number step s) := by
  obtain ⟨pending, hworld, hprocesses⟩ := h
  cases step with
  | advance ms =>
      have hlater : Shows plain told p { s with
          state := { s.state with now := s.state.now + ms } } :=
        ⟨pending, ⟨hworld.worker, hworld.attached, hworld.story⟩, hprocesses⟩
      obtain ⟨pending, hworld, hprocesses⟩ := hlater.wake
      exact ⟨pending, hworld, hprocesses⟩
  | act a =>
      have hnew : LeavesWork (Process.once number (a.program t)).left :=
        (LeavesWork.program t a).bind fun v => .done (Ending.result v)
      refine ⟨pending, hworld, (OneWorker.aside ⟨hnew, hnew⟩ hprocesses).perm ?_⟩
      show (_ :: (s.line ++ s.parked)).Perm (s.line ++ [_] ++ s.parked)
      rw [List.append_assoc]
      exact List.perm_middle.symm

end Shows

theorem shows_processes (t : Trial) :
    ∃ acts, Shows t.plain [] ((WorkerWithCallers.start t.capacity t.period).after acts)
      t.processes := by
  have hstart : Shows t.plain [] (WorkerWithCallers.start t.capacity t.period)
      { state := { worker := .create t.capacity t.period }, line := [workerProcess t.plain] } := by
    refine ⟨[], ⟨rfl, rfl, rfl⟩, .working ⟨rfl, .fresh, ?_, Or.inl rfl⟩ fun c hc => by cases hc⟩
    exact ⟨_, .begin, fun _ => obeys_round t.plain⟩
  rw [processes]
  split
  · exact hstart.settle (.start _ _) _
  · exact ⟨[], hstart⟩

/-! ## Reports -/

/-- A report is that of a worker with its callers, and the lines up to it are those of the journal.
While the worker is dealing with an event, lines about that event may be missing. -/
structure Tells (plain : Bool) (told : List String) (report : Report World Value)
    (p : WorkerWithCallers String) : Prop where
  worker : report.state.worker = p.worker
  attached : report.state.attached = p.attached
  story : told <+: story plain p
  whole : (∀ e, p.place ≠ .handling e) → told = Trial.story plain p

/-- The lines are taken out of the log. -/
theorem Shows.takeLog {s : Processes} (h : Shows plain told p s) :
    Shows plain (told ++ s.state.log.reverse) p
      { s with state := { s.state with log := [] }, results := [] } := by
  obtain ⟨pending, hworld, hprocesses⟩ := h
  refine ⟨pending, ⟨hworld.worker, hworld.attached, ?_⟩, hprocesses⟩
  rw [← hworld.story, List.reverse_nil, List.append_nil]

theorem Shows.tells {s : Processes} (h : Shows plain told p s) {report : Report World Value}
    (hstate : report.state = { s.state with log := [] }) :
    Tells plain (told ++ s.state.log.reverse) report p := by
  obtain ⟨pending, hworld, hprocesses⟩ := h
  refine ⟨?_, ?_, ⟨pending, hworld.story⟩, fun hplace => ?_⟩
  · rw [hstate]
    exact hworld.worker
  · rw [hstate]
    exact hworld.attached
  · rw [← hworld.story, hprocesses.pending_eq_nil hplace, List.append_nil]

theorem Shows.runFrom {t : Trial} {capacity : Nat} {period : Option Nat} {s : Processes}
    (h : Shows t.plain told p s) (hsound : p.Sound capacity period) (first number : Nat)
    {steps : List Step} {before after : List (Report World Value)} {report : Report World Value}
    (hrun : t.driven.runFrom first number s steps = before ++ report :: after) : ∃ acts,
    Tells t.plain (told ++ (before ++ [report]).flatMap (·.events)) report (p.after acts) := by
  induction steps generalizing p s number told before with
  | nil => exact absurd hrun.symm (by simp [Driven.runFrom])
  | cons step steps ih =>
      obtain ⟨acts, hsettled⟩ := (h.start t number step).settle hsound Driven.patience
      rw [Driven.runFrom] at hrun
      cases before with
      | nil =>
          obtain ⟨rfl, -⟩ := List.cons.inj hrun
          rw [List.nil_append, List.flatMap_singleton]
          exact ⟨acts, hsettled.tells rfl⟩
      | cons report' before =>
          obtain ⟨rfl, hrest⟩ := List.cons.inj hrun
          obtain ⟨acts', htells⟩ := ih hsettled.takeLog (hsound.along_run acts) _ hrest
          refine ⟨acts ++ acts', ?_⟩
          rw [WorkerWithCallers.after, run_append, List.cons_append, List.flatMap_cons,
            ← List.append_assoc]
          exact htells

/-- Whatever is tried, what becomes of the worker is what becomes of it in a run of a worker with
its callers, and the lines so far are those about the events that it has taken. -/
theorem run_shows (t : Trial) (steps : List Step) {before after : List (Report World Value)}
    {report : Report World Value} (hrun : t.run steps = before ++ report :: after) : ∃ acts,
    Tells t.plain ((before ++ [report]).flatMap (·.events)) report
      ((WorkerWithCallers.start t.capacity t.period).after acts) := by
  obtain ⟨acts, hshows⟩ := t.shows_processes
  have hstart : (WorkerWithCallers.start t.capacity t.period : WorkerWithCallers String).Sound
      t.capacity t.period := .start t.capacity t.period
  have hsound := hstart.along_run acts
  obtain ⟨acts', htells⟩ := hshows.runFrom hsound 1 1 hrun
  refine ⟨acts ++ acts', ?_⟩
  rw [WorkerWithCallers.after, run_append]
  exact htells

end Trial

end RecordStore
