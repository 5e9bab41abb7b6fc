import RecordStore.Proofs.Runs
import RecordStore.Proofs.Worker

/-!
# A worker with its callers

A worker is taken together with everybody who has to do with it: its owner, and callers that give it
tasks.  Anybody may act next, and each act is one indivisible step.

* Tasks come through the owner or through a handle, from callers that wait for room or do not.  A
  caller that waits may ask again at any time, and may give up.
* The worker begins, and then deals with one event after the other.  It may take any event that is
  ready.  What it does with the event takes as long as it takes, and everybody else may act
  meanwhile.
* Dealing with a task may break the worker.  Dealing with a tick or with the request to stop does
  not.
* The owner asks the worker to stop and gives it up, and a call to stop returns when the worker has
  ended.  Such a call is not given up half way.

Each act of the worker has a time of its own.  The times need not go up, so that a tick may come as
late or as early as it likes.  The queue also closes when nobody can give it a task any more.  This
makes the worker stop, but it can happen only after the owner gave the worker up, and then the
request to stop is ready anyhow.

The worker writes a *journal* of what it begins and what it ends.  As long as nobody stops or breaks
it the journal is a list of pairs (`Paired`), and every accepted task is in it or in the queue
(`inOrder_of_gentle`).  When a call to stop has returned the journal has come to its end
(`cleanlyStopped`).  Both follow from what no act changes (`Sound.step`).
-/

namespace RecordStore

namespace Worker

variable {τ : Type}

/-- What a task comes through. -/
inductive Way where
  | owner
  | handle

/-- What the worker writes down. -/
inductive Note (τ : Type) where
  | begins (e : Event τ)
  | ends (e : Event τ)
  /-- The worker breaks at a task. -/
  | breaks (t : τ)
  deriving DecidableEq

/-- Where the worker is in its program. -/
inductive Place (τ : Type) where
  | fresh
  /-- Waiting for an event. -/
  | waiting
  /-- Dealing with an event. -/
  | handling (e : Event τ)
  | gone

/-- Free room of the queue that callers in the line may take. -/
def reserved (w : Worker τ) : Nat := min w.waiting.length w.room

end Worker

open Worker (Way Note Place SubmitError)

/-- A worker, and what became of the tasks that it was given. -/
structure WorkerWithCallers (τ : Type) where
  worker : Worker τ
  /-- Whether the owner has not given the worker up. -/
  attached : Bool := true
  /-- Whether a call to stop has returned. -/
  stopped : Bool := false
  place : Place τ := .fresh
  /-- The tasks that the queue took, the oldest first. -/
  accepted : List τ := []
  journal : List (Note τ) := []

namespace WorkerWithCallers

variable {τ : Type}

def start (capacity : Nat) (period : Option Nat) : WorkerWithCallers τ :=
  { worker := .create capacity period }

/-- The task that a note is about, if it begins. -/
def begun? : Note τ → Option τ
  | .begins (.task t) => some t
  | _ => none

/-- The tasks that have begun. -/
def begun (s : WorkerWithCallers τ) : List τ := s.journal.filterMap begun?

/-! ## Giving tasks -/

/-- Whether there is nothing on a way that a task could go through. -/
def isShut (s : WorkerWithCallers τ) : Way → Bool
  | .owner => !s.attached
  | .handle => false

/-- What an answer adds to the accepted tasks. -/
def taken (t : τ) : Option (Except SubmitError Unit) → List τ
  | some (.ok ()) => [t]
  | _ => []

/-- Gives a task to the worker, or asks again for a caller that waits for room. -/
def submit (s : WorkerWithCallers τ) (way : Way) (caller : Nat) (t : τ) :
    Option (Except SubmitError Unit) × WorkerWithCallers τ :=
  if s.isShut way then (some (.error .stopped), s)
  else
    let (answer, worker) := s.worker.submit caller t
    (answer, { s with worker, accepted := s.accepted ++ taken t answer })

/-- Gives a task to the worker without waiting. -/
def trySubmit (s : WorkerWithCallers τ) (way : Way) (t : τ) :
    Except SubmitError Unit × WorkerWithCallers τ :=
  if s.isShut way then (.error .stopped, s)
  else
    let (answer, worker) := s.worker.trySubmit t
    (answer, { s with worker, accepted := s.accepted ++ taken t (some answer) })

/-- Whether the owner hands out handles. -/
def givesHandles (s : WorkerWithCallers τ) : Bool := s.attached

/-! ## Working -/

def begin (s : WorkerWithCallers τ) (now : Nat) : WorkerWithCallers τ :=
  match s.place with
  | .fresh =>
      let worker := s.worker.begin now
      { s with worker, place := if worker.hasEnded then .gone else .waiting }
  | _ => s

/-- The waiting worker takes one of the ready events, counted from zero.  If there are fewer it
waits on. -/
def take (s : WorkerWithCallers τ) (now n : Nat) : WorkerWithCallers τ :=
  match s.place with
  | .waiting =>
      match (s.worker.ready now)[n]? with
      | some e =>
          { s with
            worker := s.worker.take now e
            place := .handling e
            journal := s.journal ++ [.begins e] }
      | none => { s with worker := { s.worker with phase := .idle } }
  | _ => s

/-- The worker has dealt with an event.  With the request to stop it ends. -/
def finish (s : WorkerWithCallers τ) : WorkerWithCallers τ :=
  match s.place with
  | .handling .stop =>
      { s with worker := s.worker.finish, place := .gone, journal := s.journal ++ [.ends .stop] }
  | .handling e => { s with place := .waiting, journal := s.journal ++ [.ends e] }
  | _ => s

/-- The worker breaks at a task. -/
def breakDown (s : WorkerWithCallers τ) : WorkerWithCallers τ :=
  match s.place with
  | .handling (.task t) =>
      { s with worker := s.worker.finish, place := .gone, journal := s.journal ++ [.breaks t] }
  | _ => s

/-! ## Stopping -/

/-- The owner asks the worker to stop, and gives it up. -/
def detach (s : WorkerWithCallers τ) : WorkerWithCallers τ :=
  { s with worker := s.worker.stop, attached := false }

/-- The call to stop returns, if the worker has ended. -/
def join (s : WorkerWithCallers τ) : WorkerWithCallers τ :=
  if !s.attached && s.worker.hasEnded then { s with stopped := true } else s

/-! ## Runs -/

/-- What can happen next. -/
inductive Act (τ : Type) where
  | submit (way : Way) (caller : Nat) (t : τ)
  | giveUp (caller : Nat)
  | trySubmit (way : Way) (t : τ)
  | begin (now : Nat)
  | take (now n : Nat)
  | finish
  | breakDown
  | detach
  | join

/-- Whether an act neither breaks the worker nor asks it to stop. -/
def Act.IsGentle : Act τ → Bool
  | .breakDown | .detach => false
  | _ => true

def step (s : WorkerWithCallers τ) : Act τ → WorkerWithCallers τ
  | .submit way caller t => (s.submit way caller t).2
  | .giveUp caller => { s with worker := s.worker.leaveLine caller }
  | .trySubmit way t => (s.trySubmit way t).2
  | .begin now => s.begin now
  | .take now n => s.take now n
  | .finish => s.finish
  | .breakDown => s.breakDown
  | .detach => s.detach
  | .join => s.join

/-- What several acts come to. -/
abbrev after (s : WorkerWithCallers τ) (acts : List (Act τ)) : WorkerWithCallers τ :=
  run step s acts

end WorkerWithCallers

/-! ## What becomes of a task -/

namespace Worker

variable {τ : Type} {w w' : Worker τ} {t : τ} {answer : Option (Except SubmitError Unit)}

/-- What the worker does with a task that it is given.  The line may change at any answer. -/
inductive Gets (w : Worker τ) (t : τ) :
    Option (Except SubmitError Unit) → Worker τ → Prop
  | accepts (waiting : List (Nat × τ)) (hruns : w.hasEnded = false)
      (hroom : w.queue.length < w.capacity) :
      Gets w t (some (.ok ())) { w with waiting, queue := w.queue ++ [t] }
  | defers (waiting : List (Nat × τ)) (hruns : w.hasEnded = false) :
      Gets w t none { w with waiting }
  | isFull (hruns : w.hasEnded = false) : Gets w t (some (.error .full)) w
  | hasEnded (waiting : List (Nat × τ)) (hended : w.hasEnded = true) :
      Gets w t (some (.error .stopped)) { w with waiting }

theorem gets_submit (w : Worker τ) (caller : Nat) (t : τ) :
    w.Gets t (w.submit caller t).1 (w.submit caller t).2 := by
  simp only [submit]
  cases hended : w.hasEnded with
  | true => exact .hasEnded _ hended
  | false =>
      simp only [Bool.false_eq_true, if_false]
      split
      next hroom => exact .accepts _ hended (by rw [room] at hroom; omega)
      next =>
        split
        · exact .defers w.waiting hended
        · exact .defers _ hended

theorem gets_trySubmit (w : Worker τ) (t : τ) :
    w.Gets t (some (w.trySubmit t).1) (w.trySubmit t).2 := by
  simp only [trySubmit]
  cases hended : w.hasEnded with
  | true => exact .hasEnded w.waiting hended
  | false =>
      simp only [Bool.false_eq_true, if_false]
      split
      next hroom => exact .accepts w.waiting hended (by rw [room] at hroom; omega)
      next => exact .isFull hended

/-- A task that need not wait is refused when all room is taken or reserved. -/
theorem trySubmit_full_iff (hruns : w.hasEnded = false) (hle : w.queue.length ≤ w.capacity) :
    (w.trySubmit t).1 = .error .full ↔ w.queue.length + w.reserved = w.capacity := by
  rw [trySubmit, if_neg (by simp only [hruns, Bool.false_eq_true, not_false_eq_true]), reserved]
  by_cases hroom : w.waiting.length < w.room
  · rw [if_pos hroom]
    simp only [reduceCtorEq, false_iff]
    rw [room] at hroom ⊢
    omega
  · rw [if_neg hroom]
    simp only [true_iff]
    rw [room] at hroom ⊢
    omega

theorem begin_cases (w : Worker τ) (now : Nat) :
    w.period = some 0 ∧ w.begin now = w.finish ∨
      w.period ≠ some 0 ∧ ∃ due, w.begin now = { w with phase := .idle, due } := by
  rw [begin.eq_def]
  split
  next h => exact Or.inr ⟨by simp [h], w.due, rfl⟩
  next h => exact Or.inl ⟨h, rfl⟩
  next n hn h => exact Or.inr ⟨fun h' => hn (Option.some.inj (h ▸ h')), now + n, rfl⟩

end Worker

namespace WorkerWithCallers

variable {τ : Type} {capacity : Nat} {period : Option Nat} {s : WorkerWithCallers τ}
  {l : List (Note τ)} {e : Worker.Event τ}

/-! ## The journal -/

/-- Everything that has begun has ended before anything else began, and the request to stop has
not come up. -/
inductive Paired : List (Note τ) → Prop
  | nil : Paired []
  | snoc {l : List (Note τ)} {e : Worker.Event τ} (h : Paired l) (he : e ≠ .stop) :
      Paired (l ++ [.begins e, .ends e])

/-- The journal of a worker that is in a place. -/
inductive Keeps (period : Option Nat) : Place τ → List (Note τ) → Prop
  | fresh : Keeps period .fresh []
  | waiting {l : List (Note τ)} (h : Paired l) : Keeps period .waiting l
  | handling {l : List (Note τ)} (h : Paired l) (e : Worker.Event τ) :
      Keeps period (.handling e) (l ++ [.begins e])
  | stopped {l : List (Note τ)} (h : Paired l) :
      Keeps period .gone (l ++ [.begins .stop, .ends .stop])
  | broken {l : List (Note τ)} (h : Paired l) (t : τ) :
      Keeps period .gone (l ++ [.begins (.task t), .breaks t])
  /-- A worker whose tick would never pause has not dealt with anything. -/
  | restless (h : period = some 0) : Keeps period .gone []

theorem Keeps.eq_nil (h : Keeps period .fresh l) : l = [] := by
  cases h
  rfl

theorem Keeps.paired (h : Keeps period .waiting l) : Paired l := by
  cases h
  assumption

theorem Keeps.handled (h : Keeps period (.handling e) l) :
    ∃ l', Paired l' ∧ l = l' ++ [.begins e] := by
  cases h with
  | handling h e => exact ⟨_, h, rfl⟩

/-- What stays true of a worker with its callers, whatever happens. -/
structure Sound (capacity : Nat) (period : Option Nat) (s : WorkerWithCallers τ) : Prop where
  room : s.worker.capacity = max 1 capacity
  tick : s.worker.period = period
  journal : Keeps period s.place s.journal
  ended : s.worker.hasEnded = true ↔ s.place = .gone
  inOrder : s.begun <+: s.accepted
  queued : s.worker.hasEnded = false → s.accepted = s.begun ++ s.worker.queue
  bounded : s.worker.queue.length ≤ max 1 capacity
  stopped : s.stopped = true → s.attached = false ∧ s.worker.hasEnded = true

theorem Sound.start (capacity : Nat) (period : Option Nat) :
    (start capacity period : WorkerWithCallers τ).Sound capacity period where
  room := rfl
  tick := rfl
  journal := .fresh
  ended := iff_of_false (fun h => by cases h) (fun h => by cases h)
  inOrder := List.nil_prefix
  queued _ := rfl
  bounded := Nat.zero_le _
  stopped h := by cases h

namespace Sound

variable (h : s.Sound capacity period)

include h

/-- A task is given to the worker. -/
theorem gets {t : τ} {answer : Option (Except SubmitError Unit)} {worker : Worker τ}
    (hgets : s.worker.Gets t answer worker) :
    Sound capacity period { s with worker, accepted := s.accepted ++ taken t answer } := by
  cases hgets with
  | accepts waiting hruns hroom =>
      refine ⟨h.room, h.tick, h.journal, h.ended, ?_, fun _ => ?_, ?_, h.stopped⟩
      · exact h.inOrder.trans (List.prefix_append _ _)
      · show s.accepted ++ [t] = s.begun ++ (s.worker.queue ++ [t])
        rw [h.queued hruns, List.append_assoc]
      · rw [h.room] at hroom
        rw [List.length_append, List.length_singleton]
        exact hroom
  | defers waiting | isFull | hasEnded waiting =>
      simp only [taken, List.append_nil]
      exact ⟨h.room, h.tick, h.journal, h.ended, h.inOrder, h.queued, h.bounded, h.stopped⟩

theorem submit (way : Way) (caller : Nat) (t : τ) :
    (s.submit way caller t).2.Sound capacity period := by
  rw [WorkerWithCallers.submit]
  split
  · exact h
  · exact h.gets (s.worker.gets_submit caller t)

theorem trySubmit (way : Way) (t : τ) : (s.trySubmit way t).2.Sound capacity period := by
  rw [WorkerWithCallers.trySubmit]
  split
  · exact h
  · exact h.gets (s.worker.gets_trySubmit t)

theorem runs (hplace : s.place ≠ .gone) : s.worker.hasEnded = false := by
  rw [← Bool.not_eq_true, h.ended]
  exact hplace

/-- The worker goes on, and writes down what it does. -/
theorem moves {worker : Worker τ} {place : Place τ} (notes : List (Note τ))
    (hplace : s.place ≠ .gone) (hroom : worker.capacity = s.worker.capacity)
    (htick : worker.period = s.worker.period) (hkeeps : Keeps period place (s.journal ++ notes))
    (hended : worker.hasEnded = true ↔ place = .gone)
    (hqueue : notes.filterMap begun? ++ worker.queue <+: s.worker.queue)
    (hlasts : place ≠ .gone → notes.filterMap begun? ++ worker.queue = s.worker.queue) :
    Sound capacity period { s with worker, place, journal := s.journal ++ notes } := by
  have hbegun : (s.journal ++ notes).filterMap begun? = s.begun ++ notes.filterMap begun? :=
    List.filterMap_append
  have haccepted := h.queued (h.runs hplace)
  refine ⟨hroom.trans h.room, htick.trans h.tick, hkeeps, hended, ?_, fun hruns => ?_, ?_, ?_⟩
  · show (s.journal ++ notes).filterMap begun? <+: s.accepted
    rw [hbegun, haccepted, List.prefix_append_right_inj]
    exact (List.prefix_append _ _).trans hqueue
  · show s.accepted = (s.journal ++ notes).filterMap begun? ++ worker.queue
    have hgoes : place ≠ .gone := by
      rw [← Bool.not_eq_true, hended] at hruns
      exact hruns
    rw [hbegun, List.append_assoc, hlasts hgoes]
    exact haccepted
  · have hle := hqueue.length_le
    rw [List.length_append] at hle
    exact Nat.le_trans (Nat.le_of_add_left_le hle) h.bounded
  · exact fun hstopped => absurd (h.ended.1 (h.stopped hstopped).2) hplace

theorem begin (now : Nat) : (s.begin now).Sound capacity period := by
  rw [WorkerWithCallers.begin.eq_def]
  split
  next hplace =>
    have hgoes : s.place ≠ .gone := by simp [hplace]
    have hnil : s.journal = [] := (hplace ▸ h.journal).eq_nil
    rcases s.worker.begin_cases now with ⟨hperiod, hbegin⟩ | ⟨hperiod, due, hbegin⟩
    · have hkeeps : Keeps period .gone (s.journal ++ []) := by
        rw [hnil]
        exact .restless (h.tick.symm.trans hperiod)
      have hgone : Sound capacity period { s with
          worker := s.worker.finish, place := .gone, journal := s.journal ++ [] } :=
        h.moves [] hgoes rfl rfl hkeeps (iff_of_true rfl rfl) List.nil_prefix fun h => absurd rfl h
      rw [List.append_nil] at hgone
      rw [hbegin]
      exact hgone
    · have hkeeps : Keeps period .waiting (s.journal ++ []) := by
        rw [hnil]
        exact .waiting .nil
      have hwaits : Sound capacity period { s with
          worker := { s.worker with phase := .idle, due }, place := .waiting
          journal := s.journal ++ [] } :=
        h.moves [] hgoes rfl rfl hkeeps
          (iff_of_false (fun h => by cases h) (fun h => by cases h)) List.prefix_rfl fun _ => rfl
      rw [List.append_nil] at hwaits
      rw [hbegin]
      exact hwaits
  next => exact h

theorem take (now n : Nat) : (s.take now n).Sound capacity period := by
  rw [WorkerWithCallers.take.eq_def]
  split
  next hplace =>
    have hgoes : s.place ≠ .gone := by simp [hplace]
    have hpaired : Paired s.journal := (hplace ▸ h.journal).paired
    split
    next e he =>
      have hqueue : [Note.begins e].filterMap begun? ++ (s.worker.take now e).queue
          = s.worker.queue := by
        cases e with
        | task t => exact (Worker.queue_of_ready (List.mem_of_getElem? he)).symm
        | tick | stop => rfl
      refine h.moves [.begins e] hgoes ?_ ?_ (.handling hpaired e) ?_ ?_ fun _ => hqueue
      · cases e <;> rfl
      · cases e <;> rfl
      · exact iff_of_false (by simp [Worker.hasEnded_take]) (fun h => by cases h)
      · exact ⟨[], (List.append_nil _).trans hqueue⟩
    next =>
      refine ⟨h.room, h.tick, h.journal, ?_, h.inOrder, fun _ => ?_, h.bounded, fun hstopped => ?_⟩
      · exact iff_of_false (fun h => by cases h) hgoes
      · exact h.queued (h.runs hgoes)
      · exact absurd (h.ended.1 (h.stopped hstopped).2) hgoes
  next => exact h

theorem finish : s.finish.Sound capacity period := by
  rw [WorkerWithCallers.finish.eq_def]
  split
  next hplace =>
    have hgoes : s.place ≠ .gone := by simp [hplace]
    obtain ⟨l, hpaired, hjournal⟩ := (hplace ▸ h.journal).handled
    refine h.moves [.ends .stop] hgoes rfl rfl ?_ (iff_of_true rfl rfl) List.nil_prefix
      fun h => absurd rfl h
    rw [hjournal, List.append_assoc]
    exact .stopped hpaired
  next e hstop hplace =>
    have hgoes : s.place ≠ .gone := by simp [hplace]
    obtain ⟨l, hpaired, hjournal⟩ := (hplace ▸ h.journal).handled
    refine h.moves [.ends e] hgoes rfl rfl ?_ ?_ (List.prefix_refl _) fun _ => rfl
    · rw [hjournal, List.append_assoc]
      exact .waiting (hpaired.snoc hstop)
    · rw [h.runs hgoes]
      exact iff_of_false Bool.false_ne_true (fun h => by cases h)
  next => exact h

theorem breakDown : s.breakDown.Sound capacity period := by
  rw [WorkerWithCallers.breakDown.eq_def]
  split
  next t hplace =>
    have hgoes : s.place ≠ .gone := by simp [hplace]
    obtain ⟨l, hpaired, hjournal⟩ := (hplace ▸ h.journal).handled
    refine h.moves [.breaks t] hgoes rfl rfl ?_ (iff_of_true rfl rfl) List.nil_prefix
      fun h => absurd rfl h
    rw [hjournal, List.append_assoc]
    exact .broken hpaired t
  next => exact h

theorem detach : s.detach.Sound capacity period where
  room := h.room
  tick := h.tick
  journal := h.journal
  ended := h.ended
  inOrder := h.inOrder
  queued := h.queued
  bounded := h.bounded
  stopped hstopped := ⟨rfl, (h.stopped hstopped).2⟩

theorem join : s.join.Sound capacity period := by
  rw [WorkerWithCallers.join]
  split
  next hjoins =>
    simp only [Bool.and_eq_true, Bool.not_eq_true'] at hjoins
    exact ⟨h.room, h.tick, h.journal, h.ended, h.inOrder, h.queued, h.bounded, fun _ => hjoins⟩
  next => exact h

theorem step (act : Act τ) : (s.step act).Sound capacity period := by
  cases act with
  | submit way caller t => exact h.submit way caller t
  | giveUp caller =>
      exact ⟨h.room, h.tick, h.journal, h.ended, h.inOrder, h.queued, h.bounded, h.stopped⟩
  | trySubmit way t => exact h.trySubmit way t
  | begin now => exact h.begin now
  | take now n => exact h.take now n
  | finish => exact h.finish
  | breakDown => exact h.breakDown
  | detach => exact h.detach
  | join => exact h.join

theorem along_run (acts : List (Act τ)) :
    (run WorkerWithCallers.step s acts).Sound capacity period :=
  run_keeps (fun _ act hs => hs.step act) h acts

end Sound

/-- The worker takes the first event that is ready. -/
theorem take_first (hplace : s.place = .waiting) (now : Nat) :
    (s.take now 0).worker = (s.worker.next now).2 ∧ (s.take now 0).attached = s.attached ∧
    (∀ e, (s.worker.next now).1 = some e →
      (s.take now 0).place = .handling e ∧ (s.take now 0).journal = s.journal ++ [.begins e]) ∧
    ((s.worker.next now).1 = none →
      (s.take now 0).place = .waiting ∧ (s.take now 0).journal = s.journal) := by
  rw [take, hplace]
  simp only [Worker.next]
  cases s.worker.ready now with
  | nil => exact ⟨rfl, rfl, fun e he => (by cases he), fun _ => ⟨rfl, rfl⟩⟩
  | cons e rest =>
      refine ⟨rfl, rfl, fun e' he => ?_, fun h => by cases h⟩
      cases he
      exact ⟨rfl, rfl⟩

theorem finish_of_ne (hplace : s.place = .handling e) (he : e ≠ .stop) :
    s.finish = { s with place := .waiting, journal := s.journal ++ [.ends e] } := by
  rw [finish, hplace]
  cases e with
  | stop => exact absurd rfl he
  | task t | tick => rfl

/-! ## Workers that go on -/

/-- Nobody asked the worker to stop, and it has not ended. -/
structure GoesOn (s : WorkerWithCallers τ) : Prop where
  attached : s.attached = true
  unasked : s.worker.stopping = false
  remains : s.place ≠ .gone
  unstopped : s.place ≠ .handling .stop

namespace GoesOn

variable (h : s.GoesOn)

include h

theorem gets {t : τ} {answer : Option (Except SubmitError Unit)} {worker : Worker τ}
    (hgets : s.worker.Gets t answer worker) (accepted : List τ) :
    GoesOn { s with worker, accepted } := by
  cases hgets with
  | accepts | defers | isFull | hasEnded => exact ⟨h.attached, h.unasked, h.remains, h.unstopped⟩

theorem begin (now : Nat) (hperiod : s.worker.period ≠ some 0) : (s.begin now).GoesOn := by
  rw [WorkerWithCallers.begin.eq_def]
  split
  next =>
    obtain ⟨hzero, -⟩ | ⟨-, due, hbegin⟩ := s.worker.begin_cases now
    · exact absurd hzero hperiod
    · rw [hbegin]
      exact ⟨h.attached, h.unasked, (fun h => by cases h), (fun h => by cases h)⟩
  next => exact h

theorem take (now n : Nat) : (s.take now n).GoesOn := by
  rw [WorkerWithCallers.take.eq_def]
  split
  next =>
    split
    next e he =>
      have hstop : e ≠ .stop := by
        rintro rfl
        have hmem := List.mem_of_getElem? he
        simp [Worker.ready, h.unasked] at hmem
      refine ⟨h.attached, ?_, (fun h => by cases h), fun hplace => ?_⟩
      · cases e <;> exact h.unasked
      · exact hstop (Place.handling.inj hplace)
    next => exact ⟨h.attached, h.unasked, h.remains, h.unstopped⟩
  next => exact h

theorem finish : s.finish.GoesOn := by
  rw [WorkerWithCallers.finish.eq_def]
  split
  next hplace => exact absurd hplace h.unstopped
  next => exact ⟨h.attached, h.unasked, (fun h => by cases h), (fun h => by cases h)⟩
  next => exact h

theorem step (hperiod : s.worker.period ≠ some 0) {act : Act τ} (hgentle : act.IsGentle = true) :
    (s.step act).GoesOn := by
  cases act with
  | submit way caller t =>
      show (s.submit way caller t).2.GoesOn
      rw [submit]
      split
      · exact h
      · exact h.gets (s.worker.gets_submit caller t) _
  | giveUp caller => exact ⟨h.attached, h.unasked, h.remains, h.unstopped⟩
  | trySubmit way t =>
      show (s.trySubmit way t).2.GoesOn
      rw [trySubmit]
      split
      · exact h
      · exact h.gets (s.worker.gets_trySubmit t) _
  | begin now => exact h.begin now hperiod
  | take now n => exact h.take now n
  | finish => exact h.finish
  | breakDown | detach => cases hgentle
  | join =>
      show s.join.GoesOn
      rw [join, h.attached]
      exact h

end GoesOn

theorem goesOn_run {s : WorkerWithCallers τ} (h : s.Sound capacity period) (hgoes : s.GoesOn)
    (hperiod : period ≠ some 0) {acts : List (Act τ)}
    (hgentle : ∀ act ∈ acts, act.IsGentle = true) : (run step s acts).GoesOn := by
  refine (run_of_forall (Q := fun s : WorkerWithCallers τ => s.Sound capacity period ∧ s.GoesOn)
    (fun act hact s hs => ?_) ⟨h, hgoes⟩).2
  obtain ⟨h, hgoes⟩ := hs
  exact ⟨h.step act, hgoes.step (h.tick ▸ hperiod) (hgentle act hact)⟩

/-- Tasks are taken in the order in which they were accepted, each of them once, and one is dealt
with after the other. -/
structure InOrder (capacity : Nat) (s : WorkerWithCallers τ) : Prop where
  accepted : s.accepted = s.begun ++ s.worker.queue
  oneByOne : ∃ l, Paired l ∧ (s.journal = l ∨ ∃ e, s.journal = l ++ [.begins e])
  bounded : s.worker.queue.length ≤ max 1 capacity
  /-- A task that need not wait is refused when all room is taken or reserved, and only then. -/
  full : ∀ way t, (s.trySubmit way t).1 = .error .full ↔
    s.worker.queue.length + s.worker.reserved = max 1 capacity

/-- As long as nobody stops or breaks it, a worker takes its tasks in order. -/
theorem inOrder_of_gentle (capacity : Nat) {period : Option Nat} (hperiod : period ≠ some 0)
    {acts : List (Act τ)} (hgentle : ∀ act ∈ acts, act.IsGentle = true) :
    (run step (start capacity period) acts).InOrder capacity := by
  have hstart : (start capacity period : WorkerWithCallers τ).GoesOn :=
    ⟨rfl, rfl, (fun h => by cases h), (fun h => by cases h)⟩
  have hsound :=
    (Sound.start capacity period : Sound capacity period (_ : WorkerWithCallers τ)).along_run acts
  have hgoes := goesOn_run (.start capacity period) hstart hperiod hgentle
  generalize run step (start capacity period) acts = s at hsound hgoes
  have hruns := hsound.runs hgoes.remains
  refine ⟨hsound.queued hruns, ?_, hsound.bounded, fun way t => ?_⟩
  · have hkeeps := hsound.journal
    have hgone := hgoes.remains
    generalize s.place = place, s.journal = l at hkeeps hgone
    cases hkeeps with
    | fresh => exact ⟨[], .nil, Or.inl rfl⟩
    | waiting h => exact ⟨l, h, Or.inl rfl⟩
    | handling h e => exact ⟨_, h, Or.inr ⟨e, rfl⟩⟩
    | stopped | broken | restless => exact absurd rfl hgone
  · have hopen : s.isShut way = false := by
      cases way with
      | owner => simp [isShut, hgoes.attached]
      | handle => rfl
    rw [trySubmit, hopen, ← hsound.room]
    exact Worker.trySubmit_full_iff hruns (hsound.room ▸ hsound.bounded)

/-- A worker with room for one task.  A caller that waits gets the room that comes free, and a late
tick is taken before the task of that caller. -/
def lateTick : List (Act Nat) :=
  [.begin 0, .trySubmit .handle 1, .submit .owner 7 2, .take 0 0, .trySubmit .owner 3,
    .submit .owner 7 2, .finish, .take 100 1]

theorem inOrder_of_lateTick : (run step (start 0 (some 20)) lateTick).InOrder 0 ∧
    (run step (start 0 (some 20)) lateTick).journal
      = [.begins (.task 1), .ends (.task 1), .begins .tick] ∧
    (run step (start 0 (some 20)) lateTick).accepted = [1, 2] :=
  ⟨inOrder_of_gentle 0 (by decide) (by decide), by decide, by decide⟩

/-! ## Workers that were stopped -/

/-- A worker that was stopped has come to rest for good. -/
structure CleanlyStopped (s : WorkerWithCallers τ) : Prop where
  /-- Everything that began has ended.  The request to stop was dealt with last, or a task broke the
  worker before. -/
  ended : ∃ l, Paired l ∧ (s.journal = l ++ [.begins .stop, .ends .stop] ∨
    ∃ t, s.journal = l ++ [.begins (.task t), .breaks t])
  inOrder : s.begun <+: s.accepted
  still : ∀ acts, (run step s acts).journal = s.journal ∧ (run step s acts).accepted = s.accepted
  refused : ∀ acts way caller t,
    ((run step s acts).submit way caller t).1 = some (.error .stopped) ∧
    ((run step s acts).trySubmit way t).1 = .error .stopped ∧ (run step s acts).givesHandles = false

/-- A worker has ended and is given up, and nothing has been told of it since an earlier time. -/
structure RestsSince (s₀ s : WorkerWithCallers τ) : Prop where
  place : s.place = .gone
  attached : s.attached = false
  journal : s.journal = s₀.journal
  accepted : s.accepted = s₀.accepted

namespace RestsSince

variable {s₀ : WorkerWithCallers τ} (hrests : RestsSince s₀ s) (h : s.Sound capacity period)

include hrests h

/-- A task that is given to the worker is refused. -/
theorem gets {t : τ} {answer : Option (Except SubmitError Unit)} {worker : Worker τ}
    (hgets : s.worker.Gets t answer worker) : answer = some (.error .stopped) ∧
      RestsSince s₀ { s with worker, accepted := s.accepted ++ taken t answer } := by
  have hended := h.ended.2 hrests.place
  cases hgets with
  | accepts _ hruns | defers _ hruns | isFull hruns =>
      rw [hruns] at hended
      cases hended
  | hasEnded =>
      refine ⟨rfl, hrests.place, hrests.attached, hrests.journal, ?_⟩
      rw [taken.eq_def, List.append_nil]
      exact hrests.accepted

theorem submit (way : Way) (caller : Nat) (t : τ) :
    (s.submit way caller t).1 = some (.error .stopped) ∧
      RestsSince s₀ (s.submit way caller t).2 := by
  rw [WorkerWithCallers.submit]
  split
  · exact ⟨rfl, hrests⟩
  · exact hrests.gets h (s.worker.gets_submit caller t)

theorem trySubmit (way : Way) (t : τ) : (s.trySubmit way t).1 = .error .stopped ∧
    RestsSince s₀ (s.trySubmit way t).2 := by
  rw [WorkerWithCallers.trySubmit]
  split
  · exact ⟨rfl, hrests⟩
  · obtain ⟨hanswer, hrests⟩ := hrests.gets h (s.worker.gets_trySubmit t)
    exact ⟨Option.some.inj hanswer, hrests⟩

theorem step (act : Act τ) : RestsSince s₀ (s.step act) := by
  cases act with
  | submit way caller t => exact (hrests.submit h way caller t).2
  | trySubmit way t => exact (hrests.trySubmit h way t).2
  | giveUp => exact ⟨hrests.place, hrests.attached, hrests.journal, hrests.accepted⟩
  | detach => exact ⟨hrests.place, rfl, hrests.journal, hrests.accepted⟩
  | begin now =>
      show RestsSince s₀ (s.begin now)
      rw [begin, hrests.place]
      exact hrests
  | take now n =>
      show RestsSince s₀ (s.take now n)
      rw [take, hrests.place]
      exact hrests
  | finish =>
      show RestsSince s₀ s.finish
      rw [finish, hrests.place]
      exact hrests
  | breakDown =>
      show RestsSince s₀ s.breakDown
      rw [breakDown, hrests.place]
      exact hrests
  | join =>
      show RestsSince s₀ s.join
      rw [join]
      split
      · exact ⟨hrests.place, hrests.attached, hrests.journal, hrests.accepted⟩
      · exact hrests

theorem along_run (acts : List (Act τ)) : RestsSince s₀ (run WorkerWithCallers.step s acts) :=
  (run_keeps (Q := fun s => RestsSince s₀ s ∧ s.Sound capacity period)
    (fun _ act hs => ⟨hs.1.step hs.2 act, hs.2.step act⟩) ⟨hrests, h⟩ acts).1

end RestsSince

/-- When a call to stop has returned the worker is cleanly stopped, whatever happened before. -/
theorem cleanlyStopped {capacity : Nat} {period : Option Nat} (hperiod : period ≠ some 0)
    {acts : List (Act τ)} (hstopped : (run step (start capacity period) acts).stopped = true) :
    (run step (start capacity period) acts).CleanlyStopped := by
  have hsound :=
    (Sound.start capacity period : Sound capacity period (_ : WorkerWithCallers τ)).along_run acts
  generalize run step (start capacity period) acts = s at hsound hstopped
  obtain ⟨hattached, hended⟩ := hsound.stopped hstopped
  have hrests : RestsSince s s := ⟨hsound.ended.1 hended, hattached, rfl, rfl⟩
  refine ⟨?_, hsound.inOrder, fun acts => ?_, fun acts way caller t => ?_⟩
  · have hkeeps := hsound.journal
    have hgone := hrests.place
    generalize s.place = place, s.journal = l at hkeeps hgone
    cases hkeeps with
    | fresh | waiting | handling => cases hgone
    | stopped h => exact ⟨_, h, Or.inl rfl⟩
    | broken h t => exact ⟨_, h, Or.inr ⟨t, rfl⟩⟩
    | restless h => exact absurd h hperiod
  · have hrests := hrests.along_run hsound acts
    exact ⟨hrests.journal, hrests.accepted⟩
  · have hlater := hsound.along_run acts
    have hrests := hrests.along_run hsound acts
    exact ⟨(hrests.submit hlater way caller t).1, (hrests.trySubmit hlater way t).1,
      hrests.attached⟩

/-- A worker that is stopped during a task.  It takes the request to stop before a task that is
ready, and meanwhile tasks still come in. -/
def stopDuringTask : List (Act Nat) :=
  [.begin 0, .trySubmit .owner 1, .trySubmit .owner 2, .take 0 0, .submit .handle 5 3,
    .submit .handle 6 4, .detach, .finish, .take 0 1, .giveUp 6, .finish, .join]

theorem cleanlyStopped_duringTask : (run step (start 2 none) stopDuringTask).CleanlyStopped ∧
    (run step (start 2 none) stopDuringTask).journal
      = [.begins (.task 1), .ends (.task 1), .begins .stop, .ends .stop] ∧
    (run step (start 2 none) stopDuringTask).accepted = [1, 2, 3] :=
  ⟨cleanlyStopped (by decide) (by decide), by decide, by decide⟩

end WorkerWithCallers

end RecordStore
