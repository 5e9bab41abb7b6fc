import RecordStore.Proofs.Cache.Duties
import RecordStore.Proofs.Cache.WithCallers

/-!
# The eviction passes that programs run

The programs of a cache evict in one way: they run a pass (`Service.evictOldest`), and between
passes they ask nothing that only a pass asks (`Service.RunsPasses`).

So a program can be followed.  Beside it stands what is left of the pass that it is in, or the whole
of its next one (`Service.Follows`).  That is told every reply that the program is told, and goes on
when the request is its own (`Program.hear`).  When it has an outcome the pass is over, and it
starts again.

A pass that has an outcome has just reported it to the cache: nothing was to be done, so many
entries were removed, or the pass failed (`Service.UnderWay`).
-/

namespace RecordStore

namespace Program

variable {I : Interface} {α : Type}

open Classical in
/-- A program goes on with a reply, if it waits for the reply to this request. -/
noncomputable def hear (p : Program I α) (q : I.Request) (a : I.Reply q) : Program I α :=
  match p with
  | done result => done result
  | ask q' next => if h : q = q' then next (h ▸ a) else ask q' next

theorem hear_ask (q : I.Request) (next : I.Reply q → Program I α) (a : I.Reply q) :
    (ask q next).hear q a = next a := dif_pos rfl

theorem hear_of_ne {q q' : I.Request} (h : q ≠ q') (next : I.Reply q' → Program I α)
    (a : I.Reply q) : (ask q' next).hear q a = ask q' next := dif_neg h

/-- The result of a program that has one. -/
def result? : Program I α → Option α
  | done a => some a
  | ask _ _ => none

end Program

namespace Cache

/-- Whether a request may be made between eviction passes.  It changes neither the counters nor the
slots, but that a shutdown empties the cache. -/
def Request.isBetween : Request → Bool
  | .perform _ | .receive _ _ | .beginEviction | .dropWritten _ | .failEviction => false
  | _ => true

/-- Whether a request may be made in a pass or between passes.  What is offered and called comes
from outside of programs. -/
def Request.isOfProgram : Request → Bool
  | .perform _ | .receive _ _ => false
  | _ => true

theorem Request.isOfProgram_of_isBetween {q : Request} (h : q.isBetween = true) :
    q.isOfProgram = true := by
  cases q <;> first | rfl | cases h

namespace Service

variable {α β : Type} {name : String} {p : Prog α} {q : Request}

/-! ## Programs made of passes -/

/-- Programs that evict by running passes only. -/
inductive RunsPasses (name : String) {α : Type} : Prog α → Prop where
  | done (a : α) : RunsPasses name (.done a)
  | ask {q : Request} {next : Reply q → Prog α} (hq : q.isBetween = true)
      (hnext : ∀ a, RunsPasses name (next a)) : RunsPasses name (.ask q next)
  | pass {p : Prog α} {f : Except Error Nat → Prog α} (hp : p = (evictOldest name).bind f)
      (hf : ∀ outcome, RunsPasses name (f outcome)) : RunsPasses name p

namespace RunsPasses

theorem bind {f : α → Prog β} (h : RunsPasses name p) (hf : ∀ a, RunsPasses name (f a)) :
    RunsPasses name (p.bind f) := by
  induction h with
  | done a => exact hf a
  | ask hq _ ih => exact .ask hq ih
  | pass hp _ ih =>
      subst hp
      exact .pass (Program.bind_assoc _ _ _) ih

/-- Programs that do not evict. -/
theorem of_between (h : p.Obeys (fun (_ : Unit) (q : Request) _ => q.isBetween = true)
    (fun _ _ => True) ()) : RunsPasses name p := by
  induction p with
  | done a => exact .done a
  | ask q next ih =>
      obtain ⟨_, hq, hnext⟩ := h
      exact .ask hq fun a => ih a (hnext a)

end RunsPasses

theorem runsPasses_evictOldest (name : String) : RunsPasses name (evictOldest name) :=
  .pass (Program.bind_done _).symm fun _ => .done _

theorem runsPasses_flushAll (name : String) : RunsPasses name (flushAll name) := by
  refine .ask rfl fun p => ?_
  cases p with
  | none => exact .done _
  | some p =>
      have hobeys := @obeys_writeBatch Unit (fun _ => ()) (fun _ => ()) ()
        (fun _ (q : Request) _ => q.isBetween = true) (fun h => by cases h <;> rfl) name p
      refine (RunsPasses.of_between (hobeys.imp fun _ _ _ => trivial)).bind fun result => ?_
      cases result <;> exact .done _

theorem runsPasses_writeAll (name : String) : RunsPasses name (writeAll name) := by
  refine .ask rfl fun closed => ?_
  cases closed with
  | true => exact .done _
  | false => exact runsPasses_flushAll name

theorem runsPasses_evict (name : String) : RunsPasses name (evict name) := by
  refine .ask rfl fun closed => ?_
  cases closed with
  | true => exact .done _
  | false =>
      refine .ask rfl fun attached => ?_
      cases attached with
      | false => exact runsPasses_evictOldest name
      | true =>
          refine .ask rfl fun ticket => .ask rfl fun accepted => ?_
          cases accepted with
          | true => exact .ask rfl fun _ => .done _
          | false => exact .done _

theorem runsPasses_waitForEvictions (name : String) : RunsPasses name waitForEvictions := by
  refine .ask rfl fun attached => ?_
  cases attached with
  | false => exact .done _
  | true =>
      refine .ask rfl fun ticket => .ask rfl fun accepted => ?_
      cases accepted with
      | true => exact .ask rfl fun _ => .done _
      | false => exact .done _

theorem runsPasses_requestPass (name : String) : RunsPasses name requestPass := by
  refine .ask rfl fun noted => ?_
  cases noted with
  | true => exact .done _
  | false =>
      refine .ask rfl fun queued => ?_
      cases queued with
      | true => exact .done _
      | false => exact .ask rfl fun _ => .done _

theorem runsPasses_shutdown (name : String) : RunsPasses name (shutdown name) := by
  have hflush : RunsPasses name (flushOut name) := by
    refine (runsPasses_flushAll name).bind fun result => ?_
    cases result with
    | error e => exact .done _
    | ok count => exact .ask rfl fun _ => .done _
  refine .ask rfl fun closed => ?_
  cases closed with
  | true => exact .done _
  | false =>
      refine .ask rfl fun attached => ?_
      cases attached with
      | true => exact .ask rfl fun _ => hflush
      | false => exact hflush

theorem runsPasses_program (name : String) (errand : Errand) :
    RunsPasses name (errand.program name) := by
  cases errand with
  | writeAll => exact runsPasses_writeAll name
  | evict => exact runsPasses_evict name
  | waitForEvictions => exact runsPasses_waitForEvictions name
  | requestPass => exact runsPasses_requestPass name
  | shutdown => exact runsPasses_shutdown name

theorem runsPasses_setOut (name : String) : RunsPasses name setOut :=
  .ask rfl fun _ => .done true

theorem runsPasses_runTask (name : String) (task : Task) : RunsPasses name (runTask name task) := by
  cases task with
  | evict => exact .ask rfl fun _ => (runsPasses_evictOldest name).bind fun _ => .done _
  | evictFor ticket =>
      exact (runsPasses_evictOldest name).bind fun _ => .ask rfl fun _ => .done _
  | mark ticket => exact .ask rfl fun _ => .done _

theorem runsPasses_work (name : String) : RunsPasses name (work name) := by
  refine .ask rfl fun event => ?_
  cases event with
  | task t => exact (runsPasses_runTask name t).bind fun _ => .done _
  | tick =>
      refine .ask rfl fun full => ?_
      cases full with
      | true => exact (runsPasses_evictOldest name).bind fun _ => .done _
      | false => exact .done _
  | stop => exact .ask rfl fun _ => .done _

/-! ## Reports -/

/-- What a pass reports to the cache with a request, if the pass is over then: how many entries it
removed, or that it failed. -/
def reported? : (q : Request) → Reply q → Option (Option Nat)
  | .beginEviction, none => some (some 0)
  | .dropWritten _, removed => some (some removed)
  | .failEviction, _ => some none
  | _, _ => none

theorem reported?_of_isBetween (hq : q.isBetween = true) (a : Reply q) : reported? q a = none := by
  cases q <;> first | rfl | cases hq

/-- What a pass asks when it has reported something or nothing, and what it reports with that. -/
structure Reports (report : Option (Option Nat)) (q : Request)
    (next : Reply q → Option (Option Nat)) : Prop where
  none_before : report = none
  next_eq : next = reported? q
  isOfProgram : q.isOfProgram = true

/-- What is left of a pass that is not over.  Its outcome is what it reports. -/
def UnderWay (p : Prog (Except Error Nat)) : Prop :=
  p.Obeys Reports (fun report outcome => report = some outcome.toOption) none

theorem underWay_evictOldest (name : String) : UnderWay (evictOldest name) := by
  refine ⟨_, ⟨rfl, rfl, rfl⟩, fun p => ?_⟩
  cases p with
  | none => rfl
  | some p =>
      -- nothing is reported before the batch has ended
      have hsilent : ∀ {report q next},
          PassAsks (fun _ => none) (fun _ => none) (none : Option (Option Nat)) report q next →
            Reports report q next := by
        intro report q next h
        cases h with
        | save p => exact ⟨rfl, rfl, rfl⟩
        | finish p written =>
            refine ⟨rfl, funext fun ids => ?_, rfl⟩
            simp only [passMarked, ite_self]
            rfl
        | delete p written ids =>
            refine ⟨rfl, funext fun a => ?_, rfl⟩
            cases a <;> exact ite_self none
      refine (obeys_writeBatch hsilent name p).bind fun report result hreport => ?_
      subst hreport
      cases result with
      | error e => exact ⟨_, ⟨rfl, rfl, rfl⟩, fun _ => rfl⟩
      | ok _ => exact ⟨_, ⟨rfl, rfl, rfl⟩, fun _ => rfl⟩

namespace UnderWay

variable {next : Reply q → Prog (Except Error Nat)}

theorem ne_done {outcome : Except Error Nat} : ¬ UnderWay (.done outcome) := nofun

/-- A pass goes on, or it is over and has reported its outcome. -/
theorem hear (h : UnderWay (.ask q next)) (a : Reply q) :
    reported? q a = none ∧ UnderWay (next a) ∨
      ∃ outcome, next a = .done outcome ∧ reported? q a = some outcome.toOption := by
  obtain ⟨_, ⟨-, rfl, -⟩, hnext⟩ := h
  have ha := hnext a
  cases hp : next a with
  | done outcome =>
      rw [hp] at ha
      exact .inr ⟨outcome, rfl, ha⟩
  | ask q' next' =>
      rw [hp] at ha
      have hnone : reported? q a = none := by
        obtain ⟨_, hreports, -⟩ := ha
        exact hreports.none_before
      rw [hnone] at ha
      exact .inl ⟨hnone, ha⟩

end UnderWay

/-! ## Following a program -/

/-- What is left of a pass, or the whole of the next one if it is over. -/
def renew (name : String) : Prog (Except Error Nat) → Prog (Except Error Nat)
  | .done _ => evictOldest name
  | p => p

/-- Beside a program stands what is left of the pass that it is in, or the whole of its next
pass. -/
inductive Follows (name : String) {α : Type} : Prog (Except Error Nat) → Prog α → Prop where
  | between {p : Prog α} (h : RunsPasses name p) : Follows name (evictOldest name) p
  | within {left : Prog (Except Error Nat)} {p : Prog α} {f : Except Error Nat → Prog α}
      (hp : p = left.bind f) (hleft : UnderWay left) (hf : ∀ outcome, RunsPasses name (f outcome)) :
      Follows name left p

namespace Follows

variable {left : Prog (Except Error Nat)}

/-- A program that has ended is in no pass. -/
theorem of_done {a : α} (h : Follows name left (Program.done a : Prog α)) :
    left = evictOldest name := by
  cases h with
  | between => rfl
  | within hp hleft =>
      cases left with
      | done outcome => exact absurd hleft UnderWay.ne_done
      | ask q next => cases hp

/-- A program asks what may be asked in a pass or between passes. -/
theorem isOfProgram {next : Reply q → Prog α} (h : Follows name left (.ask q next)) :
    q.isOfProgram = true := by
  cases h with
  | between h =>
      cases h with
      | ask hq => exact Request.isOfProgram_of_isBetween hq
      | pass hp =>
          cases hp
          rfl
  | within hp hleft =>
      cases left with
      | done outcome => exact absurd hleft UnderWay.ne_done
      | ask q' next' =>
          cases hp
          obtain ⟨_, hreports, -⟩ := hleft
          exact hreports.isOfProgram

/-- A pass and the program that is in it are told the same. -/
theorem hear_within {next : Reply q → Prog α} {f : Except Error Nat → Prog α}
    (hp : Program.ask q next = left.bind f) (hleft : UnderWay left)
    (hf : ∀ outcome, RunsPasses name (f outcome)) (a : Reply q) :
    Follows name (renew name (left.hear q a)) (next a) ∧
      (left.hear q a).result?.map Except.toOption = reported? q a := by
  cases left with
  | done outcome => exact absurd hleft UnderWay.ne_done
  | ask q' next' =>
      cases hp
      rw [Program.hear_ask]
      change Follows name (renew name (next' a)) ((next' a).bind f) ∧ _
      rcases hleft.hear a with ⟨hnone, hunder⟩ | ⟨outcome, hdone, hreport⟩
      · rw [hnone]
        cases hnext : next' a with
        | done outcome => exact absurd (hnext ▸ hunder) UnderWay.ne_done
        | ask q'' next'' =>
            rw [hnext] at hunder
            exact ⟨.within rfl hunder hf, rfl⟩
      · rw [hdone, hreport]
        exact ⟨.between (hf outcome), rfl⟩

/-- What stands beside a program goes on with it, and when a pass has an outcome then this was
reported. -/
theorem hear {next : Reply q → Prog α} (h : Follows name left (.ask q next)) (a : Reply q) :
    Follows name (renew name (left.hear q a)) (next a) ∧
      (left.hear q a).result?.map Except.toOption = reported? q a := by
  cases h with
  | within hp hleft hf => exact hear_within hp hleft hf a
  | between h =>
      cases h with
      | pass hp hf => exact hear_within hp (underWay_evictOldest name) hf a
      | ask hq hnext =>
          have hne : q ≠ .beginEviction := by
            rintro rfl
            cases hq
          have hsame : (evictOldest name).hear q a = evictOldest name := by
            obtain ⟨next, hbegins⟩ : ∃ next, evictOldest name = .ask .beginEviction next :=
              ⟨_, rfl⟩
            rw [hbegins]
            exact Program.hear_of_ne (I := Effects) hne next a
          rw [hsame, reported?_of_isBetween hq]
          exact ⟨.between (hnext a), rfl⟩

end Follows

end Service

end Cache

end RecordStore
