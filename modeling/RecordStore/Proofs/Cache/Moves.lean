import RecordStore.Proofs.Cache.Faithful
import RecordStore.Proofs.Cache.Passes

/-!
# Moves

What matters of a cache with jobs for its passes is its *view*: the contents of the cache, what the
backend stores, the calls that it carried out, and the stage of every program.  `Move`
lists what an event can do to the view, with one rule for each step of a pass.  Where all
programs are orderly, every event is a move (`Follows.step`).

`View.Sound` is what all moves keep.  The batch of an open pass is among the batches of
the contents, two open passes have two batches, and what a pass knows stays true.
-/

namespace RecordStore

namespace Cache

variable {κ : Type}

/-! ## Events by address -/

namespace Event

/-- Whether a record is admitted under an address by a cache that is not closed. -/
def admits (config : Config) (id : EntryId) : Event κ → Bool
  | offer key record => record.idAt key == id && config.takes record
  | _ => false

/-- Whether the cache removes what is under an address. -/
def removes (id : EntryId) : Event κ → Bool
  | delete i => i == id
  | clear kind => id.kind == kind
  | _ => false

end Event

/-! ## Views -/

/-- What matters of a cache with jobs for its passes. -/
structure View where
  contents : Contents
  stored : Records
  /-- The calls carried out by the backend, the latest first, with the numbers of batches. -/
  calls : List (Option Nat × Call)
  stage : Nat → Stage

namespace View

/-- The backend carries out a call. -/
def carryOut (v : View) (batch : Option Nat) (call : Call) : View :=
  { v with stored := v.stored.apply call, calls := (batch, call) :: v.calls }

/-- A program gets to a stage. -/
def enter (v : View) (n : Nat) (st : Stage) : View :=
  { v with stage := Function.update v.stage n st }

theorem enter_self {v : View} {n : Nat} {st : Stage} (h : v.stage n = st) : v.enter n st = v := by
  rw [← h, View.enter, Function.update_eq_self]

@[simp] theorem stage_enter_self (v : View) (n : Nat) (st : Stage) : (v.enter n st).stage n = st :=
  Function.update_self ..

theorem stage_enter_of_ne {v : View} {n k : Nat} {st : Stage} (hk : k ≠ n) :
    (v.enter n st).stage k = v.stage k :=
  Function.update_of_ne hk ..

end View

/-- What an event can do to a view. -/
inductive Move (g : JobSystem κ) (v : View) : Event κ → View → Prop where
  | accept (key : Key) (record : Record) (htakes : g.config.takes record = true) :
      Move g v (.offer key record) { v with contents := v.contents.put key record }
  | refuse (key : Key) (record : Record) (htakes : g.config.takes record = false) :
      Move g v (.offer key record) v
  | delete (id : EntryId) : Move g v (.delete id) { v with contents := v.contents.remove id }
  | clear (kind : Kind) :
      Move g v (.clear kind) { v with contents := v.contents.removeKind kind }
  /-- The owner of the cache calls the backend. -/
  | own (call : Call) : Move g v (.own call) (v.carryOut none call)
  | begin (job : κ) : Move g v (.begin job) v
  | aside (n now : Nat) : Move g v (.advance n now) v
  | idle (n : Nat) (verdict : Verdict) : Move g v (.answer n verdict) v
  | look (n now : Nat) (candidates : List Candidate) (hstage : v.stage n = .resting)
      (hsub : candidates.Sublist v.contents.slots.candidates) :
      Move g v (.advance n now)
        (View.enter { v with contents := (v.contents.begin (candidates.map (·.slot))).2 } n
          (.saving ⟨v.contents.nextBatch, candidates⟩))
  | save (n : Nat) (verdict : Verdict) (p : Pass) (hstage : v.stage n = .saving p) :
      Move g v (.answer n verdict)
        ((v.carryOut (some p.batch) (.saveBatch p.entries)).enter n (.finishing p true))
  /-- A pass is not written, or in part only. -/
  | fail (n : Nat) (verdict : Verdict) (p : Pass) (stored : Records)
      (calls : List (Option Nat × Call)) (hstage : v.stage n = .saving p)
      (hsteady : g.steady (.saveBatch p.entries) = false)
      (hstored : ∀ id, stored id = v.stored id ∨
        ∃ d ∈ p.candidates, d.slot.id = id ∧ stored id = some d.slot.record) :
      Move g v (.answer n verdict)
        (View.enter { v with stored, calls } n (.finishing p false))
  /-- A batch ends without marks. -/
  | finish (n now : Nat) (p : Pass) (written : Bool) (st : Stage)
      (hstage : v.stage n = .finishing p written) (hend : Stage.Ends p written st)
      (hclean : (v.contents.finish p.batch).1 = []) :
      Move g v (.advance n now)
        (View.enter { v with contents := (v.contents.finish p.batch).2 } n st)
  /-- A batch ends with marks. -/
  | finishMarked (n now : Nat) (p : Pass) (written : Bool)
      (hstage : v.stage n = .finishing p written) (hmarked : (v.contents.finish p.batch).1 ≠ []) :
      Move g v (.advance n now)
        (View.enter { v with contents := (v.contents.finish p.batch).2 } n
          (.deleting p written (v.contents.finish p.batch).1))
  /-- What was deleted meanwhile is deleted from the backend. -/
  | redelete (n : Nat) (verdict : Verdict) (p : Pass) (written : Bool) (ids : List EntryId)
      (st : Stage) (hstage : v.stage n = .deleting p written ids)
      (hend : Stage.Ends p written st) :
      Move g v (.answer n verdict) ((v.carryOut (some p.batch) (.deleteBatch ids)).enter n st)
  | drop (n now : Nat) (p : Pass) (capacity : Nat) (hstage : v.stage n = .dropping p) :
      Move g v (.advance n now)
        (View.enter { v with
          contents := (v.contents.dropAllWritten p.candidates).2.rebuild capacity } n .resting)

/-! ## Caches with jobs and their views -/

/-- A cache with jobs that is seen as a view. -/
structure Follows (g : JobSystem κ) (s : WithJobs) (v : View) : Prop where
  contents : s.running.cache.contents = v.contents
  stored : s.stored = v.stored
  calls : s.calls = v.calls
  excluded : s.running.cache.excluded = g.config.excludedKinds
  opened : s.running.cache.closed = false
  /-- Every program goes through the stages from its own on. -/
  orderly : ∀ n p, s.processes[n]? = some p → Orderly (v.stage n) p.program
  /-- The number beside a program is that of its pass. -/
  batch : ∀ n p q, s.processes[n]? = some p → (v.stage n).pass? = some q → p.batch = some q.batch
  /-- There are no other passes. -/
  resting : ∀ n, s.processes[n]? = none → v.stage n = .resting

variable {g : JobSystem κ} {s : WithJobs} {v : View}

namespace Follows

theorem start (g : JobSystem κ) :
    Follows g g.start ⟨.empty g.config.maxEntries, g.initial, [], fun _ => .resting⟩ where
  contents := rfl
  stored := rfl
  calls := rfl
  excluded := rfl
  opened := rfl
  orderly n p hp := by cases hp
  batch n p q hp := by cases hp
  resting _ _ := rfl

theorem withContents (h : Follows g s v) {running : Running} {contents : Contents}
    (hcontents : running.cache.contents = contents)
    (hexcluded : running.cache.excluded = s.running.cache.excluded)
    (hclosed : running.cache.closed = s.running.cache.closed) :
    Follows g { s with running } { v with contents } :=
  { h with
    contents := hcontents
    excluded := hexcluded.trans h.excluded
    opened := hclosed.trans h.opened }

/-- A change of the cache, but not of its contents. -/
theorem withRunning (h : Follows g s v) {running : Running}
    (hcontents : running.cache.contents = s.running.cache.contents)
    (hexcluded : running.cache.excluded = s.running.cache.excluded)
    (hclosed : running.cache.closed = s.running.cache.closed) : Follows g { s with running } v :=
  h.withContents (hcontents.trans h.contents) hexcluded hclosed

theorem carryOut (h : Follows g s v) (batch : Option Nat) (call : Call) :
    Follows g (s.carryOut batch call) (v.carryOut batch call) :=
  { h with
    stored := congrArg (Records.apply · call) h.stored
    calls := congrArg ((batch, call) :: ·) h.calls }

/-- A program gets to a stage. -/
theorem enter (h : Follows g s v) {n : Nat} {p : Process} {st : Stage}
    {program : Service.Prog Unit} {batch : Option Nat} (hp : s.processes[n]? = some p)
    (horderly : Orderly st program) (hbatch : ∀ q, st.pass? = some q → batch = some q.batch) :
    Follows g { s with processes := s.processes.set n ⟨program, batch⟩ } (v.enter n st) where
  contents := h.contents
  stored := h.stored
  calls := h.calls
  excluded := h.excluded
  opened := h.opened
  orderly k q hq := by
    by_cases hk : k = n
    · subst hk
      rw [List.getElem?_set_self (List.getElem?_eq_some_iff.1 hp).1] at hq
      cases hq
      rw [View.stage_enter_self]
      exact horderly
    · rw [List.getElem?_set_ne (Ne.symm hk)] at hq
      rw [View.stage_enter_of_ne hk]
      exact h.orderly k q hq
  batch k q r hq hr := by
    by_cases hk : k = n
    · subst hk
      rw [List.getElem?_set_self (List.getElem?_eq_some_iff.1 hp).1] at hq
      cases hq
      rw [View.stage_enter_self] at hr
      exact hbatch r hr
    · rw [List.getElem?_set_ne (Ne.symm hk)] at hq
      rw [View.stage_enter_of_ne hk] at hr
      exact h.batch k q r hq hr
  resting k hk := by
    by_cases hkn : k = n
    · subst hkn
      rw [List.getElem?_set_self (List.getElem?_eq_some_iff.1 hp).1] at hk
      cases hk
    · rw [List.getElem?_set_ne (Ne.symm hkn)] at hk
      rw [View.stage_enter_of_ne hkn]
      exact h.resting k hk

/-- A program changes the contents and gets to a stage. -/
theorem proceed (h : Follows g s v) {n : Nat} {p : Process} {st : Stage} {running : Running}
    {contents : Contents} {program : Service.Prog Unit} {batch : Option Nat}
    (hp : s.processes[n]? = some p) (hcontents : running.cache.contents = contents)
    (hexcluded : running.cache.excluded = s.running.cache.excluded)
    (hclosed : running.cache.closed = s.running.cache.closed) (horderly : Orderly st program)
    (hbatch : ∀ q, st.pass? = some q → batch = some q.batch) :
    Follows g { s with running, processes := s.processes.set n ⟨program, batch⟩ }
      (View.enter { v with contents } n st) :=
  (h.withContents hcontents hexcluded hclosed).enter hp horderly hbatch

/-- A program that is and stays resting goes on. -/
theorem rest (h : Follows g s v) {n : Nat} {p : Process} {program : Service.Prog Unit}
    {batch : Option Nat} (hp : s.processes[n]? = some p) (hstage : v.stage n = .resting)
    (horderly : Orderly .resting program) :
    Follows g { s with processes := s.processes.set n ⟨program, batch⟩ } v := by
  have h' : Follows g { s with processes := s.processes.set n ⟨program, batch⟩ }
      (v.enter n .resting) := h.enter hp horderly fun q hq => by cases hq
  rwa [View.enter_self hstage] at h'

theorem append (h : Follows g s v) {program : Service.Prog Unit}
    (horderly : Orderly .resting program) :
    Follows g { s with processes := s.processes ++ [{ program }] } v where
  contents := h.contents
  stored := h.stored
  calls := h.calls
  excluded := h.excluded
  opened := h.opened
  orderly n p hp := by
    rcases getElem?_concat_cases hp with hold | ⟨rfl, rfl⟩
    · exact h.orderly n p hold
    · rw [h.resting _ (List.getElem?_eq_none (Nat.le_refl _))]
      exact horderly
  batch n p q hp hq := by
    rcases Nat.lt_or_ge n s.processes.length with hn | hn
    · rw [List.getElem?_append_left hn] at hp
      exact h.batch n p q hp hq
    · rw [h.resting n (List.getElem?_eq_none hn)] at hq
      cases hq
  resting n hn := by
    have hlen := List.getElem?_eq_none_iff.1 hn
    rw [List.length_append] at hlen
    exact h.resting n (List.getElem?_eq_none (by omega))

end Follows

/-! ## Requests -/

/-- A request that has no part in a pass changes no contents. -/
theorem Running.reply?_of_isAside (r : Running) (caller now : Nat) {q : Request}
    (hq : q.isAside = true) :
    (r.reply? caller now q).2.cache.contents = r.cache.contents ∧
      (r.reply? caller now q).2.cache.excluded = r.cache.excluded ∧
      (r.reply? caller now q).2.cache.closed = r.cache.closed := by
  have hcache : ∀ {r' : Running}, r'.cache = r.cache → r'.cache.contents = r.cache.contents ∧
      r'.cache.excluded = r.cache.excluded ∧ r'.cache.closed = r.cache.closed := by
    intro r' h
    rw [h]
    exact ⟨rfl, rfl, rfl⟩
  cases q with
  | perform call =>
      cases call with
      | init => exact hcache (cache_start r)
      | _ => cases hq
  | queueRequest | submit | await | nextEvent | join | beginWork =>
      exact hcache (cache_of_isAboutWork r caller now rfl)
  | noteRequest | withdrawRequest | isClosed | failEviction | isFull | clearRequested | isAttached
  | detach | newTicket | answer _ _ | finishWork => exact ⟨rfl, rfl, rfl⟩
  | _ => cases hq

theorem beginPass_cases (c : Cache) (candidates : List Candidate) :
    c.beginPass candidates = (none, c) ∨
    c.beginPass candidates = (some ⟨c.contents.nextBatch, candidates⟩,
      { c with contents := (c.contents.begin (candidates.map (·.slot))).2 }) := by
  simp only [beginPass]
  split
  · exact Or.inl rfl
  · exact Or.inr rfl

theorem beginEviction_cases (c : Cache) : c.beginEviction = (none, c) ∨
    ∃ candidates : List Candidate, candidates.Sublist c.contents.slots.candidates ∧
      c.beginEviction = (some ⟨c.contents.nextBatch, candidates⟩,
        { c with contents := (c.contents.begin (candidates.map (·.slot))).2 }) := by
  simp only [beginEviction]
  split
  next =>
    rcases c.beginPass_cases (c.contents.slots.oldest (evictionCount c.maxSize c.len))
      with h | h
    · exact Or.inl h
    · exact Or.inr ⟨_, List.take_sublist _ _, h⟩
  next => exact Or.inl rfl

theorem beginFlush_cases (c : Cache) : c.beginFlush = (none, c) ∨
    c.beginFlush = (some ⟨c.contents.nextBatch, c.contents.slots.candidates⟩,
      { c with
        contents := (c.contents.begin (c.contents.slots.candidates.map (·.slot))).2 }) :=
  c.beginPass_cases _

/-! ## Events are moves -/

namespace Follows

/-- A program that asks something goes on. -/
theorem advance (h : Follows g s v) {n now : Nat} {q : Request}
    {next : Reply q → Service.Prog Unit} {batch : Option Nat}
    (hp : s.processes[n]? = some ⟨.ask q next, batch⟩) :
    ∃ v', Move g v (.advance n now) v' ∧ Follows g (s.advance n now) v' := by
  have ho := h.orderly n _ hp
  simp only [WithJobs.advance, hp]
  generalize hstage : v.stage n = st at ho
  cases ho with
  | aside hq hnext =>
      refine ⟨v, .aside n now, ?_⟩
      obtain ⟨hcontents, hexcluded, hclosed⟩ :=
        Running.reply?_of_isAside s.running n now hq
      split
      next a running hr =>
        rw [hr] at hcontents hexcluded hclosed
        exact (h.withRunning hcontents hexcluded hclosed).rest hp hstage (hnext a)
      next running hr =>
        rw [hr] at hcontents hexcluded hclosed
        exact h.withRunning hcontents hexcluded hclosed
  | evict hnone hsome =>
      rcases s.running.cache.beginEviction_cases with hr | ⟨candidates, hsub, hr⟩
      · refine ⟨v, .aside n now, ?_⟩
        simp only [Running.reply?, hr]
        exact h.rest hp hstage hnone
      · rw [h.contents] at hsub
        refine ⟨_, .look n now candidates hstage hsub, ?_⟩
        simp only [Running.reply?, hr, h.contents]
        refine h.proceed hp rfl rfl rfl (hsome _) fun q hq => ?_
        cases hq
        rfl
  | flush hnone hsome =>
      rcases s.running.cache.beginFlush_cases with hr | hr
      · refine ⟨v, .aside n now, ?_⟩
        simp only [Running.reply?, hr]
        exact h.rest hp hstage hnone
      · refine ⟨_, .look n now _ hstage (List.Sublist.refl _), ?_⟩
        simp only [Running.reply?, hr, h.contents]
        refine h.proceed hp rfl rfl rfl (hsome _) fun q hq => ?_
        cases hq
        rfl
  | @finish p written st next hend hclean hmarked =>
      have hbatch := h.batch n _ p hp (by rw [hstage]; rfl)
      by_cases hids : (v.contents.finish p.batch).1 = []
      · refine ⟨_, .finish n now p written st hstage hend hids, ?_⟩
        simp only [Running.reply?, Cache.finishBatch, h.contents, hids]
        refine h.proceed hp rfl rfl rfl hclean fun q hq => ?_
        cases hend with
        | rest => cases hq
        | drop =>
            cases hq
            exact hbatch
      · refine ⟨_, .finishMarked n now p written hstage hids, ?_⟩
        simp only [Running.reply?, Cache.finishBatch, h.contents]
        refine h.proceed hp rfl rfl rfl (hmarked _ hids) fun q hq => ?_
        cases hq
        exact hbatch
  | @drop p next hnext =>
      refine ⟨_, .drop n now p s.running.cache.maxSize hstage, ?_⟩
      simp only [Running.reply?, Cache.dropWritten, h.contents]
      exact h.proceed hp rfl rfl rfl (hnext _) fun q hq => by cases hq
  | save hok hfail => exact ⟨v, .aside n now, h⟩
  | delete hend hok hfail => exact ⟨v, .aside n now, h⟩

theorem settle_eq {n : Nat} {verdict : Verdict} {call : Call}
    {next : Call.Outcome call → Service.Prog Unit} {batch : Option Nat}
    (hp : s.processes[n]? = some ⟨.ask (.backend call) next, batch⟩) :
    g.settle s n verdict = if g.steady call then .done else verdict := by
  simp only [JobSystem.settle, WithJobs.pending?, hp, Option.any_some]

/-- A program whose call is dealt with goes on. -/
theorem answer (h : Follows g s v) (hsteady : ∀ ids, g.steady (.deleteBatch ids) = true)
    {n : Nat} {verdict : Verdict} {call : Call} {next : Call.Outcome call → Service.Prog Unit}
    {batch : Option Nat} (hp : s.processes[n]? = some ⟨.ask (.backend call) next, batch⟩) :
    ∃ v', Move g v (.answer n verdict) v' ∧
      Follows g (s.answer n (g.settle s n verdict)) v' := by
  have ho := h.orderly n _ hp
  rw [settle_eq hp]
  simp only [WithJobs.answer, hp]
  generalize hstage : v.stage n = st at ho
  cases ho with
  | aside hq hnext => cases hq
  | @save p next hok hfail =>
      have hbatch := h.batch n _ p hp (by rw [hstage]; rfl)
      have hpass : ∀ {written : Bool} q, (Stage.finishing p written).pass? = some q →
          batch = some q.batch := by
        intro written q hq
        cases hq
        exact hbatch
      by_cases hsave : g.steady (.saveBatch p.entries) = true
      · refine ⟨_, .save n verdict p hstage, ?_⟩
        rw [if_pos hsave, ← hbatch]
        exact (h.enter hp hok hpass).carryOut batch _
      · have hnot := Bool.not_eq_true _ ▸ hsave
        rw [if_neg hsave]
        cases verdict with
        | done =>
            refine ⟨_, .save n .done p hstage, ?_⟩
            rw [← hbatch]
            exact (h.enter hp hok hpass).carryOut batch _
        | refused =>
            refine ⟨_, .fail n .refused p v.stored v.calls hstage hnot fun _ => Or.inl rfl, ?_⟩
            exact h.enter hp (hfail _ (by simp [Verdict.outcome, Call.refusal?])) hpass
        | failed cause part =>
            refine ⟨_, .fail n _ p (v.stored.apply (.saveBatch (p.entries.take part)))
              ((batch, .saveBatch (p.entries.take part)) :: v.calls) hstage hnot ?_, ?_⟩
            · intro id
              rcases Records.saveBatch_cases (p.entries.take part) v.stored with hid | ⟨e, he, hid⟩
              · exact Or.inl hid
              · obtain ⟨d, hd, rfl⟩ := Pass.mem_entries.1 (List.mem_of_mem_take he)
                exact Or.inr ⟨d, hd, hid⟩
            · exact (h.enter hp (hfail _ (by simp [Verdict.outcome])) hpass).carryOut batch _
  | @delete p written ids st next hend hok hfail =>
      have hbatch := h.batch n _ p hp (by rw [hstage]; rfl)
      refine ⟨_, .redelete n verdict p written ids st hstage hend, ?_⟩
      rw [if_pos (hsteady ids), ← hbatch]
      refine (h.enter hp hok fun q hq => ?_).carryOut batch _
      cases hend with
      | rest => cases hq
      | drop =>
          cases hq
          exact hbatch

theorem offer (h : Follows g s v) (key : Key) (record : Record) :
    ∃ v', Move g v (.offer key record) v' ∧
      Follows g { s with running := (s.running.receive key record).2 } v' := by
  have haccepts := accepts_eq h.excluded record
  rw [h.opened, Bool.not_false, Bool.and_true] at haccepts
  have hcache : (s.running.receive key record).2.cache = (s.running.cache.offer key record).2 := rfl
  rcases Running.offer_cases s.running.cache key record with ⟨ha, hr⟩ | ⟨ha, hr⟩
  · refine ⟨_, .accept key record (haccepts ▸ ha), h.withContents ?_ ?_ ?_⟩
    · rw [hcache, hr, ← h.contents]
    · rw [hcache, hr]
    · rw [hcache, hr]
  · refine ⟨_, .refuse key record (haccepts ▸ ha), h.withRunning ?_ ?_ ?_⟩
    · rw [hcache, hr]
    · rw [hcache, hr]
    · rw [hcache, hr]

/-- Where programs are orderly and the backend deletes what it is told to, every event is a
move. -/
theorem step (h : Follows g s v) (hsteady : ∀ ids, g.steady (.deleteBatch ids) = true)
    (horderly : ∀ job, Orderly .resting (g.program job)) (e : Event κ) :
    ∃ v', Move g v e v' ∧ Follows g (g.step s e) v' := by
  cases e with
  | offer key record => exact h.offer key record
  | delete id =>
      refine ⟨_, .delete id, h.withContents ?_ rfl rfl⟩
      rw [← h.contents]
      rfl
  | clear kind =>
      refine ⟨_, .clear kind, h.withContents ?_ rfl rfl⟩
      rw [← h.contents]
      rfl
  | own call => exact ⟨_, .own call, h.carryOut none call⟩
  | begin job => exact ⟨v, .begin job, h.append (horderly job)⟩
  | advance n now =>
      cases hp : s.processes[n]? with
      | none => exact ⟨v, .aside n now, by simpa [JobSystem.step, WithJobs.advance, hp] using h⟩
      | some p =>
          obtain ⟨program, batch⟩ := p
          cases program with
          | done a => exact ⟨v, .aside n now, by simpa
            [JobSystem.step, WithJobs.advance, hp] using h⟩
          | ask q next => exact h.advance hp
  | answer n verdict =>
      by_cases hcall : ∃ call next batch, s.processes[n]? = some ⟨.ask (.backend call) next, batch⟩
      · obtain ⟨call, next, batch, hp⟩ := hcall
        exact h.answer hsteady hp
      · refine ⟨v, .idle n verdict, ?_⟩
        simp only [JobSystem.step, WithJobs.answer]
        split
        next call next batch hp => exact absurd ⟨call, next, batch, hp⟩ hcall
        next => exact h

end Follows

/-! ## What all moves keep -/

/-- What all moves keep. -/
structure View.Sound (v : View) : Prop where
  slots : v.contents.slots.Sound
  /-- The batches have numbers of their own. -/
  numbered : v.contents.Numbered
  /-- The batch of an open pass is among the batches. -/
  batch : ∀ n p, (v.stage n).open? = some p →
    ∃ b ∈ v.contents.batches, b.number = p.batch ∧ b.ids = p.ids
  /-- There are no other batches. -/
  opened : ∀ b ∈ v.contents.batches, ∃ n p, (v.stage n).open? = some p ∧ b.number = p.batch
  /-- Two programs do not have the same batch. -/
  apart : ∀ n k p q, (v.stage n).open? = some p → (v.stage k).open? = some q →
    p.batch = q.batch → n = k
  /-- A pass knows the contents. -/
  knows : ∀ n p, (v.stage n).pass? = some p → v.contents.Knows p

theorem JobSystem.view_sound (g : JobSystem κ) :
    View.Sound ⟨.empty g.config.maxEntries, g.initial, [], fun _ => .resting⟩ where
  slots := Slots.sound_empty
  numbered := ⟨List.nodup_nil, fun b hb => by cases hb⟩
  batch n p hp := by cases hp
  opened b hb := by cases hb
  apart n k p q hp := by cases hp
  knows n p hp := by cases hp

namespace View.Sound

/-- What the backend stores has no part in it. -/
theorem congr (h : v.Sound) (stored : Records) (calls : List (Option Nat × Call)) :
    Sound { v with stored, calls } :=
  ⟨h.slots, h.numbered, h.batch, h.opened, h.apart, h.knows⟩

/-- Marks may change, and slots may grow. -/
theorem remark (h : v.Sound) {contents : Contents} {f : Batch → Batch}
    (hslots : contents.slots.Sound) (hgrows : v.contents.Grows contents) (hf : Batch.Remarks f)
    (hbatches : contents.batches = v.contents.batches.map f)
    (hnext : contents.nextBatch = v.contents.nextBatch) : Sound { v with contents } where
  slots := hslots
  numbered := h.numbered.remark hf hbatches hnext
  batch n p hp := by
    obtain ⟨b, hb, hnumber, hids⟩ := h.batch n p hp
    refine ⟨f b, ?_, (hf b).1.trans hnumber, (hf b).2.trans hids⟩
    simp only [hbatches]
    exact List.mem_map_of_mem hb
  opened b' hb' := by
    simp only [hbatches] at hb'
    obtain ⟨b, hb, rfl⟩ := List.mem_map.1 hb'
    rw [(hf b).1]
    exact h.opened b hb
  apart := h.apart
  knows n p hp := (h.knows n p hp).grow hgrows

/-- A program gets to another stage, and its batch stays open or stays ended. -/
theorem enter (h : v.Sound) {n : Nat} {st : Stage} (hopen : st.open? = (v.stage n).open?)
    (hpass : ∀ p, st.pass? = some p → (v.stage n).pass? = some p) : (v.enter n st).Sound := by
  have hopen' : ∀ k, ((v.enter n st).stage k).open? = (v.stage k).open? := by
    intro k
    by_cases hk : k = n
    · rw [hk, View.stage_enter_self, hopen]
    · rw [View.stage_enter_of_ne hk]
  refine ⟨h.slots, h.numbered, fun k p => ?_, fun b hb => ?_, fun k m p q => ?_, fun k p hp => ?_⟩
  · rw [hopen']
    exact h.batch k p
  · obtain ⟨k, p, hp, hnumber⟩ := h.opened b hb
    exact ⟨k, p, (hopen' k).trans hp, hnumber⟩
  · rw [hopen', hopen']
    exact h.apart k m p q
  · by_cases hk : k = n
    · rw [hk, View.stage_enter_self] at hp
      exact h.knows n p (hpass p hp)
    · rw [View.stage_enter_of_ne hk] at hp
      exact h.knows k p hp

/-- The pass of a program ends its batch. -/
theorem finishPass (h : v.Sound) {n : Nat} {p : Pass} {written : Bool} {st : Stage}
    (hstage : v.stage n = .finishing p written) (hopen : st.open? = none)
    (hpass : ∀ q, st.pass? = some q → q = p) :
    (View.enter { v with contents := (v.contents.finish p.batch).2 } n st).Sound := by
  have hp : (v.stage n).open? = some p := by rw [hstage]; rfl
  have hopen' : ∀ k q, ((View.enter { v with contents := (v.contents.finish p.batch).2 } n
      st).stage k).open? = some q ↔ k ≠ n ∧ (v.stage k).open? = some q := by
    intro k q
    by_cases hk : k = n
    · subst hk
      simp [hopen]
    · simp [View.stage_enter_of_ne hk, hk]
  refine ⟨h.slots, h.numbered.finish _, fun k q hq => ?_, fun b hb => ?_, fun k m q r hq hr => ?_,
    fun k q hq => ?_⟩
  · obtain ⟨hk, hq⟩ := (hopen' k q).1 hq
    obtain ⟨b, hb, hnumber, hids⟩ := h.batch k q hq
    refine ⟨b, Contents.mem_batches_finish.2 ⟨hb, fun hsame => hk ?_⟩, hnumber, hids⟩
    exact h.apart k n q p hq hp (hnumber.symm.trans hsame)
  · obtain ⟨hb, hne⟩ := Contents.mem_batches_finish.1 hb
    obtain ⟨k, q, hq, hnumber⟩ := h.opened b hb
    refine ⟨k, q, (hopen' k q).2 ⟨fun hk => hne ?_, hq⟩, hnumber⟩
    rw [hk, hp] at hq
    rw [hnumber, Option.some.inj hq]
  · exact h.apart k m q r ((hopen' k q).1 hq).2 ((hopen' m r).1 hr).2
  · refine Contents.Knows.grow ?_ (Contents.grows_finish _)
    by_cases hk : k = n
    · rw [hk, View.stage_enter_self] at hq
      rw [hpass q hq]
      exact h.knows n p (Stage.pass?_of_open? hp)
    · rw [View.stage_enter_of_ne hk] at hq
      exact h.knows k q hq

theorem look (h : v.Sound) {n : Nat} (hstage : v.stage n = .resting) {candidates : List Candidate}
    (hsub : candidates.Sublist v.contents.slots.candidates) :
    (View.enter { v with contents := (v.contents.begin (candidates.map (·.slot))).2 } n
      (.saving ⟨v.contents.nextBatch, candidates⟩)).Sound where
  slots := h.slots
  numbered := h.numbered.begin _
  batch k p hp := by
    by_cases hk : k = n
    · rw [hk, View.stage_enter_self] at hp
      cases hp
      refine ⟨⟨v.contents.nextBatch, (candidates.map (·.slot)).map Slot.id, []⟩, ?_, rfl, ?_⟩
      · exact List.mem_append_right _ (List.mem_singleton_self _)
      · exact List.map_map
    · rw [View.stage_enter_of_ne hk] at hp
      obtain ⟨b, hb, hnumber, hids⟩ := h.batch k p hp
      exact ⟨b, List.mem_append_left _ hb, hnumber, hids⟩
  opened b hb := by
    rcases List.mem_append.1 hb with hb | hb
    · obtain ⟨k, p, hp, hnumber⟩ := h.opened b hb
      refine ⟨k, p, ?_, hnumber⟩
      have hk : k ≠ n := by
        rintro rfl
        rw [hstage] at hp
        cases hp
      rwa [View.stage_enter_of_ne hk]
    · refine ⟨n, ⟨v.contents.nextBatch, candidates⟩, by rw [View.stage_enter_self]; rfl, ?_⟩
      rw [List.mem_singleton.1 hb]
  apart k m p q hp hq hbatch := by
    have hfresh : ∀ k p, (v.stage k).open? = some p → p.batch < v.contents.nextBatch :=
      fun k p hp => (h.knows k p (Stage.pass?_of_open? hp)).batch_lt
    by_cases hk : k = n <;> by_cases hm : m = n
    · rw [hk, hm]
    · rw [hk, View.stage_enter_self] at hp
      cases hp
      rw [View.stage_enter_of_ne hm] at hq
      exact absurd hbatch.symm (Nat.ne_of_lt (hfresh m q hq))
    · rw [hm, View.stage_enter_self] at hq
      cases hq
      rw [View.stage_enter_of_ne hk] at hp
      exact absurd hbatch (Nat.ne_of_lt (hfresh k p hp))
    · rw [View.stage_enter_of_ne hk] at hp
      rw [View.stage_enter_of_ne hm] at hq
      exact h.apart k m p q hp hq hbatch
  knows k p hp := by
    by_cases hk : k = n
    · rw [hk, View.stage_enter_self] at hp
      cases hp
      exact Contents.knows_begin h.slots hsub
    · rw [View.stage_enter_of_ne hk] at hp
      exact (h.knows k p hp).grow (Contents.grows_begin _)

end View.Sound

theorem Follows.cached_eq_none_iff (h : Follows g s v) {id : EntryId} :
    s.cached id = none ↔ ∀ d ∈ v.contents.slots.candidates, d.slot.id ≠ id := by
  rw [WithJobs.cached, Slots.recordAt?_eq_none_iff, h.contents]

theorem Follows.cached_of_mem (h : Follows g s v) (hs : v.Sound) {d : Candidate}
    (hd : d ∈ v.contents.slots.candidates) : s.cached d.slot.id = some d.slot.record := by
  rw [WithJobs.cached, h.contents]
  exact hs.slots.recordAt?_of_mem hd

/-- Every move keeps a view sound. -/
theorem Move.sound {e : Event κ} {v' : View} (hm : Move g v e v') (h : v.Sound) : v'.Sound := by
  cases hm with
  | accept key record htakes =>
      refine h.remark ?_ (Contents.grows_put h.slots key record)
        (Batch.remarks_unmark (record.idAt key)) (Contents.batches_put _ _ _)
        (Contents.nextBatch_put _ _ _)
      rw [Contents.slots_put]
      exact h.slots.insert key record
  | delete id =>
      refine h.remark ?_ (Contents.grows_remove h.slots id) (Batch.remarks_markDeleted id)
        (Contents.batches_remove _ _) (Contents.nextBatch_remove _ _)
      rw [Contents.slots_remove]
      exact h.slots.remove id
  | clear kind =>
      refine h.remark ?_ (Contents.grows_removeKind h.slots kind)
        (Batch.remarks_markCleared kind) (Contents.batches_removeKind _ _)
        (Contents.nextBatch_removeKind _ _)
      rw [Contents.slots_removeKind]
      exact h.slots.removeKind kind
  | look n now candidates hstage hsub => exact h.look hstage hsub
  | save n verdict p hstage =>
      refine (h.congr _ _).enter ?_ fun q hq => ?_
      · rw [hstage]
        rfl
      · rw [hstage]
        exact hq
  | fail n verdict p stored calls hstage hsteady hstored =>
      refine (h.congr _ _).enter ?_ fun q hq => ?_
      · rw [hstage]
        rfl
      · rw [hstage]
        exact hq
  | finish n now p written st hstage hend hclean =>
      refine h.finishPass hstage ?_ fun q hq => ?_
      · cases hend <;> rfl
      · cases hend with
        | rest => cases hq
        | drop => exact (Option.some.inj hq).symm
  | finishMarked n now p written hstage hmarked =>
      exact h.finishPass hstage rfl fun q hq => (Option.some.inj hq).symm
  | redelete n verdict p written ids st hstage hend =>
      refine (h.congr _ _).enter ?_ fun q hq => ?_
      · rw [hstage]
        cases hend <;> rfl
      · rw [hstage]
        cases hend with
        | rest => cases hq
        | drop => exact hq
  | drop n now p capacity hstage =>
      have h' : View.Sound { v with
          contents := (v.contents.dropAllWritten p.candidates).2.rebuild capacity } := by
        refine h.remark (f := id) ?_ (Contents.grows_dropAllWritten _ _)
          (fun _ => ⟨rfl, rfl⟩) ?_ ?_
        · rw [Contents.slots_rebuild]
          exact Contents.slots_dropAllWritten_sound h.slots
        · rw [Contents.batches_rebuild, Contents.batches_dropAllWritten, List.map_id]
        · rw [Contents.nextBatch_rebuild, Contents.nextBatch_dropAllWritten]
      exact h'.enter (by rw [hstage]; rfl) fun q hq => by cases hq
  | own call => exact h.congr _ _
  | refuse | begin | aside | idle => exact h

/-! ## Caches with jobs at rest -/

theorem Orderly.eq_resting {α : Type} {st : Stage} {a : α} (h : Orderly st (.done a)) :
    st = .resting := by
  cases h
  rfl

/-- A program that has ended has no pass. -/
theorem Follows.resting_of_hasEnded (h : Follows g s v) {n : Nat} {p : Process}
    (hp : s.processes[n]? = some p) (hended : p.hasEnded = true) : v.stage n = .resting := by
  have ho := h.orderly n p hp
  obtain ⟨program, batch⟩ := p
  cases program with
  | done a => exact ho.eq_resting
  | ask q next => cases hended

/-- When all programs have ended, no batch is being written. -/
theorem Follows.isQuiet_of_isIdle (h : Follows g s v) (hs : v.Sound) (hidle : s.isIdle = true) :
    s.isQuiet = true := by
  rw [WithJobs.isIdle, List.all_eq_true] at hidle
  simp only [WithJobs.isQuiet, Bool.and_eq_true, List.isEmpty_iff, List.all_eq_true,
    Bool.not_eq_true']
  constructor
  · rw [h.contents]
    refine List.eq_nil_iff_forall_not_mem.2 fun b hb => ?_
    obtain ⟨n, p, hp, -⟩ := hs.opened b hb
    have hresting : v.stage n = .resting := by
      cases hq : s.processes[n]? with
      | none => exact h.resting n hq
      | some q => exact h.resting_of_hasEnded hq (hidle q (List.mem_of_getElem? hq))
    rw [hresting] at hp
    cases hp
  · intro p hp
    have hended := hidle p hp
    obtain ⟨program, batch⟩ := p
    cases program with
    | done a => rfl
    | ask q next => cases hended

/-! ## Runs -/

/-- What every move of a run keeps holds for some view at its end. -/
theorem Follows.along_run {P : View → Prop} (hsteady : ∀ ids, g.steady (.deleteBatch ids) = true)
    (horderly : ∀ job, Orderly .resting (g.program job)) (events : List (Event κ)) {s : WithJobs}
    {v : View} (hf : Follows g s v) (hs : v.Sound) (hp : P v)
    (hmove : ∀ e ∈ events, ∀ v v', v.Sound → P v → Move g v e v' → P v') :
    ∃ v', Follows g (run g.step s events) v' ∧ v'.Sound ∧ P v' := by
  refine run_of_forall (Q := fun s => ∃ v, Follows g s v ∧ v.Sound ∧ P v) (fun e he s h => ?_)
    ⟨v, hf, hs, hp⟩
  obtain ⟨v, hf, hs, hp⟩ := h
  obtain ⟨v', hm, hf'⟩ := hf.step hsteady horderly e
  exact ⟨v', hf', hm.sound hs, hmove e he v v' hs hp hm⟩

/-- A run from the start, of which nothing is asked. -/
theorem Follows.run_start (hsteady : ∀ ids, g.steady (.deleteBatch ids) = true)
    (horderly : ∀ job, Orderly .resting (g.program job)) (events : List (Event κ)) :
    ∃ v, Follows g (run g.step g.start events) v ∧ v.Sound := by
  obtain ⟨v, hf, hs, -⟩ := Follows.along_run (P := fun _ => True) hsteady horderly events
    (Follows.start g) g.view_sound trivial fun _ _ _ _ _ _ _ => trivial
  exact ⟨v, hf, hs⟩

end Cache

end RecordStore
