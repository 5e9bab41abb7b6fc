import RecordStore.Proofs.Cache.Admissions
import RecordStore.Proofs.Cache.Deletions

/-!
# A cache before its backend

Let passes not overlap: a program begins only when all programs have ended.  Let an entry
that is deleted from the cache be deleted from the backend right afterwards, and let the
same hold for kinds that are cleared.  Then the cache and the backend together represent a
plain map, the one that the admissions, deletions and clears give (`represents`).  An
admitted record is kept at every time, also while a pass is under way, whose write may
fail or land in part.  What was deleted is gone whenever nothing is being written.

The invariant is one for each address.  If the map has a record there, the record is
current and `View.Kept`.  If it has none, the entry is removed and doomed.
-/

namespace RecordStore

namespace Cache

variable {κ : Type} {g : JobSystem κ} {s : WithJobs} {v v' : View} {e : Event κ} {id : EntryId}
  {r : Record} {version first : Nat}

/-! ## One pass at a time -/

/-- At most one program has a pass. -/
def View.Serial (v : View) : Prop :=
  ∀ n k, v.stage n ≠ .resting → v.stage k ≠ .resting → n = k

/-- At most one program has not ended. -/
def WithJobs.Serial (s : WithJobs) : Prop :=
  ∃ n, ∀ (k : Nat) (p : Process), k ≠ n → s.processes[k]? = some p → p.hasEnded = true

theorem Follows.serial (h : Follows g s v) (hs : s.Serial) : v.Serial := by
  obtain ⟨m, hm⟩ := hs
  have hother : ∀ k, v.stage k ≠ .resting → k = m := by
    intro k hk
    by_contra hne
    refine hk ?_
    cases hp : s.processes[k]? with
    | none => exact h.resting k hp
    | some p => exact h.resting_of_hasEnded hp (hm k p hne hp)
  intro n k hn hk
  rw [hother n hn, hother k hk]

namespace WithJobs

theorem advance_of_hasEnded {n now : Nat} (h : ∀ p, s.processes[n]? = some p → p.hasEnded = true) :
    s.advance n now = s := by
  simp only [advance]
  split
  next q next batch hp => cases h _ hp
  next => rfl

theorem answer_of_hasEnded {n : Nat} {verdict : Verdict}
    (h : ∀ p, s.processes[n]? = some p → p.hasEnded = true) : s.answer n verdict = s := by
  simp only [answer]
  split
  next call next batch hp => cases h _ hp
  next => rfl

/-- A program that goes on leaves the other programs alone. -/
theorem processes_advance {n k now : Nat} (hk : k ≠ n) :
    (s.advance n now).processes[k]? = s.processes[k]? := by
  simp only [advance]
  split
  · split
    · exact List.getElem?_set_ne (Ne.symm hk)
    · rfl
  · rfl

theorem processes_answer {n k : Nat} {verdict : Verdict} (hk : k ≠ n) :
    (s.answer n verdict).processes[k]? = s.processes[k]? := by
  simp only [answer]
  split
  · split <;> exact List.getElem?_set_ne (Ne.symm hk)
  · rfl

namespace Serial

theorem advance (h : s.Serial) (n now : Nat) : (s.advance n now).Serial := by
  obtain ⟨m, hm⟩ := h
  by_cases hn : n = m
  · refine ⟨m, fun k p hk hp => hm k p hk ?_⟩
    rwa [processes_advance (hn ▸ hk)] at hp
  · rw [advance_of_hasEnded fun p hp => hm n p hn hp]
    exact ⟨m, hm⟩

theorem answer (h : s.Serial) (n : Nat) (verdict : Verdict) : (s.answer n verdict).Serial := by
  obtain ⟨m, hm⟩ := h
  by_cases hn : n = m
  · refine ⟨m, fun k p hk hp => hm k p hk ?_⟩
    rwa [processes_answer (hn ▸ hk)] at hp
  · rw [answer_of_hasEnded fun p hp => hm n p hn hp]
    exact ⟨m, hm⟩

/-- A program begins when all others have ended. -/
theorem append (h : s.isIdle = true) (p : Process) :
    Serial { s with processes := s.processes ++ [p] } := by
  rw [isIdle, List.all_eq_true] at h
  refine ⟨s.processes.length, fun k q hk hq => ?_⟩
  have hlt : k < s.processes.length := by
    have hlength := (List.getElem?_eq_some_iff.1 hq).1
    rw [List.length_append, List.length_singleton] at hlength
    omega
  rw [List.getElem?_append_left hlt] at hq
  exact h q (List.mem_of_getElem? hq)

end Serial

end WithJobs

/-! ## Kept records -/

/-- An admitted record is cached, or else stored, and passes that wrote it have not been
overwritten. -/
structure View.Kept (v : View) (id : EntryId) (r : Record) (version first : Nat) : Prop where
  current : v.Current id r version first
  /-- Where a pass wrote the entry, it is stored. -/
  written : ∀ n p, (v.stage n).written? = some p → first ≤ p.batch → id ∈ p.ids →
    v.stored id = some r
  /-- If the entry was dropped, it is stored, and no earlier pass is left. -/
  dropped : (∀ d ∈ v.contents.slots.candidates, d.slot.id ≠ id) →
    v.stored id = some r ∧ ∀ n p, (v.stage n).pass? = some p → first ≤ p.batch

namespace View.Kept

theorem of_accept (hs : v.Sound) (key : Key) (record : Record) :
    View.Kept { v with contents := v.contents.put key record } (record.idAt key) record
      (v.contents.slots.lastVersion + 1) v.contents.nextBatch where
  current := .of_accept hs key record
  written n p hp hle :=
    absurd hle (Nat.not_le_of_gt (hs.knows n p (Stage.pass?_of_written? hp)).batch_lt)
  dropped hgone := absurd rfl (hgone _ ((Contents.mem_slots_put hs.slots).2 (Or.inl rfl)))

theorem of_start (h : g.initial id = some r) :
    View.Kept ⟨.empty g.config.maxEntries, g.initial, [], fun _ => .resting⟩ id r 0 0 where
  current := .of_start g id r
  written n p hp := by cases hp
  dropped _ := ⟨h, fun n p hp => by cases hp⟩

/-- The owner of the cache calls the backend, and leaves the entry alone or stores the record. -/
theorem own (h : v.Kept id r version first) {call : Call}
    (hcall : v.stored.apply call id = v.stored id ∨ v.stored.apply call id = some r) :
    (v.carryOut none call).Kept id r version first := by
  have hstored : v.stored id = some r → v.stored.apply call id = some r := by
    intro hsome
    rcases hcall with hsame | hr
    · rw [hsame, hsome]
    · exact hr
  exact ⟨h.current.congr _ _, fun n p hp hle hid => hstored (h.written n p hp hle hid),
    fun hgone => ⟨hstored (h.dropped hgone).1, (h.dropped hgone).2⟩⟩

/-- The record stays stored if all passes that are under way began after the admission. -/
theorem stored_move (h : v.Kept id r version first) (hm : Move g v e v')
    (hown : ∀ call, e ≠ .own call) (hsome : v.stored id = some r)
    (hfirst : ∀ n p, (v.stage n).pass? = some p → first ≤ p.batch) : v'.stored id = some r := by
  cases hm.stores hown id with
  | same hsame => exact hsame.trans hsome
  | saved n p d hstage hd hid hrecord =>
      have hpass : (v.stage n).pass? = some p := by rw [hstage]; rfl
      rw [hrecord, h.current.newer n p hpass (hfirst n p hpass) d hd hid]
  | deleted n p written ids hstage hid hnone =>
      have hlt := h.current.redeletes n p written ids hstage hid
      exact absurd (hfirst n p (by rw [hstage]; rfl)) (Nat.not_le_of_gt hlt)

/-- Where passes do not overlap, a record is kept as long as no event concerns its entry. -/
theorem move (h : v.Kept id r version first) (hs : v.Sound) (hserial : v.Serial)
    (hm : Move g v e v') (hown : ∀ call, e ≠ .own call)
    (he : e.concerns g.config id = false) : v'.Kept id r version first := by
  -- a pass that is under way is the only one
  have honly : ∀ {n k : Nat} {p q : Pass}, (v.stage n).pass? = some p →
      (v.stage k).pass? = some q → q = p := by
    intro n k p q hp hq
    have hn : v.stage n ≠ .resting := fun hn => by rw [hn] at hp; cases hp
    have hk : v.stage k ≠ .resting := fun hk => by rw [hk] at hq; cases hq
    rw [hserial n k hn hk, hq] at hp
    exact Option.some.inj hp
  refine ⟨h.current.move hs hm he, fun n p hp hle hid => ?_, fun hgone => ?_⟩
  · rcases hm.written? hp with hold | ⟨hstage, hstored, -⟩
    · have hpass := Stage.pass?_of_written? hold
      exact h.stored_move hm hown (h.written n p hold hle hid) fun k q hq =>
        honly hpass hq ▸ hle
    · have hpass : (v.stage n).pass? = some p := by rw [hstage]; rfl
      rw [hstored]
      exact Pass.apply_entries (hs.knows n p hpass).nodup hid (h.current.newer n p hpass hle) _
  · -- the record is stored, and the passes that are left began after the admission
    have hleft : v.stored id = some r ∧ ∀ n p, (v.stage n).pass? = some p → first ≤ p.batch := by
      by_cases hslot : ∀ d ∈ v.contents.slots.candidates, d.slot.id ≠ id
      · exact h.dropped hslot
      · simp only [not_forall, not_not] at hslot
        obtain ⟨d, hd, hid⟩ := hslot
        obtain ⟨n, p, hstage, hle, hmem⟩ := h.current.exists_dropping hs hm he hd hid hgone
        have hpass : (v.stage n).pass? = some p := by rw [hstage]; rfl
        exact ⟨h.written n p (by rw [hstage]; rfl) hle hmem, fun k q hq => honly hpass hq ▸ hle⟩
    refine ⟨h.stored_move hm hown hleft.1 hleft.2, fun n p hp => ?_⟩
    rcases hm.pass? hp with hold | ⟨hnumber, -⟩
    · exact hleft.2 n p hold
    · rw [hnumber]
      exact h.current.first_le

end View.Kept

/-! ## Turns -/

/-- What the owner of a cache does, one thing after the other. -/
inductive Turn where
  /-- A record is offered to the cache, and stored in the backend as well if it is written
  through and the cache admits it. -/
  | offer (key : Key) (record : Record) (through : Bool)
  /-- An entry is deleted from the cache, and right afterwards from the backend. -/
  | delete (id : EntryId)
  /-- A kind is cleared in the cache, and right afterwards in the backend. -/
  | clear (kind : Kind)
  /-- A program begins, if all programs have ended. -/
  | begin (job : Job)
  | advance (n now : Nat)
  /-- The backend deals with the call that a program waits for. -/
  | answer (n : Nat) (verdict : Verdict)

def Turn.events (config : Config) (s : WithJobs) : Turn → List (Event Job)
  | offer key record through =>
      if through && config.takes record then [.offer key record, .own (.save record key)]
      else [.offer key record]
  | delete id => [.delete id, .own (.delete id.kind id.key)]
  | clear kind => [.clear kind, .own (.clear kind)]
  | begin job => if s.isIdle then [.begin job] else []
  | advance n now => [.advance n now]
  | answer n verdict => [.answer n verdict]

def Turn.write (config : Config) (m : Records) : Turn → Records
  | offer key record _ => if config.takes record then m.put (key, record) else m
  | delete id => m.erase id
  | clear kind => m.drop kind
  | begin _ | advance _ _ | answer _ _ => m

namespace JobSystem

def takeTurns (g : JobSystem Job) (turns : List Turn) : WithJobs :=
  turns.foldl (fun s turn => run g.step s (turn.events g.config s)) g.start

def plainMap (g : JobSystem Job) (turns : List Turn) : Records :=
  turns.foldl (Turn.write g.config) g.initial

end JobSystem

/-- What a cache before its backend and a plain map have in common at an address. -/
def View.Agrees (v : View) (id : EntryId) : Option Record → Prop
  | some r => ∃ version first, v.Kept id r version first
  | none => v.Removed id ∧ v.Doomed id

namespace View.Agrees

variable {o : Option Record}

/-- An event that does not concern an entry, and is no call of the owner. -/
theorem move (h : v.Agrees id o) (hs : v.Sound) (hserial : v.Serial) (hm : Move g v e v')
    (hown : ∀ call, e ≠ .own call) (he : e.concerns g.config id = false) : v'.Agrees id o := by
  cases o with
  | some r =>
      obtain ⟨version, first, hk⟩ := h
      exact ⟨version, first, hk.move hs hserial hm hown he⟩
  | none =>
      have hadmits : e.admits g.config id = false := (Bool.or_eq_false_iff.1 he).1
      exact ⟨h.1.move hs hm hadmits, h.2.move hs h.1 hm fun call hcall => absurd hcall (hown call)⟩

/-- A call of the owner that leaves an address alone. -/
theorem own (h : v.Agrees id o) {call : Call} (hsame : v.stored.apply call id = v.stored id) :
    (v.carryOut none call).Agrees id o := by
  cases o with
  | some r =>
      obtain ⟨version, first, hk⟩ := h
      exact ⟨version, first, hk.own (Or.inl hsame)⟩
  | none => exact ⟨h.1.congr _ _, h.2.imp hsame.trans fun hd => hd⟩

/-- An entry that the cache and then the backend remove. -/
theorem of_removes (hs : v.Sound) (hm : Move g v e v') (he : e.removes id = true) {call : Call}
    (hcall : call.removes id = true) : (v'.carryOut none call).Agrees id none := by
  exact ⟨(Removed.of_removes hs hm he).congr _ _, Or.inl (Records.apply_of_removes hcall)⟩

theorem of_start (g : JobSystem κ) (id : EntryId) :
    View.Agrees ⟨.empty g.config.maxEntries, g.initial, [], fun _ => .resting⟩ id
      (g.initial id) := by
  cases h : g.initial id with
  | some r => exact ⟨0, 0, .of_start h⟩
  | none => exact ⟨⟨fun _ hd => (List.not_mem_nil hd).elim, fun _ _ hp => by cases hp⟩, Or.inl h⟩

end View.Agrees

/-- A cache with jobs that represents a plain map, while passes do not overlap. -/
def Represents (g : JobSystem κ) (s : WithJobs) (m : Records) : Prop :=
  s.Serial ∧ ∃ v, Follows g s v ∧ v.Sound ∧ ∀ id, v.Agrees id (m id)

namespace Represents

variable {m : Records}

theorem start (g : JobSystem κ) : Represents g g.start g.initial :=
  ⟨⟨0, fun _ _ _ hp => by cases hp⟩, _, .start g, g.view_sound, .of_start g⟩

/-- A program goes on, and the other events that concern no entry. -/
theorem step (h : Represents g s m) (hsteady : ∀ ids, g.steady (.deleteBatch ids) = true)
    (horderly : ∀ job, Orderly .resting (g.program job)) (e : Event κ)
    (hserial : (g.step s e).Serial) (hown : ∀ call, e ≠ .own call)
    (he : ∀ id, e.concerns g.config id = false) : Represents g (g.step s e) m := by
  obtain ⟨hserial₀, v, hf, hs, hagrees⟩ := h
  obtain ⟨v', hm, hf'⟩ := hf.step hsteady horderly e
  exact ⟨hserial, v', hf', hm.sound hs, fun id =>
    (hagrees id).move hs (hf.serial hserial₀) hm hown (he id)⟩

theorem offer (h : Represents g s m) {key : Key} {record : Record}
    (htakes : g.config.takes record = true) :
    Represents g (g.step s (.offer key record)) (m.put (key, record)) := by
  obtain ⟨hserial, v, hf, hs, hagrees⟩ := h
  obtain ⟨v', hm, hf'⟩ := hf.offer key record
  refine ⟨hserial, v', hf', hm.sound hs, fun id => ?_⟩
  by_cases hid : id = record.idAt key
  · rw [hid, Records.put_self]
    cases hm with
    | accept => exact ⟨_, _, .of_accept hs key record⟩
    | refuse _ _ hrefused =>
        rw [htakes] at hrefused
        cases hrefused
  · rw [Records.put_of_ne hid]
    refine (hagrees id).move hs (hf.serial hserial) hm (fun call hcall => by cases hcall) ?_
    simp [Event.concerns, Event.admits, Event.removes, Ne.symm hid]

/-- An admitted record is written through. -/
theorem through (h : Represents g s m) {key : Key} {record : Record}
    (hput : m (record.idAt key) = some record) :
    Represents g (g.step s (.own (.save record key))) m := by
  obtain ⟨hserial, v, hf, hs, hagrees⟩ := h
  refine ⟨hserial, _, hf.carryOut none _, hs.congr _ _, fun id => ?_⟩
  by_cases hid : id = record.idAt key
  · have hkept := hagrees id
    rw [hid, hput] at hkept ⊢
    obtain ⟨version, first, hk⟩ := hkept
    exact ⟨version, first, hk.own (Or.inr (Records.put_self _ _ _))⟩
  · exact (hagrees id).own (Records.put_of_ne hid)

/-- Entries are removed from the cache, and right afterwards from the backend. -/
theorem remove (h : Represents g s m) (hsteady : ∀ ids, g.steady (.deleteBatch ids) = true)
    (horderly : ∀ job, Orderly .resting (g.program job)) {e : Event κ} {call : Call} {m' : Records}
    (hserial : (g.step s e).Serial) (hown : ∀ call, e ≠ .own call)
    (hadmits : ∀ id, e.admits g.config id = false)
    (hsame : ∀ id, call.removes id = e.removes id)
    (hcall : ∀ (t : Records) id, call.removes id = false → t.apply call id = t id)
    (hm' : ∀ id, m' id = if e.removes id then none else m id) :
    Represents g (g.step (g.step s e) (.own call)) m' := by
  obtain ⟨hserial₀, v, hf, hs, hagrees⟩ := h
  obtain ⟨v', hm, hf'⟩ := hf.step hsteady horderly e
  refine ⟨hserial, _, hf'.carryOut none call, (hm.sound hs).congr _ _, fun id => ?_⟩
  rw [hm']
  cases hremoves : e.removes id with
  | true => exact .of_removes hs hm hremoves ((hsame id).trans hremoves)
  | false =>
      refine View.Agrees.own ?_ (hcall _ id ((hsame id).trans hremoves))
      refine (hagrees id).move hs (hf.serial hserial₀) hm hown ?_
      simp [Event.concerns, hadmits, hremoves]

end Represents

/-- Every turn does to the cache before its backend what it does to the plain map. -/
theorem Represents.turn {g : JobSystem Job} {m : Records} (h : Represents g s m)
    (hsteady : ∀ ids, g.steady (.deleteBatch ids) = true)
    (horderly : ∀ job, Orderly .resting (g.program job)) (turn : Turn) :
    Represents g (run g.step s (turn.events g.config s)) (turn.write g.config m) := by
  cases turn with
  | offer key record through =>
      simp only [Turn.events, Turn.write]
      cases htakes : g.config.takes record with
      | false =>
          rw [Bool.and_false]
          refine h.step hsteady horderly (.offer key record) h.1 (fun call hcall => by cases hcall)
            fun id => ?_
          simp [Event.concerns, Event.admits, Event.removes, htakes]
      | true =>
          cases through with
          | false => exact h.offer htakes
          | true => exact (h.offer htakes).through (Records.put_self _ _ _)
  | delete i =>
      refine h.remove hsteady horderly h.1 (fun call hcall => by cases hcall) (fun id => rfl)
        (fun id => rfl) (fun t id hid => ?_) fun id => ?_
      · rw [Call.removes, beq_eq_false_iff_ne] at hid
        exact if_neg hid.symm
      · simp only [Turn.write, Records.erase, Event.removes, beq_iff_eq, eq_comm (a := i)]
  | clear kind =>
      refine h.remove hsteady horderly h.1 (fun call hcall => by cases hcall) (fun id => rfl)
        (fun id => rfl) (fun t id hid => ?_) fun id => ?_
      · rw [Call.removes, beq_eq_false_iff_ne] at hid
        exact if_neg hid
      · simp [Turn.write, Records.drop, Event.removes]
  | begin job =>
      simp only [Turn.events, Turn.write]
      split
      next hidle =>
        exact h.step hsteady horderly (.begin job) (.append hidle _)
          (fun call hcall => by cases hcall) fun id => rfl
      next => exact h
  | advance n now =>
      exact h.step hsteady horderly (.advance n now) (h.1.advance n now)
        (fun call hcall => by cases hcall) fun id => rfl
  | answer n verdict =>
      exact h.step hsteady horderly (.answer n verdict) (h.1.answer n _)
        (fun call hcall => by cases hcall) fun id => rfl

theorem Represents.turns {g : JobSystem Job} (hsteady : ∀ ids, g.steady (.deleteBatch ids) = true)
    (horderly : ∀ job, Orderly .resting (g.program job)) (turns : List Turn) {s : WithJobs}
    {m : Records} (h : Represents g s m) :
    Represents g (turns.foldl (fun s turn => run g.step s (turn.events g.config s)) s)
      (turns.foldl (Turn.write g.config) m) :=
  run_related (fun _ _ turn h => h.turn hsteady horderly turn) h turns

theorem Represents.holds {m : Records} (h : Represents g s m) (hid : m id = some r) :
    s.Holds id r := by
  obtain ⟨-, v, hf, hs, hagrees⟩ := h
  have hkept := hagrees id
  rw [hid] at hkept
  obtain ⟨version, first, hk⟩ := hkept
  by_cases hslot : ∀ d ∈ v.contents.slots.candidates, d.slot.id ≠ id
  · refine Or.inr ⟨hf.cached_eq_none_iff.2 hslot, ?_⟩
    rw [hf.stored]
    exact (hk.dropped hslot).1
  · simp only [not_forall, not_not] at hslot
    obtain ⟨d, hd, hdid⟩ := hslot
    have hcached := hf.cached_of_mem hs hd
    rw [hdid, (hk.current.slot d hd hdid).2] at hcached
    exact Or.inl hcached

/-- What the plain map does not have is gone, once nothing is being written. -/
theorem Represents.gone {m : Records} (h : Represents g s m) (hid : m id = none)
    (hquiet : s.isQuiet = true) : s.cached id = none ∧ s.stored id = none := by
  obtain ⟨-, v, hf, hs, hagrees⟩ := h
  have hagree := hagrees id
  rw [hid] at hagree
  obtain ⟨hr, hd⟩ := hagree
  refine ⟨hf.cached_eq_none_iff.2 hr.uncached, ?_⟩
  rcases hd with hnone | ⟨n, hn⟩
  · rw [hf.stored]
    exact hnone
  · exact absurd hn (hf.not_deletes hs hquiet n)

/-- Let the backend carry out all removals.  After any turns, every record of the plain map is
cached, or else stored.  When no batch is being written and no program waits for the backend,
which is so at the latest when all programs have ended, an address without a record in the
plain map has none in the cache and none in the backend. -/
theorem represents {g : JobSystem Job} (backendName : String)
    (hprogram : g.program = Job.program backendName)
    (hsteady : ∀ call, call.isRemoval = true → g.steady call = true) (turns : List Turn) :
    (∀ id r, g.plainMap turns id = some r → (g.takeTurns turns).Holds id r) ∧
      ((g.takeTurns turns).isIdle = true → (g.takeTurns turns).isQuiet = true) ∧
      ((g.takeTurns turns).isQuiet = true → ∀ id, g.plainMap turns id = none →
        (g.takeTurns turns).cached id = none ∧ (g.takeTurns turns).stored id = none) := by
  have horderly : ∀ job, Orderly .resting (g.program job) := by
    rw [hprogram]
    exact Job.orderly_program backendName
  have h : Represents g (g.takeTurns turns) (g.plainMap turns) :=
    Represents.turns (fun _ => hsteady _ rfl) horderly turns (.start g)
  refine ⟨fun id r => h.holds, ?_, fun hquiet id hid => h.gone hid hquiet⟩
  obtain ⟨-, v, hf, hs, -⟩ := h
  exact hf.isQuiet_of_isIdle hs

/-- A pass whose first write fails, and an entry that is deleted and admitted again while the
second write is under way. -/
def retriedPass : List Turn :=
  [.offer (.hash [1]) (.ofBytes .transaction [1]) false, .begin .pass, .advance 0 0,
    .answer 0 (.failed (.reported "io") 1), .advance 0 0, .advance 0 0, .begin .pass, .advance 1 0,
    .delete ⟨.transaction, .hash [1]⟩, .offer (.hash [1]) (.ofBytes .transaction [2]) false,
    .answer 1 .done, .advance 1 0, .advance 1 0]

theorem represents_retriedPass :
    (JobSystem.single Call.isRemoval).plainMap retriedPass ⟨.transaction, .hash [1]⟩
        = some (.ofBytes .transaction [2]) ∧
      ((JobSystem.single Call.isRemoval).takeTurns retriedPass).Holds ⟨.transaction, .hash [1]⟩
        (.ofBytes .transaction [2]) := by
  have hmap : (JobSystem.single Call.isRemoval).plainMap retriedPass ⟨.transaction, .hash [1]⟩
      = some (.ofBytes .transaction [2]) := by decide
  exact ⟨hmap, (represents "memory" rfl (fun _ h => h) retriedPass).1 _ _ hmap⟩

end Cache

end RecordStore
