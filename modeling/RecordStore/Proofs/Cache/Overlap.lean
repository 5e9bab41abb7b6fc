import RecordStore.Proofs.Cache.Admissions

/-!
# Passes that overlap

The versions of slots protect the cache from a pass that knows an older record: such a
pass drops nothing that was admitted since.  They do not protect the backend.  While a
pass is being written, a later pass may write a newer record of the same entry and drop it
from the cache, and after that the older record lands on top of the newer one.

So an admitted record is kept, by the cache or else by the backend, exactly as long as it
is not *overtaken*: the entry was dropped from the cache, and the last call that touched it
in the backend came from a pass that began before the admission, and left something else
(`holds_iff_not_overtaken`).
-/

namespace RecordStore

/-! ## What calls leave behind -/

namespace Call

/-- Whether a call stores or removes something under an address. -/
def touches (id : EntryId) (call : Call) : Bool := call.stores id || call.removes id

/-- What a call that touches an address leaves there. -/
def leaves (id : EntryId) (call : Call) : Option Record := Records.apply (fun _ => none) call id

end Call

/-- A call leaves the same under the addresses that it touches, whatever was stored there.  Only
metadata is cleared entry by entry. -/
theorem Records.apply_eq_leaves {call : Call} (hcall : ∀ kind, call ≠ .clearMetadata kind)
    (t : Records) (id : EntryId) :
    t.apply call id = if call.touches id then call.leaves id else t id := by
  by_cases htouches : call.touches id = true
  · rw [if_pos htouches, Call.leaves]
    rcases Bool.or_eq_true_iff.1 htouches with hstores | hremoves
    · cases call with
      | save record key | update record key reason =>
          obtain rfl := beq_iff_eq.1 hstores
          exact (put_self t key record).trans (put_self (fun _ => none) key record).symm
      | saveBatch entries =>
          rw [saveBatch_apply, saveBatch_apply]
          obtain ⟨e, he, hid⟩ := List.any_eq_true.1 hstores
          have hfound : (entries.reverse.find? fun e => e.id = id).isSome = true :=
            List.find?_isSome.2 ⟨e, List.mem_reverse.2 he, decide_eq_true (beq_iff_eq.1 hid)⟩
          obtain ⟨d, hd⟩ := Option.isSome_iff_exists.1 hfound
          rw [hd]
          rfl
      | _ => cases hstores
    · rw [apply_of_removes hremoves, apply_of_removes hremoves]
  · rw [if_neg htouches]
    rw [Bool.not_eq_true, Call.touches, Bool.or_eq_false_iff] at htouches
    obtain ⟨hstores, hremoves⟩ := htouches
    cases call with
    | save record key | update record key reason =>
        exact put_of_ne (beq_eq_false_iff_ne.1 hstores).symm
    | saveBatch entries =>
        refine saveBatch_of_not_mem fun e he hid => ?_
        rw [Call.stores, List.any_eq_false] at hstores
        exact hstores e he (beq_iff_eq.2 hid)
    | delete kind key => exact if_neg (beq_eq_false_iff_ne.1 hremoves).symm
    | deleteBatch ids =>
        rw [deleteBatch_apply, if_neg]
        rwa [Call.removes, List.contains_eq_mem, decide_eq_false_iff_not] at hremoves
    | clear kind => exact if_neg (beq_eq_false_iff_ne.1 hremoves)
    | clearMetadata kind => exact absurd rfl (hcall kind)
    | _ => rfl

namespace Cache

variable {κ : Type} {g : JobSystem κ} {s : WithJobs} {v v' : View} {e : Event κ} {id : EntryId}
  {r : Record} {version first : Nat}

/-! ## The calls of a run -/

/-- The calls of a run were made by passes, and the last one that touched an address tells
what is stored there. -/
structure View.Recorded (v : View) (id : EntryId) : Prop where
  /-- Calls have the numbers of passes that began. -/
  number : ∀ c ∈ v.calls, ∃ n, c.1 = some n ∧ n < v.contents.nextBatch
  /-- The last call that touched the address tells what is stored. -/
  latest : ∀ c, v.calls.find? (·.2.touches id) = some c → v.stored id = c.2.leaves id

/-- A pass saves and deletes entries. -/
theorem Stage.apply_call {st : Stage} {p : Pass} {call : Call} (hcall : st.call? = some (p, call))
    (t : Records) : t.apply call id = if call.touches id then call.leaves id else t id := by
  refine Records.apply_eq_leaves (fun kind heq => ?_) t id
  subst heq
  cases st <;> cases hcall

/-- Every move of a pass is recorded. -/
theorem View.Recorded.move (h : v.Recorded id) (hs : v.Sound)
    (hsteady : ∀ call, g.steady call = true) (hm : Move g v e v')
    (hown : ∀ call, e ≠ .own call) : v'.Recorded id := by
  have hnext := (hm.grows hs).nextBatch
  have hnumber : ∀ c ∈ v.calls, ∃ n, c.1 = some n ∧ n < v'.contents.nextBatch := by
    intro c hc
    obtain ⟨n, hn, hlt⟩ := h.number c hc
    exact ⟨n, hn, Nat.lt_of_lt_of_le hlt hnext⟩
  rcases hm.calls hsteady hown with ⟨hstored, hcalls⟩ | ⟨n, p, call, hcall, hstored, hcalls⟩
  · refine ⟨?_, ?_⟩
    · rwa [hcalls]
    · rw [hcalls, hstored]
      exact h.latest
  · have hknows := hs.knows n p (Stage.pass?_of_call? hcall)
    refine ⟨fun c hc => ?_, fun c hc => ?_⟩
    · rw [hcalls] at hc
      rcases List.mem_cons.1 hc with rfl | hc
      · exact ⟨p.batch, rfl, Nat.lt_of_lt_of_le hknows.batch_lt hnext⟩
      · exact hnumber c hc
    · rw [hcalls, List.find?_cons] at hc
      rw [hstored, Stage.apply_call hcall]
      split at hc
      next htouches =>
        cases hc
        exact if_pos htouches
      next htouches =>
        rw [if_neg (by simp [htouches])]
        exact h.latest c hc

/-! ## Records that landed -/

/-- A pass that began late enough wrote the entry. -/
def View.HasLanded (v : View) (id : EntryId) (first : Nat) : Prop :=
  ∃ n call, (some n, call) ∈ v.calls ∧ first ≤ n ∧ call.touches id = true

theorem View.HasLanded.mono (h : v.HasLanded id first) (hsub : v.calls ⊆ v'.calls) :
    v'.HasLanded id first := by
  obtain ⟨n, call, hcall, hle, htouches⟩ := h
  exact ⟨n, call, hsub hcall, hle, htouches⟩

/-- What was written of an admitted record since. -/
structure View.Landed (v : View) (id : EntryId) (r : Record) (first : Nat) : Prop where
  /-- Passes that began later leave the record. -/
  leaves : ∀ n call, (some n, call) ∈ v.calls → first ≤ n → call.touches id = true →
    call.leaves id = some r
  /-- Passes that began later and were written wrote the entry if they have it. -/
  written : ∀ n p, (v.stage n).written? = some p → first ≤ p.batch → id ∈ p.ids →
    v.HasLanded id first
  /-- An entry that is not cached any more was written. -/
  dropped : (∀ d ∈ v.contents.slots.candidates, d.slot.id ≠ id) → v.HasLanded id first

namespace View.Landed

/-- A record that was just admitted is cached. -/
theorem of_accept (hs : v.Sound) (hr : v.Recorded id) (key : Key) (record : Record) :
    View.Landed { v with contents := v.contents.put key record } (record.idAt key) record
      v.contents.nextBatch where
  leaves n call hcall hle := by
    obtain ⟨m, hm, hlt⟩ := hr.number _ hcall
    cases hm
    exact absurd hle (Nat.not_le_of_gt hlt)
  written n p hp hle :=
    absurd hle (Nat.not_le_of_gt (hs.knows n p (Stage.pass?_of_written? hp)).batch_lt)
  dropped hgone := absurd rfl (hgone _ ((Contents.mem_slots_put hs.slots).2 (Or.inl rfl)))

/-- A pass that began after the admission leaves the record where it touches the entry. -/
theorem leaves_of_call (hs : v.Sound) (hc : v.Current id r version first) {n : Nat} {p : Pass}
    {call : Call} (hcall : (v.stage n).call? = some (p, call)) (hle : first ≤ p.batch)
    (htouches : call.touches id = true) : call.leaves id = some r := by
  have hpass := Stage.pass?_of_call? hcall
  cases hstage : v.stage n with
  | saving q =>
      rw [hstage] at hcall
      cases hcall
      simp only [Call.touches, Call.removes, Bool.or_false] at htouches
      exact Pass.apply_entries (hs.knows n p hpass).nodup (Pass.stores_entries.1 htouches)
        (hc.newer n p hpass hle) _
  | deleting q written ids =>
      rw [hstage] at hcall
      cases hcall
      simp only [Call.touches, Call.stores, Call.removes, Bool.false_or,
        List.contains_iff_mem] at htouches
      exact absurd hle (Nat.not_le_of_gt (hc.redeletes n p written ids hstage htouches))
  | resting | finishing | dropping =>
      rw [hstage] at hcall
      cases hcall

/-- As long as no event concerns the entry, an uncached record was written. -/
theorem move (h : v.Landed id r first) (hs : v.Sound) (hc : v.Current id r version first)
    (hsteady : ∀ call, g.steady call = true) (hm : Move g v e v') (hown : ∀ call, e ≠ .own call)
    (he : e.concerns g.config id = false) : v'.Landed id r first where
  leaves n call hmem hle htouches := by
    rcases hm.calls hsteady hown with ⟨-, hcalls⟩ | ⟨k, p, call', hcall, -, hcalls⟩
    · rw [hcalls] at hmem
      exact h.leaves n call hmem hle htouches
    · rw [hcalls] at hmem
      rcases List.mem_cons.1 hmem with heq | hmem
      · cases heq
        exact leaves_of_call hs hc hcall hle htouches
      · exact h.leaves n call hmem hle htouches
  written n p hp hle hid := by
    rcases hm.written? hp with hold | ⟨-, -, hcalls⟩
    · exact (h.written n p hold hle hid).mono (hm.calls_subset hsteady hown)
    · refine ⟨p.batch, _, hcalls ▸ List.mem_cons_self, hle, ?_⟩
      simp only [Call.touches, Call.removes, Bool.or_false]
      exact Pass.stores_entries.2 hid
  dropped hgone := by
    refine View.HasLanded.mono ?_ (hm.calls_subset hsteady hown)
    by_cases hslot : ∀ d ∈ v.contents.slots.candidates, d.slot.id ≠ id
    · exact h.dropped hslot
    · simp only [not_forall, not_not] at hslot
      obtain ⟨d, hd, hid⟩ := hslot
      obtain ⟨n, p, hstage, hle, hmem⟩ := hc.exists_dropping hs hm he hd hid hgone
      exact h.written n p (by rw [hstage]; rfl) hle hmem

end View.Landed

/-! ## Caches with jobs -/

namespace WithJobs

/-- An address is not cached, and the last call that touched it in the backend came from a
pass before the first one of a number, and did not leave a record. -/
def Overtaken (s : WithJobs) (id : EntryId) (r : Record) (first : Nat) : Prop :=
  s.cached id = none ∧ ∃ n call, s.calls.find? (·.2.touches id) = some (some n, call) ∧
    n < first ∧ call.leaves id ≠ some r

end WithJobs

/-- An admitted record is kept unless it was overtaken. -/
theorem Follows.holds_iff (hf : Follows g s v) (hs : v.Sound) (hr : v.Recorded id)
    (hc : v.Current id r version first) (hl : v.Landed id r first) :
    s.Holds id r ↔ ¬s.Overtaken id r first := by
  by_cases hslot : ∃ d ∈ v.contents.slots.candidates, d.slot.id = id
  · -- the slot has the record
    obtain ⟨d, hd, hid⟩ := hslot
    have hcached := hf.cached_of_mem hs hd
    rw [hid, (hc.slot d hd hid).2] at hcached
    refine iff_of_true (Or.inl hcached) fun hover => ?_
    rw [WithJobs.Overtaken, hcached] at hover
    cases hover.1
  · -- the last call that touched the address decides
    simp only [not_exists, not_and] at hslot
    have huncached := hf.cached_eq_none_iff.2 hslot
    obtain ⟨m, call', hmem, -, htouches⟩ := hl.dropped hslot
    obtain ⟨⟨c₁, call⟩, hlast⟩ : ∃ c, v.calls.find? (·.2.touches id) = some c :=
      Option.isSome_iff_exists.1 (List.find?_isSome.2 ⟨_, hmem, htouches⟩)
    obtain ⟨n, hn, -⟩ := hr.number _ (List.mem_of_find?_eq_some hlast)
    cases hn
    have hstored := hr.latest _ hlast
    simp only [WithJobs.Holds, WithJobs.Overtaken, huncached, hf.stored, hf.calls, hlast, hstored]
    constructor
    · rintro (hsome | ⟨-, hleaves⟩) ⟨-, k, call'', heq, -, hne⟩
      · cases hsome
      · cases heq
        exact hne hleaves
    · intro hnot
      refine Or.inr ⟨trivial, ?_⟩
      have htouches : call.touches id = true := by simpa using List.find?_some hlast
      by_cases hle : first ≤ n
      · exact hl.leaves n call (List.mem_of_find?_eq_some hlast) hle htouches
      · by_contra hne
        exact hnot ⟨trivial, n, call, rfl, Nat.lt_of_not_le hle, hne⟩

/-- Let the backend carry out all calls, and nobody but the passes call it.  When a record is
admitted, and nothing happens to its entry afterwards, then it is kept at any later time if
and only if it was not overtaken by a pass that began before the admission. -/
theorem holds_iff_not_overtaken {g : JobSystem Job} (backendName : String)
    (hprogram : g.program = Job.program backendName) (hsteady : ∀ call, g.steady call = true)
    {key : Key} {record : Record} {before after : List (Event Job)}
    (htakes : g.config.takes record = true) (hown : ∀ call, .own call ∉ before ++ after)
    (hafter : ∀ e ∈ after, e.concerns g.config (record.idAt key) = false) :
    (run g.step g.start (before ++ .offer key record :: after)).Holds (record.idAt key) record ↔
      ¬(run g.step g.start (before ++ .offer key record :: after)).Overtaken
        (record.idAt key) record (run g.step g.start before).running.cache.contents.nextBatch := by
  have horderly : ∀ job, Orderly .resting (g.program job) := by
    rw [hprogram]
    exact Job.orderly_program backendName
  have hbatch : ∀ ids, g.steady (.deleteBatch ids) = true := fun _ => hsteady _
  rw [run_append, run_cons]
  obtain ⟨v₀, hf₀, hs₀, hr₀⟩ := Follows.along_run (P := (·.Recorded (record.idAt key))) hbatch
    horderly before (Follows.start g) g.view_sound ⟨by simp, by simp⟩ fun e he v v' hs hr hm =>
      hr.move hs hsteady hm fun call hcall => hown call (hcall ▸ List.mem_append_left _ he)
  rw [hf₀.contents]
  -- the record is admitted
  obtain ⟨v₁, hm₁, hf₁⟩ := hf₀.step hbatch horderly (.offer key record)
  have hs₁ := hm₁.sound hs₀
  have hr₁ := hr₀.move hs₀ hsteady hm₁ fun call hcall => by cases hcall
  obtain ⟨version, hc₁, hl₁⟩ : ∃ version,
      v₁.Current (record.idAt key) record version v₀.contents.nextBatch ∧
        v₁.Landed (record.idAt key) record v₀.contents.nextBatch := by
    cases hm₁ with
    | accept => exact ⟨_, .of_accept hs₀ key record, .of_accept hs₀ hr₀ key record⟩
    | refuse _ _ hrefused =>
        rw [htakes] at hrefused
        cases hrefused
  -- nothing happens to the entry
  obtain ⟨v, hf, hs, hr, hc, hl⟩ := Follows.along_run
    (P := fun v => v.Recorded (record.idAt key) ∧
      v.Current (record.idAt key) record version v₀.contents.nextBatch ∧
      v.Landed (record.idAt key) record v₀.contents.nextBatch)
    hbatch horderly after hf₁ hs₁ ⟨hr₁, hc₁, hl₁⟩ fun e he v v' hs h hm => by
      have hnot : ∀ call, e ≠ .own call := fun call hcall =>
        hown call (hcall ▸ List.mem_append_right _ he)
      exact ⟨h.1.move hs hsteady hm hnot, h.2.1.move hs hm (hafter e he),
        h.2.2.move hs h.2.1 hsteady hm hnot (hafter e he)⟩
  exact hf.holds_iff hs hr hc hl

/-- A flush of one entry that is under way. -/
def flushUnderWay : List (Event Job) :=
  [.offer (.hash [1]) (.ofBytes .transaction [1]), .begin .writeAll, .advance 0 0, .advance 0 0]

/-- A pass for a caller that is run from its beginning to its end. -/
def wholePass : List (Event Job) :=
  [.begin .evict, .advance 1 0, .advance 1 0, .advance 1 0, .answer 1 .done, .advance 1 0,
    .advance 1 0]

/-- The flush lands before the pass, so the newer record is kept by the backend. -/
theorem holds_of_flush_before_pass :
    (run (JobSystem.single fun _ => true).step (JobSystem.single fun _ => true).start
      (flushUnderWay ++ .offer (.hash [1]) (.ofBytes .transaction [2]) ::
        ([.answer 0 .done, .advance 0 0] ++ wholePass))).Holds
      ⟨.transaction, .hash [1]⟩ (.ofBytes .transaction [2]) := by
  refine (holds_iff_not_overtaken "memory" rfl (fun _ => rfl) (by decide)
    (fun _ h => by simp [flushUnderWay, wholePass] at h) (by decide)).2 ?_
  rintro ⟨-, n, call, hlast, hlt, -⟩
  have hnumber := congrArg (Option.map (·.1)) hlast
  have hone : some (some 1) = some (some n) := Eq.trans (by decide +kernel) hnumber
  cases hone
  exact absurd hlt (by decide +kernel)

/-- The flush lands after the pass, so the older record is stored, and the newer one is lost. -/
theorem not_holds_of_flush_after_pass : ¬∀ (before after : List (Event Job)) (key : Key)
    (record : Record), (JobSystem.single fun _ => true).config.takes record = true →
    (∀ call, .own call ∉ before ++ after) →
    (∀ e ∈ after, e.concerns (JobSystem.single fun _ => true).config (record.idAt key) = false) →
    (run (JobSystem.single fun _ => true).step (JobSystem.single fun _ => true).start
      (before ++ .offer key record :: after)).isQuiet = true →
    (run (JobSystem.single fun _ => true).step (JobSystem.single fun _ => true).start
      (before ++ .offer key record :: after)).Holds (record.idAt key) record := by
  intro hclaim
  have hholds := hclaim flushUnderWay (wholePass ++ [.answer 0 .done, .advance 0 0]) (.hash [1])
    (.ofBytes .transaction [2]) (by decide)
    (fun _ h => by simp [flushUnderWay, wholePass] at h) (by decide) (by decide +kernel)
  revert hholds
  decide +kernel

end Cache

end RecordStore
