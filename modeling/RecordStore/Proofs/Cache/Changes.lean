import RecordStore.Proofs.Cache.Moves

/-!
# What a move changes

An invariant of views speaks of the stages of programs, of the slots and marks under an
address, and of what the backend stores there.  For each of these parts the lemmas below
read off from a move where the part comes from.  What is invariant then follows without
another look at the rules of moves.
-/

namespace RecordStore

namespace Cache

variable {κ : Type} {g : JobSystem κ} {v v' : View} {e : Event κ} {id : EntryId} {n : Nat}
  {p : Pass}

/-- Whether an event admits a record under an address, or removes what is cached there. -/
def Event.concerns (config : Config) (id : EntryId) (e : Event κ) : Bool :=
  e.admits config id || e.removes id

/-! ## Stages -/

/-- The pass of a stage, once it is written. -/
def Stage.written? : Stage → Option Pass
  | finishing p written | deleting p written _ => if written then some p else none
  | dropping p => some p
  | resting | saving _ => none

/-- The call that a stage waits for, with its pass. -/
def Stage.call? : Stage → Option (Pass × Call)
  | saving p => some (p, .saveBatch p.entries)
  | deleting p _ ids => some (p, .deleteBatch ids)
  | resting | finishing _ _ | dropping _ => none

theorem Stage.pass?_of_written? {st : Stage} (h : st.written? = some p) : st.pass? = some p := by
  cases st with
  | resting | saving q => cases h
  | dropping q => exact h
  | finishing q written | deleting q written _ =>
      cases written with
      | true => exact h
      | false => cases h

theorem Stage.pass?_of_call? {st : Stage} {call : Call} (h : st.call? = some (p, call)) :
    st.pass? = some p := by
  cases st with
  | saving q | deleting q _ _ =>
      cases h
      rfl
  | resting | finishing | dropping => cases h

theorem Stage.Ends.written? {written : Bool} {st : Stage} (h : Stage.Ends p written st)
    {q : Pass} (hq : st.written? = some q) : written = true ∧ q = p := by
  cases h with
  | rest => cases hq
  | drop => exact ⟨rfl, (Option.some.inj hq).symm⟩

/-- How a program goes on with a pass. -/
inductive Stage.Next (c : Contents) : Stage → Stage → Prop where
  | look {candidates : List Candidate} (hsub : candidates.Sublist c.slots.candidates) :
      Stage.Next c .resting (.saving ⟨c.nextBatch, candidates⟩)
  | save {p : Pass} {written : Bool} : Stage.Next c (.saving p) (.finishing p written)
  | finish {p : Pass} {written : Bool} {st : Stage} (hend : Stage.Ends p written st) :
      Stage.Next c (.finishing p written) st
  | finishMarked {p : Pass} {written : Bool} :
      Stage.Next c (.finishing p written) (.deleting p written (c.finish p.batch).1)
  | redelete {p : Pass} {written : Bool} {ids : List EntryId} {st : Stage}
      (hend : Stage.Ends p written st) : Stage.Next c (.deleting p written ids) st
  | drop {p : Pass} : Stage.Next c (.dropping p) .resting

namespace View

theorem written?_enter {st : Stage} {k : Nat} (hp : ((v.enter k st).stage n).written? = some p) :
    (v.stage n).written? = some p ∨ n = k ∧ st.written? = some p := by
  by_cases hk : n = k
  · subst hk
    rw [stage_enter_self] at hp
    exact Or.inr ⟨rfl, hp⟩
  · rw [stage_enter_of_ne hk] at hp
    exact Or.inl hp

end View

namespace Move

/-- Only one program goes on, and it does so with its pass. -/
theorem stage (hm : Move g v e v') (k : Nat) :
    v'.stage k = v.stage k ∨ Stage.Next v.contents (v.stage k) (v'.stage k) := by
  have hother : ∀ {w : View} {n : Nat} {st : Stage}, w.stage = v.stage →
      Stage.Next v.contents (v.stage n) st →
      (w.enter n st).stage k = v.stage k ∨
        Stage.Next v.contents (v.stage k) ((w.enter n st).stage k) := by
    intro w n st hw hst
    by_cases hk : k = n
    · subst hk
      rw [View.stage_enter_self]
      exact Or.inr hst
    · rw [View.stage_enter_of_ne hk, hw]
      exact Or.inl rfl
  cases hm with
  | look n now candidates hstage hsub => exact hother rfl (hstage ▸ .look hsub)
  | save n verdict p hstage => exact hother rfl (hstage ▸ .save)
  | fail n verdict p stored calls hstage => exact hother rfl (hstage ▸ .save)
  | finish n now p written st hstage hend => exact hother rfl (hstage ▸ .finish hend)
  | finishMarked n now p written hstage => exact hother rfl (hstage ▸ .finishMarked)
  | redelete n verdict p written ids st hstage hend => exact hother rfl (hstage ▸ .redelete hend)
  | drop n now p capacity hstage => exact hother rfl (hstage ▸ .drop)
  | accept | refuse | delete | clear | own | begin | aside | idle => exact Or.inl rfl

/-- A pass was there before, or it began with the slots that there were. -/
theorem pass? (hm : Move g v e v') (hp : (v'.stage n).pass? = some p) :
    (v.stage n).pass? = some p ∨
      p.batch = v.contents.nextBatch ∧ p.candidates.Sublist v.contents.slots.candidates := by
  rcases hm.stage n with hsame | hnext
  · exact Or.inl (hsame ▸ hp)
  · generalize v.stage n = st at hnext ⊢
    generalize v'.stage n = st' at hnext hp
    cases hnext with
    | look hsub =>
        cases hp
        exact Or.inr ⟨rfl, hsub⟩
    | save | finishMarked => exact Or.inl hp
    | finish hend | redelete hend =>
        cases hend with
        | rest => cases hp
        | drop => exact Or.inl hp
    | drop => cases hp

/-- An open pass was open before, or it began with the slots that there were. -/
theorem open? (hm : Move g v e v') (hp : (v'.stage n).open? = some p) :
    (v.stage n).open? = some p ∨
      p.batch = v.contents.nextBatch ∧ p.candidates.Sublist v.contents.slots.candidates := by
  rcases hm.stage n with hsame | hnext
  · exact Or.inl (hsame ▸ hp)
  · generalize v.stage n = st at hnext ⊢
    generalize v'.stage n = st' at hnext hp
    cases hnext with
    | look hsub =>
        cases hp
        exact Or.inr ⟨rfl, hsub⟩
    | save => exact Or.inl hp
    | finish hend | redelete hend => cases hend <;> cases hp
    | finishMarked | drop => cases hp

/-- What a pass deletes again are the marks of its batch. -/
theorem deleting (hm : Move g v e v') {written : Bool} {ids : List EntryId}
    (hstage : v'.stage n = .deleting p written ids) :
    v.stage n = .deleting p written ids ∨
      (v.stage n).open? = some p ∧ ids = (v.contents.finish p.batch).1 := by
  rcases hm.stage n with hsame | hnext
  · exact Or.inl (hsame ▸ hstage)
  · rw [hstage] at hnext
    generalize v.stage n = st at hnext ⊢
    cases hnext with
    | finishMarked => exact Or.inr ⟨rfl, rfl⟩
    | finish hend | redelete hend => cases hend

end Move

/-! ## Slots -/

namespace Move

/-- The contents grow as far as passes can see. -/
theorem grows (hm : Move g v e v') (hs : v.Sound) : v.contents.Grows v'.contents := by
  cases hm with
  | accept key record => exact Contents.grows_put hs.slots key record
  | delete i => exact Contents.grows_remove hs.slots i
  | clear kind => exact Contents.grows_removeKind hs.slots kind
  | look => exact Contents.grows_begin _
  | finish | finishMarked => exact Contents.grows_finish _
  | drop => exact Contents.grows_dropAllWritten _ _
  | refuse | own | begin | aside | idle | save | fail | redelete => exact .refl _

/-- A slot was there before, unless a record is admitted under its address. -/
theorem mem_slots (hm : Move g v e v') (hs : v.Sound) (he : e.admits g.config id = false)
    {d : Candidate} (hd : d ∈ v'.contents.slots.candidates) (hid : d.slot.id = id) :
    d ∈ v.contents.slots.candidates := by
  cases hm with
  | accept key record htakes =>
      rcases (Contents.mem_slots_put hs.slots).1 hd with rfl | ⟨hd, -⟩
      · have hne : record.idAt key ≠ id := by
          intro hid
          simp [Event.admits, hid, htakes] at he
        exact absurd hid hne
      · exact hd
  | delete i => exact ((Contents.mem_slots_remove hs.slots).1 hd).1
  | clear kind => exact ((Contents.mem_slots_removeKind hs.slots).1 hd).1
  | drop n now p capacity hstage =>
      simp only [View.enter, Contents.slots_rebuild] at hd
      exact (Contents.mem_slots_dropAllWritten.1 hd).1
  | refuse | own | begin | aside | idle | look | save | fail | finish | finishMarked | redelete =>
      exact hd

/-- A slot stays, unless an event concerns its address, or a pass that wrote it drops it. -/
theorem mem_slots_or_dropping (hm : Move g v e v') (hs : v.Sound)
    (he : e.concerns g.config id = false) {d : Candidate}
    (hd : d ∈ v.contents.slots.candidates) (hid : d.slot.id = id) :
    d ∈ v'.contents.slots.candidates ∨ ∃ n p, v.stage n = .dropping p ∧ d ∈ p.candidates := by
  cases hm with
  | accept key record htakes =>
      refine Or.inl ((Contents.mem_slots_put hs.slots).2 (Or.inr ⟨hd, fun hsame => ?_⟩))
      simp [Event.concerns, Event.admits, hsame ▸ hid, htakes] at he
  | delete i =>
      refine Or.inl ((Contents.mem_slots_remove hs.slots).2 ⟨hd, fun hsame => ?_⟩)
      simp [Event.concerns, Event.removes, hsame ▸ hid] at he
  | clear kind =>
      refine Or.inl ((Contents.mem_slots_removeKind hs.slots).2 ⟨hd, fun hsame => ?_⟩)
      have hkind : id.kind = kind := by rw [← hid, ← hsame]; rfl
      simp [Event.concerns, Event.removes, hkind] at he
  | drop n now p capacity hstage =>
      simp only [View.enter, Contents.slots_rebuild, Contents.mem_slots_dropAllWritten]
      by_cases hdrop : ∀ c ∈ p.candidates, ¬(d.seq = c.seq ∧ d.slot.version = c.slot.version)
      · exact Or.inl ⟨hd, hdrop⟩
      · simp only [not_forall, not_not] at hdrop
        obtain ⟨c, hc, -, hversion⟩ := hdrop
        have hknows := hs.knows n p (by rw [hstage]; rfl)
        refine Or.inr ⟨n, p, hstage, ?_⟩
        rw [hknows.eq_of_version c hc d hd hversion]
        exact hc
  | refuse | own | begin | aside | idle | look | save | fail | finish | finishMarked | redelete =>
      exact Or.inl hd

end Move

/-! ## Marks -/

/-- A batch is new, or it was there before.  Then a mark goes away only when a record is
admitted under its address, and one comes only when the address is removed. -/
theorem Move.mem_batches (hm : Move g v e v') (id : EntryId) {b' : Batch}
    (hb' : b' ∈ v'.contents.batches) :
    b'.number = v.contents.nextBatch ∧ b'.deleted = [] ∨
      ∃ b ∈ v.contents.batches, b'.number = b.number ∧
        (e.admits g.config id = false → id ∈ b.deleted → id ∈ b'.deleted) ∧
        (e.removes id = false → id ∈ b'.deleted → id ∈ b.deleted) := by
  cases hm with
  | accept key record htakes =>
      rw [Contents.batches_put] at hb'
      obtain ⟨b, hb, rfl⟩ := List.mem_map.1 hb'
      refine Or.inr ⟨b, hb, rfl, fun he hdeleted => ?_, fun _ hd => (Batch.mem_unmark.1 hd).1⟩
      refine Batch.mem_unmark.2 ⟨hdeleted, ?_⟩
      rintro rfl
      simp [Event.admits, htakes] at he
  | delete i =>
      rw [Contents.batches_remove] at hb'
      obtain ⟨b, hb, rfl⟩ := List.mem_map.1 hb'
      refine Or.inr ⟨b, hb, (Batch.remarks_markDeleted i b).1,
        fun _ hd => Batch.mem_markDeleted.2 (Or.inl hd), fun he hdeleted => ?_⟩
      rcases Batch.mem_markDeleted.1 hdeleted with hd | ⟨rfl, -⟩
      · exact hd
      · simp [Event.removes] at he
  | clear kind =>
      rw [Contents.batches_removeKind] at hb'
      obtain ⟨b, hb, rfl⟩ := List.mem_map.1 hb'
      refine Or.inr ⟨b, hb, (Batch.remarks_markCleared kind b).1,
        fun _ hd => Batch.mem_markCleared.2 (Or.inl hd), fun he hdeleted => ?_⟩
      rcases Batch.mem_markCleared.1 hdeleted with hd | ⟨hkind, -⟩
      · exact hd
      · simp [Event.removes, hkind] at he
  | look n now candidates hstage hsub =>
      rcases List.mem_append.1 hb' with hb | hb
      · exact Or.inr ⟨b', hb, rfl, fun _ hd => hd, fun _ hd => hd⟩
      · rw [List.mem_singleton.1 hb]
        exact Or.inl ⟨rfl, rfl⟩
  | finish | finishMarked =>
      exact Or.inr ⟨b', (Contents.mem_batches_finish.1 hb').1, rfl, fun _ hd => hd, fun _ hd => hd⟩
  | drop n now p capacity hstage =>
      simp only [View.enter, Contents.batches_rebuild, Contents.batches_dropAllWritten] at hb'
      exact Or.inr ⟨b', hb', rfl, fun _ hd => hd, fun _ hd => hd⟩
  | refuse | own | begin | aside | idle | save | fail | redelete =>
      exact Or.inr ⟨b', hb', rfl, fun _ hd => hd, fun _ hd => hd⟩

/-! ## What the backend stores -/

/-- What a move does in the backend under an address. -/
inductive View.Stores (v v' : View) (id : EntryId) : Prop where
  | same (hsame : v'.stored id = v.stored id)
  /-- A pass stores its record. -/
  | saved (n : Nat) (p : Pass) (d : Candidate) (hstage : v.stage n = .saving p)
      (hd : d ∈ p.candidates) (hid : d.slot.id = id) (hrecord : v'.stored id = some d.slot.record)
  /-- A pass deletes what was deleted meanwhile. -/
  | deleted (n : Nat) (p : Pass) (written : Bool) (ids : List EntryId)
      (hstage : v.stage n = .deleting p written ids) (hid : id ∈ ids)
      (hnone : v'.stored id = none)

namespace Move

/-- Only passes change what the backend stores, but for calls of the owner of the cache. -/
theorem stores (hm : Move g v e v') (hown : ∀ call, e ≠ .own call) (id : EntryId) :
    v.Stores v' id := by
  cases hm with
  | own call => exact absurd rfl (hown call)
  | save n verdict p hstage =>
      rcases Records.saveBatch_cases p.entries v.stored with hsame | ⟨x, hx, hid, hrecord⟩
      · exact .same hsame
      · obtain ⟨d, hd, rfl⟩ := Pass.mem_entries.1 hx
        exact .saved n p d hstage hd hid hrecord
  | fail n verdict p stored calls hstage hsteady hstored =>
      rcases hstored id with hsame | ⟨d, hd, hid, hrecord⟩
      · exact .same hsame
      · exact .saved n p d hstage hd hid hrecord
  | redelete n verdict p written ids st hstage hend =>
      have happly : v.stored.apply (.deleteBatch ids) id = if id ∈ ids then none else v.stored id :=
        Records.deleteBatch_apply ids v.stored
      by_cases hid : id ∈ ids
      · exact .deleted n p written ids hstage hid (happly.trans (if_pos hid))
      · exact .same (happly.trans (if_neg hid))
  | accept | refuse | delete | clear | begin | aside | idle | look | finish | finishMarked | drop =>
      exact .same rfl

/-- A pass that is written was written before, or it lands. -/
theorem written? (hm : Move g v e v') (hp : (v'.stage n).written? = some p) :
    (v.stage n).written? = some p ∨
      v.stage n = .saving p ∧ v'.stored = v.stored.apply (.saveBatch p.entries) ∧
        v'.calls = (some p.batch, .saveBatch p.entries) :: v.calls := by
  cases hm with
  | look k now candidates hstage hsub =>
      rcases View.written?_enter hp with hold | ⟨-, hnew⟩
      · exact Or.inl hold
      · cases hnew
  | save k verdict q hstage =>
      rcases View.written?_enter hp with hold | ⟨rfl, hnew⟩
      · exact Or.inl hold
      · cases hnew
        exact Or.inr ⟨hstage, rfl, rfl⟩
  | fail k verdict q stored calls hstage hsteady hstored =>
      rcases View.written?_enter hp with hold | ⟨-, hnew⟩
      · exact Or.inl hold
      · cases hnew
  | finish k now q written st hstage hend hclean =>
      rcases View.written?_enter hp with hold | ⟨rfl, hnew⟩
      · exact Or.inl hold
      · obtain ⟨rfl, rfl⟩ := hend.written? hnew
        exact Or.inl (by rw [hstage]; rfl)
  | finishMarked k now q written hstage hmarked =>
      rcases View.written?_enter hp with hold | ⟨rfl, hnew⟩
      · exact Or.inl hold
      · exact Or.inl (by rw [hstage]; exact hnew)
  | redelete k verdict q written ids st hstage hend =>
      rcases View.written?_enter hp with hold | ⟨rfl, hnew⟩
      · exact Or.inl hold
      · obtain ⟨rfl, rfl⟩ := hend.written? hnew
        exact Or.inl (by rw [hstage]; rfl)
  | drop k now q capacity hstage =>
      rcases View.written?_enter hp with hold | ⟨-, hnew⟩
      · exact Or.inl hold
      · cases hnew
  | accept | refuse | delete | clear | own | begin | aside | idle => exact Or.inl hp

/-- The calls that the backend carries out are those that passes wait for, if it never fails
and its owner calls nothing. -/
theorem calls (hm : Move g v e v') (hsteady : ∀ call, g.steady call = true)
    (hown : ∀ call, e ≠ .own call) :
    v'.stored = v.stored ∧ v'.calls = v.calls ∨
      ∃ n p call, (v.stage n).call? = some (p, call) ∧ v'.stored = v.stored.apply call ∧
        v'.calls = (some p.batch, call) :: v.calls := by
  cases hm with
  | own call => exact absurd rfl (hown call)
  | save n verdict p hstage => exact Or.inr ⟨n, p, _, by rw [hstage]; rfl, rfl, rfl⟩
  | fail n verdict p stored calls hstage hnot hstored =>
      rw [hsteady] at hnot
      cases hnot
  | redelete n verdict p written ids st hstage hend =>
      exact Or.inr ⟨n, p, _, by rw [hstage]; rfl, rfl, rfl⟩
  | accept | refuse | delete | clear | begin | aside | idle | look | finish | finishMarked | drop =>
      exact Or.inl ⟨rfl, rfl⟩

theorem calls_subset (hm : Move g v e v') (hsteady : ∀ call, g.steady call = true)
    (hown : ∀ call, e ≠ .own call) : v.calls ⊆ v'.calls := by
  rcases hm.calls hsteady hown with ⟨-, hcalls⟩ | ⟨n, p, call, -, -, hcalls⟩
  · rw [hcalls]
    exact List.Subset.refl _
  · rw [hcalls]
    exact List.subset_cons_self _ _

end Move

end Cache

end RecordStore
