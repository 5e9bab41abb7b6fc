import RecordStore.Proofs.Cache.Moves
import RecordStore.Proofs.Store.Answers

/-!
# Caches that mirror what is stored

A cache *mirrors* records if it is open and the record of every slot is the one that is stored
under its address (`Mirrors`).  An admission of a record that is stored keeps this.  So does every
call that writes or deletes, if the records change with it (`Running.mirrors_serve`): a record
that exists and is not taken is of a kind that has no slots.

A pass that nothing comes between writes what is stored already, and nothing is deleted while it is
being written.  The batches of a mirror at a stage of a program are told by `Mirrors.batches`.
-/

namespace RecordStore

namespace Call

/-- Whether a call brings only records that exist, and clears nothing. -/
def isOrdinary : Call → Bool
  | save record _ | update record _ _ => record.present
  | saveBatch entries => entries.all fun e => e.2.present
  | shutdown | clear _ | clearMetadata _ => false
  | _ => true

/-- Whether a call changes nothing that is stored. -/
def isLook : Call → Bool
  | save _ _ | saveBatch _ | update _ _ _ | delete _ _ | deleteBatch _ | clear _ | clearMetadata _
  | shutdown => false
  | _ => true

variable {call : Call}

theorem isOrdinary_of_isLook (h : call.isLook = true) : call.isOrdinary = true := by
  cases call <;> first | rfl | cases h

theorem apply_of_isLook (h : call.isLook = true) (t : Records) : t.apply call = t := by
  cases call <;> first | rfl | cases h

end Call

namespace Cache

/-- An open cache that has no record but those that are stored, while a program is at a stage. -/
structure Mirrors (config : Config) (t : Records) (st : Stage) (c : Cache) : Prop where
  sound : c.Sound config
  isOpen : c.closed = false
  stored : ∀ d ∈ c.contents.slots.candidates, t d.slot.id = some d.slot.record
  /-- No batch is being written but the one of the program, and none of its addresses is marked. -/
  batches : ∀ b ∈ c.contents.batches,
    b.deleted = [] ∧ ∃ p, st.open? = some p ∧ b.number = p.batch

variable {config : Config} {t : Records} {st : Stage} {c : Cache} {r : Running}

theorem mirrors_ofConfig (config : Config) (t : Records) :
    (ofConfig config).Mirrors config t .resting where
  sound := sound_ofConfig config
  isOpen := rfl
  stored d hd := by cases hd
  batches b hb := by cases hb

namespace Mirrors

theorem batches_eq_nil (h : c.Mirrors config t .resting) : c.contents.batches = [] := by
  refine List.eq_nil_iff_forall_not_mem.2 fun b hb => ?_
  obtain ⟨-, p, hp, -⟩ := h.batches b hb
  cases hp

/-- What a mirror has depends on its contents. -/
theorem congr (h : c.Mirrors config t st) {c' : Cache} (hexcluded : c'.excluded = c.excluded)
    (hclosed : c'.closed = c.closed) (hcontents : c'.contents = c.contents) :
    c'.Mirrors config t st where
  sound := h.sound.congr hexcluded hcontents
  isOpen := hclosed.trans h.isOpen
  stored := hcontents ▸ h.stored
  batches := hcontents ▸ h.batches

/-! ## Admissions -/

/-- An admission keeps a mirror, if its record is the one that is stored afterwards. -/
theorem put (h : c.Mirrors config t .resting) {key : Key} {record : Record} {t' : Records}
    {counters : Counters} (haccepts : c.accepts record = true)
    (hrecord : t' (record.idAt key) = some record)
    (hother : ∀ id, id ≠ record.idAt key → t' id = t id) :
    ({ c with contents := c.contents.put key record, counters } : Cache).Mirrors config t'
      .resting where
  sound := by
    have hoffer := h.sound.offer key record
    rw [Cache.offer, if_pos haccepts] at hoffer
    exact hoffer.congr rfl rfl
  isOpen := h.isOpen
  stored d hd := by
    rcases (Contents.mem_slots_put h.sound.contents.slots).1 hd with rfl | ⟨hd, hid⟩
    · exact hrecord
    · rw [hother _ hid]
      exact h.stored d hd
  batches b hb := by
    rw [Contents.batches_put, h.batches_eq_nil] at hb
    cases hb

/-- An offer of a record that is stored keeps a mirror. -/
theorem offer_stored (h : c.Mirrors config t .resting) {e : Entry} (he : t e.id = some e.2) :
    (c.offer e.1 e.2).2.Mirrors config t .resting := by
  rcases Running.offer_cases c e.1 e.2 with ⟨haccepts, hoffer⟩ | ⟨-, hoffer⟩
  · rw [hoffer]
    exact h.put haccepts he fun _ _ => rfl
  · rw [hoffer]
    exact h.congr rfl rfl rfl

/-- Where a cache does not take a record that exists, it has no slot. -/
theorem id_ne_of_not_accepts (h : c.Mirrors config t st) {key : Key} {record : Record}
    (hpresent : record.present = true) (haccepts : c.accepts record = false) :
    ∀ d ∈ c.contents.slots.candidates, d.slot.id ≠ record.idAt key := by
  intro d hd hid
  have hkind : d.slot.record.kind = record.kind := congrArg EntryId.kind hid
  have htaken := h.sound.taken d hd
  rw [accepts_eq h.sound.excluded, h.isOpen, Bool.not_false, Bool.and_true, Config.takes, hpresent]
    at haccepts
  rw [Config.takes, Record.isDerived, hkind] at htaken
  rw [Record.isDerived, Bool.true_and] at haccepts
  rw [Bool.and_assoc, haccepts, Bool.and_false] at htaken
  cases htaken

/-- An offer of a record that exists keeps a mirror of what is stored with it. -/
theorem offer (h : c.Mirrors config t .resting) {e : Entry} (hpresent : e.2.present = true) :
    (c.offer e.1 e.2).2.Mirrors config (t.put e) .resting := by
  rcases Running.offer_cases c e.1 e.2 with ⟨haccepts, hoffer⟩ | ⟨haccepts, hoffer⟩
  · rw [hoffer]
    exact h.put haccepts (if_pos rfl) fun id hid => if_neg hid
  · rw [hoffer]
    refine ⟨h.sound.congr rfl rfl, h.isOpen, fun d hd => ?_, h.batches⟩
    have hid : d.slot.id ≠ e.id := h.id_ne_of_not_accepts hpresent haccepts d hd
    rw [Records.put, if_neg hid]
    exact h.stored d hd

/-! ## Deletions -/

theorem delete (h : c.Mirrors config t .resting) (id : EntryId) :
    (c.delete id).Mirrors config (t.erase id) .resting where
  sound := h.sound.delete id
  isOpen := h.isOpen
  stored d hd := by
    obtain ⟨hd, hid⟩ := (Contents.mem_slots_remove h.sound.contents.slots).1 hd
    rw [Records.erase, if_neg hid]
    exact h.stored d hd
  batches b hb := by
    simp only [Cache.delete, Contents.batches_remove, h.batches_eq_nil, List.map_nil] at hb
    cases hb

theorem foldl_delete (h : c.Mirrors config t .resting) (ids : List EntryId) :
    (ids.foldl Cache.delete c).Mirrors config (ids.foldl Records.erase t) .resting := by
  induction ids generalizing c t with
  | nil => exact h
  | cons id ids ih => exact ih (h.delete id)

theorem get (h : c.Mirrors config t st) (id : EntryId) : (c.get id).2.Mirrors config t st := by
  simp only [Cache.get]
  split <;> exact h.congr rfl rfl rfl

end Mirrors

/-! ## Calls -/

namespace Running

theorem mirrors_offerAll (h : r.cache.Mirrors config t .resting) {entries : List Entry}
    (hpresent : ∀ e ∈ entries, e.2.present = true) :
    (r.offerAll entries).2.cache.Mirrors config (entries.foldl Records.put t) .resting := by
  induction entries generalizing r t with
  | nil => exact h
  | cons e entries ih =>
      rw [List.forall_mem_cons] at hpresent
      have hoffer := h.offer hpresent.1
      rw [← (r.offer_eq e.1 e.2).2] at hoffer
      exact ih hoffer hpresent.2

/-- A call that a cache follows keeps a mirror of what is stored after it. -/
theorem mirrors_serve (h : r.cache.Mirrors config t .resting) {call : Call}
    (hcall : call.isOrdinary = true) :
    (r.serve call).2.cache.Mirrors config (t.apply call) .resting := by
  have hoffer : ∀ {key : Key} {record : Record}, record.present = true →
      (r.offer key record).2.cache.Mirrors config (t.put (key, record)) .resting := by
    intro key record hpresent
    rw [(r.offer_eq key record).2]
    exact h.offer (e := (key, record)) hpresent
  cases call with
  | init =>
      show r.start.2.cache.Mirrors config t .resting
      rw [cache_start]
      exact h
  | save record key | update record key reason => exact hoffer hcall
  | saveBatch entries => exact mirrors_offerAll h (List.all_eq_true.1 hcall)
  | delete kind key => exact h.delete _
  | deleteBatch ids => exact h.foldl_delete ids
  | get kind key | seek kind raw => exact h.get _
  | shutdown | clear | clearMetadata => cases hcall
  | _ => exact h

theorem mirrors_look (h : r.cache.Mirrors config t .resting) {call : Call}
    (hcall : call.isLook = true) : (r.serve call).2.cache.Mirrors config t .resting := by
  have hserve := mirrors_serve h (Call.isOrdinary_of_isLook hcall)
  rwa [Call.apply_of_isLook hcall] at hserve

/-- What a mirror has under an address is what is stored there. -/
theorem stored_of_recordAt? (h : r.cache.Mirrors config t st) {id : EntryId} {record : Record}
    (hrecord : r.cache.contents.slots.recordAt? id = some record) : t id = some record := by
  have hentry : (r.cache.contents.slots.recordAt? id).map (id.key, ·) = some (id.key, record) := by
    rw [hrecord]
    rfl
  obtain ⟨hid, d, hd, hslot⟩ := slot_of_recordAt? h.sound.contents.slots hentry
  have hstored := h.stored d hd
  have hdid : d.slot.id = id := by rw [← hid, ← hslot]; rfl
  have hdrecord : d.slot.record = record := congrArg Prod.snd hslot
  rwa [hdid, hdrecord] at hstored

end Running

/-! ## Passes -/

/-- What a pass is about to do at a stage if nothing came between: the entries that it writes are
stored, and nothing is to be deleted again. -/
def Stage.Fits (t : Records) : Stage → Prop
  | resting | finishing _ _ | dropping _ => True
  | saving p => ∀ e ∈ p.entries, t e.id = some e.2
  | deleting _ _ _ => False

/-- The stage of a program that has begun a pass, if there is anything to write. -/
def Stage.begun : Option Pass → Stage
  | none => resting
  | some p => saving p

namespace Mirrors

theorem reply?_of_isAside (h : r.cache.Mirrors config t st) (caller now : Nat) {q : Request}
    (hq : q.isAside = true) : (r.reply? caller now q).2.cache.Mirrors config t st := by
  obtain ⟨hcontents, hexcluded, hclosed⟩ := r.reply?_of_isAside caller now hq
  exact h.congr hexcluded hclosed hcontents

/-- A pass begins with what is stored. -/
theorem beginPass (h : c.Mirrors config t .resting) {candidates : List Candidate}
    (hsub : ∀ d ∈ candidates, d ∈ c.contents.slots.candidates) :
    (c.beginPass candidates).2.Mirrors config t (.begun (c.beginPass candidates).1) ∧
      (Stage.begun (c.beginPass candidates).1).Fits t := by
  rcases c.beginPass_cases candidates with hbegin | hbegin
  · rw [hbegin]
    exact ⟨h, trivial⟩
  · rw [hbegin]
    constructor
    · refine ⟨h.sound.withContents ?_ fun d hd => hd, h.isOpen, h.stored, fun b hb => ?_⟩
      · exact h.sound.contents.of_batches _ _
      · simp only [Contents.begin, h.batches_eq_nil, List.nil_append, List.mem_singleton] at hb
        rw [hb]
        exact ⟨rfl, _, rfl, rfl⟩
    · intro e he
      obtain ⟨d, hd, rfl⟩ := List.mem_map.1 he
      exact h.stored d (hsub d hd)

theorem beginFlush (h : c.Mirrors config t .resting) :
    c.beginFlush.2.Mirrors config t (.begun c.beginFlush.1) ∧ (Stage.begun c.beginFlush.1).Fits t :=
  h.beginPass fun _ hd => hd

theorem beginEviction (h : c.Mirrors config t .resting) :
    c.beginEviction.2.Mirrors config t (.begun c.beginEviction.1) ∧
      (Stage.begun c.beginEviction.1).Fits t := by
  simp only [Cache.beginEviction]
  split
  · exact h.beginPass fun _ hd => List.mem_of_mem_take hd
  · exact ⟨h, trivial⟩

/-- The batch of a pass ends without marks. -/
theorem finishBatch {p : Pass} {written : Bool} (h : c.Mirrors config t (.finishing p written)) :
    (c.finishBatch p.batch).1 = [] ∧
      ∀ st, (c.finishBatch p.batch).2.Mirrors config t st := by
  constructor
  · show ((c.contents.batches.find? fun b => b.number == p.batch).map (·.deleted)).getD [] = []
    cases hfind : c.contents.batches.find? fun b => b.number == p.batch with
    | none => rfl
    | some b => exact (h.batches b (List.mem_of_find?_eq_some hfind)).1
  · intro st
    refine ⟨h.sound.finishBatch p.batch, h.isOpen, h.stored, fun b hb => ?_⟩
    obtain ⟨hb, hnumber⟩ := List.mem_filter.1 hb
    obtain ⟨-, _, ⟨⟩, heq⟩ := h.batches b hb
    rw [heq, bne_self_eq_false] at hnumber
    cases hnumber

theorem dropWritten {p : Pass} (h : c.Mirrors config t (.dropping p)) :
    (c.dropWritten p.candidates).2.Mirrors config t .resting where
  sound := h.sound.dropWritten p.candidates
  isOpen := h.isOpen
  stored d hd := by
    simp only [Cache.dropWritten, Contents.slots_rebuild, Contents.mem_slots_dropAllWritten] at hd
    exact h.stored d hd.1
  batches b hb := by
    simp only [Cache.dropWritten, Contents.batches_rebuild, Contents.batches_dropAllWritten] at hb
    obtain ⟨-, _, ⟨⟩, -⟩ := h.batches b hb

end Mirrors

/-- Writing what is stored changes nothing. -/
theorem apply_saveBatch_of_stored {entries : List Entry} (h : ∀ e ∈ entries, t e.id = some e.2) :
    t.apply (.saveBatch entries) = t := by
  funext id
  have hcases : t.apply (.saveBatch entries) id = t id ∨
      ∃ e ∈ entries, e.id = id ∧ t.apply (.saveBatch entries) id = some e.2 :=
    Records.saveBatch_cases entries t
  rcases hcases with hsame | ⟨e, he, rfl, hwritten⟩
  · exact hsame
  · rw [hwritten, h e he]

end Cache

end RecordStore
