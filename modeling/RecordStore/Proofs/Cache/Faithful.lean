import RecordStore.Proofs.Cache.WithJobs

/-!
# What a cache answers

Whatever happens to a cache with jobs, it answers by its slots: the filter and the excluded
kinds never hide an entry (`JobSystem.run_faithful`).  This holds for all programs, for
every order of their requests, and for every verdict of the backend.

`Cache.Sound` is the invariant: the contents are sound, and every entry is one that the
configuration admits.  Each request keeps it (`Running.reply?_sound`), so each event
does.
-/

namespace RecordStore

namespace Cache

/-- Whether a cache with a configuration takes a record, as long as it is not closed. -/
def Config.takes (config : Config) (record : Record) : Bool :=
  record.present && !record.isDerived && !config.excludedKinds.contains record.kind

/-- What every request keeps of a cache. -/
structure Sound (config : Config) (c : Cache) : Prop where
  excluded : c.excluded = config.excludedKinds
  contents : c.contents.Sound
  /-- Only records that the configuration takes have slots. -/
  taken : ∀ d ∈ c.contents.slots.candidates, config.takes d.slot.record = true

variable {config : Config} {c : Cache} {r : Running}

theorem sound_ofConfig (config : Config) : (ofConfig config).Sound config where
  excluded := rfl
  contents := Contents.sound_empty config.maxEntries
  taken d hd := by cases hd

theorem accepts_eq (h : c.excluded = config.excludedKinds) (record : Record) :
    c.accepts record = (config.takes record && !c.closed) := by
  simp only [accepts, isExcluded, Config.takes, h]
  cases record.present <;> cases record.isDerived <;>
    cases config.excludedKinds.contains record.kind <;> cases c.closed <;> rfl

/-! ## Requests -/

namespace Sound

/-- Soundness depends on the contents and the excluded kinds alone. -/
theorem congr (h : c.Sound config) {c' : Cache} (hexcluded : c'.excluded = c.excluded)
    (hcontents : c'.contents = c.contents) : c'.Sound config where
  excluded := hexcluded.trans h.excluded
  contents := hcontents ▸ h.contents
  taken := hcontents ▸ h.taken

/-- A change that adds no slots keeps a cache sound. -/
theorem withContents (h : c.Sound config) {contents : Contents} (hs : contents.Sound)
    (hsub : ∀ d ∈ contents.slots.candidates, d ∈ c.contents.slots.candidates) :
    ({ c with contents } : Cache).Sound config where
  excluded := h.excluded
  contents := hs
  taken d hd := h.taken d (hsub d hd)

theorem offer (h : c.Sound config) (key : Key) (record : Record) :
    (c.offer key record).2.Sound config := by
  rcases Running.offer_cases c key record with ⟨haccepts, heq⟩ | ⟨-, heq⟩
  · rw [heq]
    refine ⟨h.excluded, h.contents.put key record, fun d hd => ?_⟩
    rcases (Contents.mem_slots_put h.contents.slots).1 hd with rfl | ⟨hd, -⟩
    · rw [accepts_eq h.excluded, Bool.and_eq_true] at haccepts
      exact haccepts.1
    · exact h.taken d hd
  · rw [heq]
    exact h.congr rfl rfl

theorem offerAll (h : c.Sound config) (entries : List Entry) :
    (c.offerAll entries).2.Sound config := by
  induction entries generalizing c with
  | nil => exact h
  | cons e entries ih => exact ih (h.offer e.1 e.2)

theorem delete (h : c.Sound config) (id : EntryId) : (c.delete id).Sound config :=
  h.withContents (h.contents.remove id) fun _ hd =>
    ((Contents.mem_slots_remove h.contents.slots).1 hd).1

theorem foldl_delete (h : c.Sound config) (ids : List EntryId) :
    (ids.foldl Cache.delete c).Sound config := by
  induction ids generalizing c with
  | nil => exact h
  | cons id ids ih => exact ih (h.delete id)

theorem clear (h : c.Sound config) (kind : Kind) : (c.clear kind).Sound config :=
  h.withContents (h.contents.removeKind kind) fun _ hd =>
    ((Contents.mem_slots_removeKind h.contents.slots).1 hd).1

theorem get (h : c.Sound config) (id : EntryId) : (c.get id).2.Sound config := by
  simp only [Cache.get]
  split <;> exact h.congr rfl rfl

theorem beginPass (h : c.Sound config) (candidates : List Candidate) :
    (c.beginPass candidates).2.Sound config := by
  simp only [Cache.beginPass]
  split
  · exact h
  · exact h.withContents (h.contents.of_batches _ _) fun _ hd => hd

theorem beginEviction (h : c.Sound config) : c.beginEviction.2.Sound config := by
  simp only [Cache.beginEviction]
  split
  · exact h.beginPass _
  · exact h

theorem finishBatch (h : c.Sound config) (batch : Nat) :
    (c.finishBatch batch).2.Sound config :=
  h.withContents (h.contents.of_batches _ _) fun _ hd => hd

theorem dropWritten (h : c.Sound config) (candidates : List Candidate) :
    (c.dropWritten candidates).2.Sound config := by
  have hs : (c.contents.dropAllWritten candidates).2.Sound := h.contents.dropAllWritten
  refine (h.withContents (hs.rebuild c.maxSize) fun d hd => ?_).congr rfl rfl
  rw [Contents.slots_rebuild, Contents.mem_slots_dropAllWritten] at hd
  exact hd.1

theorem empty (h : c.Sound config) : c.empty.Sound config :=
  h.withContents Contents.sound_clear fun _ hd => by cases hd

theorem perform (h : c.Sound config) (call : Call) : (c.perform call).2.Sound config := by
  cases call with
  | get kind key => exact h.get _
  | save record key => exact h.offer key record
  | saveBatch entries => exact h.offerAll entries
  | update record key reason => exact h.offer key record
  | delete kind key => exact h.delete _
  | deleteBatch ids => exact h.foldl_delete ids
  | seek kind raw => exact h.get _
  | clear kind => exact h.clear kind
  | _ => exact h

end Sound

namespace Running

theorem offer_sound (h : r.cache.Sound config) (key : Key) (record : Record) :
    (r.offer key record).2.cache.Sound config := by
  rw [(r.offer_eq key record).2]
  exact h.offer key record

theorem offerAll_sound (h : r.cache.Sound config) (entries : List Entry) :
    (r.offerAll entries).2.cache.Sound config := by
  induction entries generalizing r with
  | nil => exact h
  | cons e entries ih => exact ih (offer_sound h e.1 e.2)

theorem perform_sound (h : r.cache.Sound config) (call : Call) :
    (r.perform call).2.cache.Sound config := by
  cases call with
  | init =>
      show r.start.2.cache.Sound config
      rw [cache_start]
      exact h
  | _ =>
      simp only [Running.perform]
      exact h.perform _

theorem serve_sound (h : r.cache.Sound config) (call : Call) :
    (r.serve call).2.cache.Sound config := by
  cases call with
  | save record key => exact offer_sound h key record
  | saveBatch entries => exact offerAll_sound h entries
  | update record key reason => exact offer_sound h key record
  | _ => exact perform_sound h _

theorem reply?_sound (h : r.cache.Sound config) (caller now : Nat) (q : Request) :
    (r.reply? caller now q).2.cache.Sound config := by
  have hwork : isAboutWork q = true → (r.reply? caller now q).2.cache.Sound config := by
    intro hq
    rw [r.cache_of_isAboutWork caller now hq]
    exact h
  cases q with
  | perform call => exact perform_sound h call
  | receive key record => exact h.offer key record
  | close => exact h.congr rfl rfl
  | beginEviction => exact h.beginEviction
  | beginFlush => exact h.beginPass _
  | finishBatch batch => exact h.finishBatch batch
  | dropWritten candidates => exact h.dropWritten candidates
  | failEviction => exact h.congr rfl rfl
  | empty => exact h.empty
  | queueRequest | submit | await | nextEvent | join | beginWork => exact hwork rfl
  | _ => exact h

end Running

/-! ## Caches with jobs -/

variable {κ : Type} {g : JobSystem κ} {s : WithJobs}

theorem step_sound (h : s.running.cache.Sound config) (e : Event κ) :
    (g.step s e).running.cache.Sound config := by
  cases e with
  | offer key record => exact h.offer key record
  | delete id => exact h.delete _
  | clear kind => exact h.clear kind
  | own call => exact h
  | begin job => exact h
  | advance n now =>
      simp only [JobSystem.step, WithJobs.advance]
      split
      next q next batch hp =>
        have hr := Running.reply?_sound h n now q
        split
        next hq => rwa [hq] at hr
        next hq => rwa [hq] at hr
      next => exact h
  | answer n verdict =>
      simp only [JobSystem.step, WithJobs.answer]
      split
      next =>
        split
        · exact h
        · exact h
      next => exact h

theorem run_sound (events : List (Event κ)) :
    (run g.step g.start events).running.cache.Sound g.config :=
  run_keeps (Q := fun s : WithJobs => s.running.cache.Sound g.config) (fun _ e h => step_sound h e)
    (sound_ofConfig g.config) events

/-! ## Answers -/

/-- A cache that answers by its slots. -/
structure Faithful (config : Config) (r : Running) : Prop where
  /-- An address has one slot at most. -/
  nodup : (r.cache.contents.slots.toList.map Slot.id).Nodup
  /-- What has a slot exists, is not derived, and is not of an excluded kind. -/
  taken : ∀ slot ∈ r.cache.contents.slots.toList, slot.record.present = true ∧
    slot.record.isDerived = false ∧ config.excludedKinds.contains slot.kind = false
  /-- Until the filter is given up, it holds in each pair of buckets as many copies of a tag
  as there are slots with a fingerprint of that tag and in that pair. -/
  tags : r.cache.contents.saturated = false →
    ∀ (i : Filter.Position r.cache.contents.filter.bits) (tag : UInt8), tag ≠ 0 →
      r.cache.contents.filter.tagsAt i tag = r.cache.contents.slots.toList.countP fun slot =>
        Filter.tagOf (Fingerprint.ofId slot.id) == tag &&
          (r.cache.contents.filter.home (Fingerprint.ofId slot.id) == i ||
            r.cache.contents.filter.home (Fingerprint.ofId slot.id) == Filter.partner i tag)
  /-- A read answers with the record in the slots. -/
  get : ∀ kind key, (r.perform (.get kind key)).1
    = .ok (r.cache.contents.slots.recordAt? ⟨kind, key⟩)
  /-- A key exists if there is a record in the slots. -/
  has : ∀ kind key, (r.perform (.has kind key)).1
    = .ok (r.cache.contents.slots.recordAt? ⟨kind, key⟩).isSome
  /-- A read by bytes is one by the key for these bytes. -/
  seek : ∀ kind raw, (r.perform (.seek kind raw)).1
    = .ok (r.cache.contents.slots.recordAt? ⟨kind, .ofRaw kind raw⟩)
  /-- A key of a kind that is not excluded may exist if the filter was given up, or if some
  slot has a fingerprint with the same tag and the same pair of buckets. -/
  mayHave : ∀ kind key, config.excludedKinds.contains kind = false →
    ((r.perform (.mayHave kind key)).1 = .ok true ↔ r.cache.contents.saturated = true ∨
      ∃ slot ∈ r.cache.contents.slots.toList, Filter.alike r.cache.contents.filter.bits
        (Fingerprint.ofId ⟨kind, key⟩) (Fingerprint.ofId slot.id) = true)

namespace Sound

/-- The short-cut for excluded kinds hides nothing, and neither does the filter. -/
theorem lookup_eq (h : c.Sound config) (id : EntryId) :
    c.lookup id = c.contents.slots.recordAt? id := by
  simp only [lookup]
  split
  next hexcluded =>
    refine (Slots.recordAt?_eq_none_iff.2 fun d hd hid => ?_).symm
    have htaken := h.taken d hd
    rw [isExcluded, h.excluded] at hexcluded
    have hkind : d.slot.record.kind = id.kind := by rw [← hid]; rfl
    simp only [Config.takes, hkind, hexcluded, Bool.not_true, Bool.and_false] at htaken
    cases htaken
  next => rw [h.contents.get?_eq, h.contents.slots.recordAt?_eq]

theorem get_fst (h : c.Sound config) (id : EntryId) :
    (c.get id).1 = c.contents.slots.recordAt? id := by
  rw [← h.lookup_eq, Cache.get]
  split
  next record hl => rw [hl]
  next hl => rw [hl]

end Sound

/-- The tags of a pair of buckets are counted by the slots. -/
theorem Contents.Sound.tagsAt_eq {c : Contents} (h : c.Sound) (hsat : c.saturated = false)
    (i : Filter.Position c.filter.bits) {tag : UInt8} (htag : tag ≠ 0) :
    c.filter.tagsAt i tag = c.slots.toList.countP fun slot =>
      Filter.tagOf (Fingerprint.ofId slot.id) == tag &&
        (c.filter.home (Fingerprint.ofId slot.id) == i ||
          c.filter.home (Fingerprint.ofId slot.id) == Filter.partner i tag) := by
  have hcount := h.count hsat (Filter.pairOf i.val tag htag)
  rw [Filter.count_pairOf, Contents.load_eq_countP] at hcount
  rw [hcount, Slots.toList, List.countP_map]
  refine List.countP_congr fun d _ => ?_
  rw [Filter.has_pairOf, Function.comp_apply, Filter.home]

theorem faithful_of_sound (h : r.cache.Sound config) : Faithful config r where
  nodup := h.contents.slots.nodup_ids
  taken slot hslot := by
    obtain ⟨d, hd, rfl⟩ := List.mem_map.1 hslot
    have htaken := h.taken d hd
    simp only [Config.takes, Bool.and_eq_true, Bool.not_eq_true'] at htaken
    exact ⟨htaken.1.1, htaken.1.2, htaken.2⟩
  tags hsat i tag htag := h.contents.tagsAt_eq hsat i htag
  get kind key := congrArg Except.ok (h.get_fst ⟨kind, key⟩)
  has kind key := congrArg Except.ok (congrArg Option.isSome (h.lookup_eq ⟨kind, key⟩))
  seek kind raw := congrArg Except.ok (h.get_fst ⟨kind, .ofRaw kind raw⟩)
  mayHave kind key hkind := by
    have hnot : r.cache.isExcluded kind = false := by rw [isExcluded, h.excluded, hkind]
    have hperform : (r.perform (.mayHave kind key)).1
        = .ok (r.cache.contents.mayHave ⟨kind, key⟩) := by
      show Except.ok (r.cache.mayHave ⟨kind, key⟩) = _
      simp only [Cache.mayHave, hnot, Bool.not_false, Bool.true_and]
    rw [hperform, ← h.contents.mayHave_iff]
    exact ⟨Except.ok.inj, congrArg Except.ok⟩

/-- After any events of a cache with jobs, whatever its programs are, it answers by its slots. -/
theorem run_faithful (g : JobSystem κ) (events : List (Event κ)) :
    Faithful g.config (run g.step g.start events).running :=
  faithful_of_sound (run_sound events)

end Cache

end RecordStore
