import RecordStore.Proofs.Prefixes
import RecordStore.Proofs.Store.Neighbors

/-!
# Caches that hold everything

A cache is *complete* for records if its slots hold exactly these (`Complete`).  A cache from which
nothing is evicted stays complete for what tables in memory store that are sent the same calls, as
long as the calls bring only what the cache takes (`Running.complete_performAll`).

A complete cache has the entries of every table, in the order of their admission
(`Complete.perm_entries`).  So its reads say what those of the tables say (`agrees_performAll`): the
nearest entry is the same, and so is the set of the keys that begin with given bytes.  Only the list
of all keys may be in another order.
-/

namespace RecordStore

/-! ## Calls -/

namespace Call

/-- Whether a call reads what is stored, and answers for certain. -/
def isCertain : Call → Bool
  | get _ _ | has _ _ | seek _ _ | first _ | latest _ | next _ _ | previous _ _
  | keysStartingWith _ _ | loadAllKeys _ | count _ => true
  | _ => false

/-- Whether answers say the same.  All keys of a table may be listed in any order. -/
def Agrees : (call : Call) → call.Answer → call.Answer → Prop
  | loadAllKeys _, keys, keys' => List.Perm keys keys'
  | _, a, b => a = b

end Call

namespace Cache.Config

/-- Whether a cache takes an entry, and the key is of the form that the table uses. -/
def suits (config : Config) (e : Entry) : Bool :=
  config.takes e.2 && e.1.form == e.2.kind.keyForm

/-- Whether a call brings only suitable entries, and does no upkeep but clearing a table. -/
def follows (config : Config) : Call → Bool
  | .save record key | .update record key _ => config.suits (key, record)
  | .saveBatch entries => entries.all config.suits
  | .init | .shutdown | .clearMetadata _ => false
  | _ => true

end Cache.Config

/-! ## Nearest entries -/

namespace Store.Neighbor

variable {look : Neighbor} {es es' : List Entry} {a? b? : Option Entry}

theorem prefers_antisymm {a b : Key} (hab : look.prefers a b) (hba : look.prefers b a) : a = b := by
  simp only [prefers] at hab hba
  split at hab
  next hup => exact le_antisymm hab (by rwa [if_pos hup] at hba)
  next hup => exact le_antisymm (by rwa [if_neg hup] at hba) hab

/-- Where every key has one entry, there is one nearest entry. -/
theorem Gives.eq (ha : look.Gives es a?) (hb : look.Gives es' b?) (hmem : ∀ e, e ∈ es ↔ e ∈ es')
    (hkeys : ∀ a ∈ es, ∀ b ∈ es, a.1 = b.1 → a = b) : a? = b? := by
  cases a? with
  | none =>
      cases b? with
      | none => rfl
      | some b =>
          have hnot := ha b ((hmem b).2 hb.1)
          rw [hb.2.1] at hnot
          cases hnot
  | some a =>
      cases b? with
      | none =>
          have hnot := hb a ((hmem a).1 ha.1)
          rw [ha.2.1] at hnot
          cases hnot
      | some b =>
          have hb' : b ∈ es := (hmem b).2 hb.1
          have hab := ha.2.2 b hb' hb.2.1
          have hba := hb.2.2 a ((hmem a).1 ha.1) ha.2.1
          rw [hkeys a ha.1 b hb' (prefers_antisymm hab hba)]

end Store.Neighbor

namespace Memory

/-- Tables in memory after calls, whatever they answered. -/
def performAll (m : Memory) (calls : List Call) : Memory :=
  calls.foldl (fun m call => (m.perform call).2) m

theorem mem_entries {m : Memory} {kind : Kind} {e : Entry} :
    e ∈ (m.table kind).entries ↔ m.records ⟨kind, e.1⟩ = some e.2 :=
  Std.TreeMap.mem_toList_iff_getElem?_eq_some

theorem nodup_entries {m : Memory} {kind : Kind} : (m.table kind).entries.Nodup := by
  refine (Store.Neighbor.pairwise_entries _).imp ?_
  rintro a b hlt rfl
  exact lt_irrefl _ hlt

end Memory

namespace Cache

/-! ## Complete caches -/

/-- An open cache whose slots hold exactly some records, each under a key of the form that its
table uses. -/
structure Complete (config : Config) (t : Records) (c : Cache) : Prop where
  sound : c.Sound config
  isOpen : c.closed = false
  form : ∀ d ∈ c.contents.slots.candidates, d.slot.key.form = d.slot.kind.keyForm
  stored_iff : ∀ id record, t id = some record ↔
    ∃ d ∈ c.contents.slots.candidates, d.slot.id = id ∧ d.slot.record = record

variable {config : Config} {t : Records} {c : Cache}

theorem complete_ofConfig (config : Config) : (ofConfig config).Complete config fun _ => none where
  sound := sound_ofConfig config
  isOpen := rfl
  form d hd := by cases hd
  stored_iff id record := by
    constructor
    · intro h
      cases h
    · rintro ⟨d, hd, -⟩
      cases hd

namespace Complete

/-- What a complete cache has depends on its contents. -/
theorem congr (h : c.Complete config t) {c' : Cache} (hexcluded : c'.excluded = c.excluded)
    (hclosed : c'.closed = c.closed) (hcontents : c'.contents = c.contents) :
    c'.Complete config t where
  sound := h.sound.congr hexcluded hcontents
  isOpen := hclosed.trans h.isOpen
  form := hcontents ▸ h.form
  stored_iff := hcontents ▸ h.stored_iff

theorem offer (h : c.Complete config t) {e : Entry} (he : config.suits e = true) :
    (c.offer e.1 e.2).2.Complete config (t.put e) := by
  obtain ⟨htakes, hform⟩ := Bool.and_eq_true_iff.1 he
  have haccepts : c.accepts e.2 = true := by
    rw [accepts_eq h.sound.excluded, htakes, h.isOpen]
    rfl
  have hsound := h.sound.offer e.1 e.2
  rcases Running.offer_cases c e.1 e.2 with ⟨-, hoffer⟩ | ⟨hrefused, -⟩
  · rw [hoffer] at hsound ⊢
    have hmem : ∀ d, d ∈ (c.contents.put e.1 e.2).slots.candidates ↔ _ := fun d =>
      Contents.mem_slots_put h.sound.contents.slots
    refine ⟨hsound, h.isOpen, fun d hd => ?_, fun id record => ?_⟩
    · rcases (hmem d).1 hd with rfl | ⟨hd, -⟩
      · exact beq_iff_eq.1 hform
      · exact h.form d hd
    · by_cases hid : id = e.id
      · subst hid
        rw [Records.put, if_pos rfl]
        constructor
        · rintro ⟨⟩
          exact ⟨_, (hmem _).2 (Or.inl rfl), rfl, rfl⟩
        · rintro ⟨d, hd, hdid, rfl⟩
          rcases (hmem d).1 hd with rfl | ⟨-, hother⟩
          · rfl
          · exact absurd hdid hother
      · rw [Records.put, if_neg hid, h.stored_iff]
        constructor
        · rintro ⟨d, hd, rfl, hrecord⟩
          exact ⟨d, (hmem d).2 (Or.inr ⟨hd, hid⟩), rfl, hrecord⟩
        · rintro ⟨d, hd, rfl, hrecord⟩
          rcases (hmem d).1 hd with rfl | ⟨hd, -⟩
          · exact absurd rfl hid
          · exact ⟨d, hd, rfl, hrecord⟩
  · rw [haccepts] at hrefused
    cases hrefused

/-- A removal of slots by their addresses keeps a cache complete for what is left. -/
theorem removed (h : c.Complete config t) {c' : Cache} {t' : Records} (gone : EntryId → Prop)
    (hsound : c'.Sound config) (hclosed : c'.closed = c.closed)
    (hmem : ∀ d, d ∈ c'.contents.slots.candidates ↔
      d ∈ c.contents.slots.candidates ∧ ¬ gone d.slot.id)
    (hgone : ∀ id, gone id → t' id = none) (hleft : ∀ id, ¬ gone id → t' id = t id) :
    c'.Complete config t' where
  sound := hsound
  isOpen := hclosed.trans h.isOpen
  form d hd := h.form d ((hmem d).1 hd).1
  stored_iff id record := by
    by_cases hid : gone id
    · rw [hgone id hid]
      constructor
      · intro hrecord
        cases hrecord
      · rintro ⟨d, hd, rfl, -⟩
        exact absurd hid ((hmem d).1 hd).2
    · rw [hleft id hid, h.stored_iff]
      constructor
      · rintro ⟨d, hd, rfl, hrecord⟩
        exact ⟨d, (hmem d).2 ⟨hd, hid⟩, rfl, hrecord⟩
      · rintro ⟨d, hd, rfl, hrecord⟩
        exact ⟨d, ((hmem d).1 hd).1, rfl, hrecord⟩

theorem delete (h : c.Complete config t) (id : EntryId) :
    (c.delete id).Complete config (t.erase id) :=
  h.removed (· = id) (h.sound.delete id) rfl
    (fun _ => Contents.mem_slots_remove h.sound.contents.slots) (fun _ hid => if_pos hid)
    fun _ hid => if_neg hid

theorem foldl_delete (h : c.Complete config t) (ids : List EntryId) :
    (ids.foldl Cache.delete c).Complete config (ids.foldl Records.erase t) := by
  induction ids generalizing c t with
  | nil => exact h
  | cons id ids ih => exact ih (h.delete id)

theorem clear (h : c.Complete config t) (kind : Kind) :
    (c.clear kind).Complete config (t.drop kind) :=
  h.removed (·.kind = kind) (h.sound.clear kind) rfl
    (fun _ => Contents.mem_slots_removeKind h.sound.contents.slots) (fun _ hid => if_pos hid)
    fun _ hid => if_neg hid

theorem get (h : c.Complete config t) (id : EntryId) : (c.get id).2.Complete config t := by
  simp only [Cache.get]
  split <;> exact h.congr rfl rfl rfl

end Complete

/-! ## Calls one after the other -/

namespace Running

variable {r : Running}

/-- A cache after calls, whatever it answered. -/
def performAll (r : Running) (calls : List Call) : Running :=
  calls.foldl (fun r call => (r.serve call).2) r

theorem complete_offerAll (h : r.cache.Complete config t) {entries : List Entry}
    (hentries : entries.all config.suits = true) :
    (r.offerAll entries).2.cache.Complete config (entries.foldl Records.put t) := by
  induction entries generalizing r t with
  | nil => exact h
  | cons e entries ih =>
      rw [List.all_cons, Bool.and_eq_true] at hentries
      have hoffer := h.offer hentries.1
      rw [← (r.offer_eq e.1 e.2).2] at hoffer
      exact ih hoffer hentries.2

/-- A cache does with its slots what a call does with records. -/
theorem complete_serve (h : r.cache.Complete config t) {call : Call}
    (hcall : config.follows call = true) :
    (r.serve call).2.cache.Complete config (t.apply call) := by
  have hoffer : ∀ {key : Key} {record : Record}, config.suits (key, record) = true →
      (r.offer key record).2.cache.Complete config (t.put (key, record)) := by
    intro key record hsuits
    rw [(r.offer_eq key record).2]
    exact h.offer hsuits
  cases call with
  | save record key | update record key reason => exact hoffer hcall
  | saveBatch entries => exact complete_offerAll h hcall
  | delete kind key => exact h.delete _
  | deleteBatch ids => exact h.foldl_delete ids
  | clear kind => exact h.clear kind
  | get kind key | seek kind raw => exact h.get _
  | init | shutdown | clearMetadata => cases hcall
  | _ => exact h

/-- A cache and tables in memory that are sent the same calls hold the same. -/
theorem complete_performAll {m : Memory} (h : r.cache.Complete config m.records)
    {calls : List Call} (hcalls : ∀ call ∈ calls, config.follows call = true) :
    (r.performAll calls).cache.Complete config (m.performAll calls).records := by
  induction calls generalizing r m with
  | nil => exact h
  | cons call calls ih =>
      rw [List.forall_mem_cons] at hcalls
      have hserve := complete_serve h hcalls.1
      rw [← m.records_perform] at hserve
      exact ih hserve hcalls.2

end Running

/-! ## What a complete cache has -/

namespace Complete

variable {m : Memory} {r : Running}

theorem recordAt?_eq (h : c.Complete config t) (id : EntryId) :
    c.contents.slots.recordAt? id = t id := by
  cases hrecord : t id with
  | none =>
      refine Slots.recordAt?_eq_none_iff.2 fun d hd hid => ?_
      have hstored := (h.stored_iff id d.slot.record).2 ⟨d, hd, hid, rfl⟩
      rw [hrecord] at hstored
      cases hstored
  | some record =>
      obtain ⟨d, hd, rfl, rfl⟩ := (h.stored_iff id record).1 hrecord
      exact h.sound.contents.slots.recordAt?_of_mem hd

theorem mem_ofKind (h : c.Complete config m.records) {kind : Kind} {e : Entry} :
    e ∈ (c.contents.slots.ofKind kind).map Slot.entry ↔ e ∈ (m.table kind).entries := by
  rw [Memory.mem_entries, h.stored_iff, Slots.ofKind, Slots.toList, List.mem_map]
  constructor
  · rintro ⟨slot, hslot, rfl⟩
    obtain ⟨hslot, hkind⟩ := List.mem_filter.1 hslot
    obtain ⟨d, hd, rfl⟩ := List.mem_map.1 hslot
    refine ⟨d, hd, ?_, rfl⟩
    rw [← beq_iff_eq.1 hkind]
    rfl
  · rintro ⟨d, hd, hid, hrecord⟩
    have hkey : d.slot.key = e.1 := congrArg EntryId.key hid
    refine ⟨d.slot, List.mem_filter.2 ⟨List.mem_map.2 ⟨d, hd, rfl⟩, ?_⟩, ?_⟩
    · exact beq_iff_eq.2 (congrArg EntryId.kind hid)
    · rw [Slot.entry, hkey, hrecord]

/-- A complete cache has the entries of each table. -/
theorem perm_entries (h : c.Complete config m.records) (kind : Kind) :
    ((c.contents.slots.ofKind kind).map Slot.entry).Perm (m.table kind).entries := by
  have hnodup : ((c.contents.slots.ofKind kind).map Slot.entry).Nodup := by
    have hids := h.sound.contents.slots.nodup_ids
    have hentries : (c.contents.slots.toList.map Slot.entry).Nodup :=
      List.Nodup.of_map Entry.id (by rwa [List.map_map])
    exact hentries.sublist (List.filter_sublist.map Slot.entry)
  exact (List.perm_ext_iff_of_nodup hnodup Memory.nodup_entries).2 fun e => h.mem_ofKind

theorem perm_keys (h : c.Complete config m.records) (kind : Kind) :
    (c.keys kind).Perm (m.table kind).keys := by
  have hkeys := (h.perm_entries kind).map Prod.fst
  rwa [List.map_map] at hkeys

theorem form_of_mem (h : c.Complete config m.records) {kind : Kind} {key : Key}
    (hkey : key ∈ (m.table kind).keys) : key.form = kind.keyForm := by
  rw [← (h.perm_keys kind).mem_iff] at hkey
  obtain ⟨slot, hslot, rfl⟩ := List.mem_map.1 hkey
  obtain ⟨hslot, hkind⟩ := List.mem_filter.1 hslot
  obtain ⟨d, hd, rfl⟩ := List.mem_map.1 hslot
  rw [h.form d hd, beq_iff_eq.1 hkind]

/-- The scan of a table finds what a look at every key finds. -/
theorem keysStartingWith_eq (h : c.Complete config m.records) (kind : Kind) (start : Bytes) :
    sortedSet ((c.keys kind).filter fun k => k.startsWith start)
      = (m.table kind).scan (.ofRaw kind start) := by
  rw [Table.scan_eq_filter]
  refine sortedSet_eq ((m.table kind).pairwise_keys.filter _) fun k => ?_
  rw [List.mem_filter, List.mem_filter, (h.perm_keys kind).mem_iff]
  refine and_congr_right fun hk => ?_
  rw [Key.begins, h.form_of_mem hk]
  simp [Key.ofRaw]

theorem neighbor_eq (h : c.Complete config m.records) (look : Store.Neighbor) (kind : Kind) :
    Call.entry? (look.call kind) (c.perform (look.call kind)).1
      = Call.entry? (look.call kind) (m.perform (look.call kind)).1 := by
  refine (look.gives_cache c kind).eq (look.gives_memory m kind) (fun e => h.mem_ofKind) ?_
  intro a ha b hb hkey
  rw [h.mem_ofKind, Memory.mem_entries] at ha hb
  rw [hkey, hb] at ha
  exact Prod.ext hkey (Option.some.inj ha).symm

/-- A complete cache answers as the tables do. -/
theorem agrees (h : r.cache.Complete config m.records) {call : Call}
    (hcall : call.isCertain = true) :
    ∃ answer, (r.serve call).1 = .ok answer ∧ call.Agrees answer (m.perform call).1 := by
  have hfaithful := faithful_of_sound h.sound
  cases call with
  | get kind key => exact ⟨_, hfaithful.get kind key, h.recordAt?_eq _⟩
  | seek kind raw => exact ⟨_, hfaithful.seek kind raw, h.recordAt?_eq _⟩
  | has kind key =>
      refine ⟨_, hfaithful.has kind key, ?_⟩
      rw [h.recordAt?_eq]
      exact Std.TreeMap.contains_eq_isSome_getElem?.symm
  | first kind => exact ⟨_, rfl, h.neighbor_eq .first kind⟩
  | latest kind => exact ⟨_, rfl, h.neighbor_eq .latest kind⟩
  | next kind key => exact ⟨_, rfl, h.neighbor_eq (.next key) kind⟩
  | previous kind key => exact ⟨_, rfl, h.neighbor_eq (.previous key) kind⟩
  | keysStartingWith kind start => exact ⟨_, rfl, h.keysStartingWith_eq kind start⟩
  | loadAllKeys kind => exact ⟨_, rfl, (h.perm_keys kind).map Key.bytes⟩
  | count kind =>
      refine ⟨_, rfl, (h.perm_keys kind).length_eq.trans ?_⟩
      rw [Table.keys, List.length_map]
      exact Std.TreeMap.length_toList
  | _ => cases hcall

end Complete

/-- A cache from which nothing is evicted, and tables in memory, answer alike after the same calls.
This holds for every capacity, whether the filter was given up or not. -/
theorem agrees_performAll (config : Config) {history : List Call}
    (hhistory : ∀ call ∈ history, config.follows call = true) {call : Call}
    (hcall : call.isCertain = true) :
    ∃ answer, (((Running.ofConfig config).performAll history).serve call).1 = .ok answer ∧
      call.Agrees answer ((({} : Memory).performAll history).perform call).1 := by
  have hempty : ({} : Memory).records = fun _ => none := rfl
  have hstart : (Running.ofConfig config).cache.Complete config ({} : Memory).records :=
    hempty ▸ complete_ofConfig config
  exact (Running.complete_performAll hstart hhistory).agrees hcall

/-- Writes, replacements and removals of milestones and transactions. -/
def sampleCalls : List Call :=
  [.save (.ofBytes .transaction [1]) (.hash [1, 2]),
    .saveBatch [(.index 9, .ofBytes .milestone [1]), (.index 5, .ofBytes .milestone [2]),
      (.hash [1], .ofBytes .transaction [3])],
    .update (.ofBytes .milestone [4]) (.index 9) "solid", .delete .transaction (.hash [1, 2]),
    .save (.ofBytes .transaction [5]) (.hash [2]), .clear .stateDiff]

/-- A cache that was given more than it has room for gives the least milestone after a hash key, as
the tables do. -/
theorem agrees_performAll_beyondCapacity :
    (∀ call ∈ sampleCalls, Config.follows { byteBudget := 0 } call = true) ∧
      Call.isCertain (.next .milestone (.hash [7])) = true ∧
      (((Running.ofConfig { byteBudget := 0 }).performAll sampleCalls).serve
        (.next .milestone (.hash [7]))).1 = .ok (some (.index 5, .ofBytes .milestone [2])) := by
  have hcalls : ∀ call ∈ sampleCalls, Config.follows { byteBudget := 0 } call = true := by decide
  have hnext : Call.isCertain (.next .milestone (.hash [7])) = true := rfl
  obtain ⟨answer, hanswer, hagrees⟩ := agrees_performAll { byteBudget := 0 } hcalls hnext
  have htable : ((({} : Memory).performAll sampleCalls).perform (.next .milestone (.hash [7]))).1
      = some (.index 5, .ofBytes .milestone [2]) := by decide
  exact ⟨hcalls, hnext, hanswer.trans (congrArg Except.ok (hagrees.trans htable))⟩

end Cache

end RecordStore
