import RecordStore.Proofs.Prefixes
import RecordStore.Proofs.Store.Sequential

/-!
# Neighbours of keys

A read of a neighbour asks for the entry at an end of a table, or for the one beside a key.  A store
looks into its cache first and then into one backend after the other, and gives the nearest entry of
the first component that has any that are asked for (`SequentialStore.neighbor_of_firstComponent`).
The entries of the components after it are not compared with it, however near they are
(`SequentialStore.not_gives_of_partlyCached`).

So a walk up from the first entry need not visit every key.  It meets a key of a component if all
keys of the components before are smaller (`Meets`).  What it offers to the cache is never above the
place that it has reached, so the rest of the way stays as it was
(`SequentialStore.Grows.meets_iff`).
-/

namespace RecordStore

namespace Store

open Bench (Component StoreStep Value)

/-- Which entry of a table is asked for. -/
inductive Neighbor where
  | first
  | latest
  | next (key : Key)
  | previous (key : Key)

namespace Neighbor

def call (kind : Kind) : Neighbor → Call
  | first => .first kind
  | latest => .latest kind
  | next key => .next kind key
  | previous key => .previous kind key

def step (kind : Kind) : Neighbor → StoreStep
  | first => .first kind
  | latest => .latest kind
  | next key => .next kind key
  | previous key => .previous kind key

/-- Whether a key is among those asked for. -/
def wants : Neighbor → Key → Bool
  | first, _ | latest, _ => true
  | next key, k => key < k
  | previous key, k => k < key

/-- Whether the smallest key is asked for among them, and not the greatest. -/
def isUp : Neighbor → Bool
  | first | next _ => true
  | latest | previous _ => false

/-- Whether a key is as good as another. -/
def prefers (look : Neighbor) (a b : Key) : Prop := if look.isUp then a ≤ b else b ≤ a

instance (look : Neighbor) (a b : Key) : Decidable (look.prefers a b) :=
  inferInstanceAs (Decidable (if look.isUp then a ≤ b else b ≤ a))

/-- The nearest of entries, or none if none of them is asked for. -/
def Gives (look : Neighbor) (es : List Entry) : Option Entry → Prop
  | none => ∀ e ∈ es, look.wants e.1 = false
  | some e => e ∈ es ∧ look.wants e.1 = true ∧
      ∀ e' ∈ es, look.wants e'.1 = true → look.prefers e.1 e'.1

/-- The nearest entry in the first list that has any that are asked for. -/
def GivesFirst (look : Neighbor) : List (List Entry) → Option Entry → Prop
  | [], e? => e? = none
  | es :: rest, e? =>
      e?.isSome = true ∧ look.Gives es e? ∨ look.Gives es none ∧ look.GivesFirst rest e?

variable {look : Neighbor} {kind : Kind} {es : List Entry} {e : Entry}

theorem GivesFirst.exists_mem :
    ∀ {ess : List (List Entry)}, look.GivesFirst ess (some e) → ∃ es ∈ ess, e ∈ es
  | [], h => nomatch h
  | es :: rest, h => by
      rcases h with ⟨-, hmem, -⟩ | ⟨-, hrest⟩
      · exact ⟨es, List.mem_cons_self, hmem⟩
      · obtain ⟨es', hes', hmem⟩ := exists_mem hrest
        exact ⟨es', List.mem_cons_of_mem _ hes', hmem⟩

/-! ## Answers of tables -/

/-- Whatever is before the first key that is asked for is not asked for. -/
theorem gives_find? (look : Neighbor) (hsorted : es.Pairwise (·.1 < ·.1))
    (hup : look.isUp = true) :
    look.Gives es (es.find? fun e => look.wants e.1) := by
  cases hfind : es.find? fun e => look.wants e.1 with
  | none =>
      intro e he
      simpa using List.find?_eq_none.1 hfind e he
  | some e =>
      obtain ⟨hwants, before, after, rfl, hbefore⟩ := List.find?_eq_some_iff_append.1 hfind
      refine ⟨by simp, hwants, fun e' he' hwants' => ?_⟩
      rw [prefers, if_pos hup]
      rcases List.mem_append.1 he' with he' | he'
      · have hnot := hbefore e' he'
        rw [hwants'] at hnot
        cases hnot
      · rcases List.mem_cons.1 he' with rfl | he'
        · exact le_refl _
        · have htail := (List.pairwise_append.1 hsorted).2.1
          exact (List.rel_of_pairwise_cons htail he').le

/-- When the greatest key is asked for, nothing above one that is not asked for is. -/
theorem wants_eq_false {a b : Key} (hup : look.isUp = false) (hlt : a < b)
    (ha : look.wants a = false) : look.wants b = false := by
  cases look with
  | first | next => cases hup
  | latest => cases ha
  | previous key =>
      simp only [wants, decide_eq_false_iff_not, not_lt] at ha ⊢
      exact ha.trans hlt.le

/-- When the smallest key is asked for, whatever is above one that is asked for is too. -/
theorem wants_of_lt {a b : Key} (hup : look.isUp = true) (hlt : a < b) (ha : look.wants a = true) :
    look.wants b = true := by
  cases look with
  | first => rfl
  | latest | previous => cases hup
  | next key => exact decide_eq_true ((of_decide_eq_true ha).trans hlt)

theorem lt_of_not_wants {a b : Key} (hup : look.isUp = true) (ha : look.wants a = false)
    (hb : look.wants b = true) : a < b := by
  rw [← not_le]
  intro hle
  rcases hle.eq_or_lt with rfl | hlt
  · rw [ha] at hb
    cases hb
  · rw [wants_of_lt hup hlt hb] at ha
    cases ha

/-- Keys that are asked for come first, when the greatest is. -/
theorem takeWhile_eq_filter (hsorted : es.Pairwise (·.1 < ·.1)) (hup : look.isUp = false) :
    es.takeWhile (fun e => look.wants e.1) = es.filter fun e => look.wants e.1 := by
  refine RecordStore.takeWhile_eq_filter (hsorted.imp fun hlt hwants => ?_)
  by_contra hnone
  rw [wants_eq_false hup hlt (Bool.eq_false_of_not_eq_true hnone)] at hwants
  cases hwants

theorem gives_getLast? (look : Neighbor) (hsorted : es.Pairwise (·.1 < ·.1))
    (hup : look.isUp = false) :
    look.Gives es (es.takeWhile fun e => look.wants e.1).getLast? := by
  rw [takeWhile_eq_filter hsorted hup]
  cases hlast : (es.filter fun e => look.wants e.1).getLast? with
  | none =>
      intro e he
      rw [List.getLast?_eq_none_iff, List.filter_eq_nil_iff] at hlast
      simpa using hlast e he
  | some e =>
      have hmem := List.mem_filter.1 (List.mem_of_getLast? hlast)
      refine ⟨hmem.1, hmem.2, fun e' he' hwants' => ?_⟩
      rw [prefers, hup, if_neg Bool.false_ne_true]
      obtain ⟨before, hfilter⟩ := List.getLast?_eq_some_iff.1 hlast
      have hsorted' := hsorted.filter fun e => look.wants e.1
      have he' : e' ∈ es.filter fun e => look.wants e.1 := List.mem_filter.2 ⟨he', hwants'⟩
      rw [hfilter] at hsorted' he'
      rcases List.mem_append.1 he' with he' | he'
      · exact ((List.pairwise_append.1 hsorted').2.2 e' he' e (by simp)).le
      · rw [List.mem_singleton.1 he']

theorem pairwise_entries (t : Table) : t.entries.Pairwise (·.1 < ·.1) :=
  Std.TreeMap.ordered_keys_toList

/-- Tables in memory give the nearest entry. -/
theorem gives_memory (m : Memory) (look : Neighbor) (kind : Kind) :
    look.Gives (m.table kind).entries
      (Call.entry? (look.call kind) (m.perform (look.call kind)).1) := by
  have hsorted := pairwise_entries (m.table kind)
  cases look with
  | first =>
      have hgives := gives_find? first hsorted rfl
      have hhead : (m.table kind).entries.find? (fun e => first.wants e.1)
          = (m.table kind).entries.head? := by
        cases (m.table kind).entries <;> rfl
      rw [hhead] at hgives
      exact hgives
  | latest =>
      have hgives := gives_getLast? latest hsorted rfl
      have hall : (m.table kind).entries.filter (fun e => latest.wants e.1)
          = (m.table kind).entries := List.filter_eq_self.2 fun _ _ => rfl
      rw [takeWhile_eq_filter hsorted rfl, hall] at hgives
      exact hgives
  | next key => exact gives_find? (next key) hsorted rfl
  | previous key => exact gives_getLast? (previous key) hsorted rfl

/-- A choice among entries is not worse than any of them. -/
theorem prefers_foldl_better {prefer : Key → Key → Bool}
    (hprefer : ∀ a b, prefer a b = false ↔ look.prefers b a) (e : Entry) (rest : List Entry) :
    ∀ x ∈ e :: rest, look.prefers (rest.foldl (Cache.better prefer) e).1 x.1 := by
  have htrans : ∀ {a b c : Key}, look.prefers a b → look.prefers b c → look.prefers a c := by
    intro a b c
    simp only [prefers]
    split
    · exact le_trans
    · exact fun hab hbc => le_trans hbc hab
  have hrefl : ∀ a, look.prefers a a := by
    intro a
    simp only [prefers, le_refl, ite_self]
  have htotal : ∀ a b, look.prefers a b ∨ look.prefers b a := by
    intro a b
    simp only [prefers]
    split
    · exact le_total a b
    · exact le_total b a
  induction rest generalizing e with
  | nil =>
      intro x hx
      rw [List.mem_singleton.1 hx]
      exact hrefl e.1
  | cons d rest ih =>
      intro x hx
      rw [List.foldl_cons]
      have hkept := ih (Cache.better prefer e d) _ List.mem_cons_self
      -- the better of the two is as good as both
      have hboth : look.prefers (Cache.better prefer e d).1 e.1 ∧
          look.prefers (Cache.better prefer e d).1 d.1 := by
        rw [Cache.better]
        cases hp : prefer d.1 e.1 with
        | false => exact ⟨hrefl _, (hprefer _ _).1 hp⟩
        | true =>
            have hnot : ¬ look.prefers e.1 d.1 := by
              rw [← hprefer, hp]
              exact Bool.noConfusion
            exact ⟨(htotal _ _).resolve_left hnot, hrefl _⟩
      rcases List.mem_cons.1 hx with rfl | hx
      · exact htrans hkept hboth.1
      · rcases List.mem_cons.1 hx with rfl | hx
        · exact htrans hkept hboth.2
        · exact ih _ _ (List.mem_cons_of_mem _ hx)

/-- What a cache picks is the nearest of its entries. -/
theorem gives_pick (c : Cache) (look : Neighbor) (kind : Kind) {prefer : Key → Key → Bool}
    (hprefer : ∀ a b, prefer a b = false ↔ look.prefers b a) :
    look.Gives ((c.contents.slots.ofKind kind).map Cache.Slot.entry)
      (c.pick kind look.wants prefer) := by
  have hfilter : ∀ e, e ∈ ((c.contents.slots.ofKind kind).map Cache.Slot.entry).filter
      (fun e => look.wants e.1) ↔ _ := fun e => List.mem_filter
  rw [Cache.pick]
  cases hlist : ((c.contents.slots.ofKind kind).map Cache.Slot.entry).filter
      (fun e => look.wants e.1) with
  | nil =>
      intro e he
      rw [List.filter_eq_nil_iff] at hlist
      simpa using hlist e he
  | cons d rest =>
      rw [hlist] at hfilter
      have hmem := (hfilter _).1 (Cache.foldl_better_mem prefer d rest)
      exact ⟨hmem.1, hmem.2, fun e he hwants =>
        prefers_foldl_better hprefer d rest e ((hfilter e).2 ⟨he, hwants⟩)⟩

/-- Caches give the nearest entry. -/
theorem gives_cache (c : Cache) (look : Neighbor) (kind : Kind) :
    look.Gives ((c.contents.slots.ofKind kind).map Cache.Slot.entry)
      (Call.entry? (look.call kind) (c.perform (look.call kind)).1) := by
  have hup : ∀ a b : Key, decide (a < b) = false ↔ b ≤ a := fun a b => by
    rw [decide_eq_false_iff_not, not_lt]
  have hdown : ∀ a b : Key, decide (b < a) = false ↔ a ≤ b := fun a b => hup b a
  cases look with
  | first => exact gives_pick c first kind hup
  | latest => exact gives_pick c latest kind hdown
  | next key => exact gives_pick c (next key) kind hup
  | previous key => exact gives_pick c (previous key) kind hdown

end Neighbor

/-! ## Components -/

variable {look : Neighbor} {kind : Kind} {e : Entry}

theorem perform_neighbor (c : Component) (look : Neighbor) (kind : Kind) :
    ∃ answer, (c.perform (look.call kind)).1 = .ok answer ∧
      look.Gives (c.entries kind) (Call.entry? (look.call kind) answer) ∧
      ∀ k, (c.perform (look.call kind)).2.entries k = c.entries k := by
  cases c with
  | memory m =>
      refine ⟨_, rfl, look.gives_memory m kind, fun k => ?_⟩
      cases look <;> rfl
  | null => cases look <;> exact ⟨none, rfl, nofun, fun k => rfl⟩
  | cache r backend =>
      have hgives := look.gives_cache r.cache kind
      cases look <;> exact ⟨_, rfl, hgives, fun k => rfl⟩

namespace SequentialStore

/-- The entries of a kind in the cache, if there is one. -/
def cached (s : SequentialStore) (kind : Kind) : List Entry :=
  match s.cache with
  | some r => (r.cache.contents.slots.ofKind kind).map Cache.Slot.entry
  | none => []

/-- The entries of a kind in the cache and in every backend, in the order of the search. -/
def held (s : SequentialStore) (kind : Kind) : List (List Entry) :=
  s.cached kind :: s.backends.map (Component.entries kind)

/-- An open store with given components and entries of a kind. -/
structure Holds (l : Layout) (kind : Kind) (es : List Entry) (ess : List (List Entry))
    (s : SequentialStore) : Prop where
  isOpen : s.isOpen = true
  sound : s.Sound
  cache : l.cache.isSome = s.cache.isSome
  length : l.backends.length = ess.length
  cached : s.cached kind = es
  backends : s.backends.map (Component.entries kind) = ess

variable {l : Layout} {es : List Entry} {ess : List (List Entry)} {s : SequentialStore}

/-- What is found in a backend is of the kind that is asked for. -/
theorem Holds.kind_eq (h : Holds l kind es ess s) (hfirst : look.GivesFirst ess (some e)) :
    e.2.kind = kind := by
  obtain ⟨found, hfound, he⟩ := hfirst.exists_mem
  rw [← h.backends] at hfound
  obtain ⟨c, hc, rfl⟩ := List.mem_map.1 hfound
  exact Component.kind_of_mem (h.sound.tabled c hc) he

/-- A look at a backend changes nothing that is held. -/
theorem Holds.ensures_backend (look : Neighbor) {i : Nat} {found : List Entry}
    (hfound : ess[i]? = some found) :
    Ensures (Holds l kind es ess) (Store.ask (.backend i (look.call kind))) fun outcome s =>
      ∃ answer, outcome = .ok answer ∧ look.Gives found (Call.entry? (look.call kind) answer) ∧
        Holds l kind es ess s := by
  intro s h
  rw [← h.backends, List.getElem?_map, Option.map_eq_some_iff] at hfound
  obtain ⟨c, hc, rfl⟩ := hfound
  obtain ⟨answer, hanswer, hgives, hentries⟩ := perform_neighbor c look kind
  have hsound := sound_reply h.sound (.backend i (look.call kind))
  simp only [reply, hc] at hsound
  simp only [Store.ask, Program.run, reply, hc]
  refine ⟨answer, hanswer, hgives, h.isOpen, hsound, h.cache, h.length, h.cached, ?_⟩
  obtain ⟨hi, rfl⟩ := List.getElem?_eq_some_iff.1 hc
  rw [List.map_set, hentries, ← List.map_set, List.set_getElem_self, h.backends]

/-- A look at the cache changes nothing that is held. -/
theorem Holds.ensures_askCache (look : Neighbor) :
    Ensures (Holds l kind es ess) (askCache l (look.call kind)) fun answer s =>
      look.Gives es (Call.entry? (look.call kind) answer) ∧ Holds l kind es ess s := by
  refine .askCache (fun s h => h.cache) (fun s h hnone => ?_) fun s r h hr => ?_
  · have hempty : es = [] := by rw [← h.cached, SequentialStore.cached, hnone]
    cases look <;> exact hempty ▸ nofun
  · have hcached := h.cached
    rw [SequentialStore.cached, hr] at hcached
    have hgives := look.gives_cache r.cache kind
    have hentries : (r.cache.contents.slots.ofKind kind).map Cache.Slot.entry = es := hcached
    rw [hentries] at hgives
    have hsound := sound_reply h.sound (.cache (look.call kind))
    simp only [reply, hr] at hsound
    have hsome : l.cache.isSome = true := by
      rw [h.cache, hr]
      rfl
    cases look <;> exact ⟨_, rfl, hgives, h.isOpen, hsound, hsome, h.length, hentries, h.backends⟩

/-- Backends are asked up to the first that has an entry that is asked for. -/
theorem Holds.ensures_searchBackends (look : Neighbor) (n i : Nat) (hn : i + n = ess.length) :
    Ensures (Holds l kind es ess)
      (searchBackends (look.call kind) (Call.entry? (look.call kind)) (List.range' i n)) fun r s =>
        (∃ e?, r = .ok e? ∧ look.GivesFirst (ess.drop i) e?) ∧ Holds l kind es ess s := by
  induction n generalizing i with
  | zero =>
      have hdrop : ess.drop i = [] := List.drop_eq_nil_of_le (Nat.le_of_eq hn.symm)
      rw [hdrop]
      exact .done fun s h => ⟨⟨none, rfl, rfl⟩, h⟩
  | succ n ih =>
      have hi : i < ess.length := by omega
      rw [List.range'_succ, List.drop_eq_getElem_cons hi]
      refine (Holds.ensures_backend look (List.getElem?_eq_getElem hi)).bind fun outcome => ?_
      rintro s ⟨answer, rfl, hgives, h⟩
      dsimp only
      cases hanswer : Call.entry? (look.call kind) answer with
      | some e => exact ⟨⟨some e, rfl, Or.inl ⟨rfl, hanswer ▸ hgives⟩⟩, h⟩
      | none =>
          obtain ⟨⟨e?, hr, hfirst⟩, hafter⟩ := ih (i + 1) (by omega) s h
          exact ⟨⟨e?, hr, Or.inr ⟨hanswer ▸ hgives, hfirst⟩⟩, hafter⟩

/-- What the backends have of what is asked for, and that it is of the kind that is asked for. -/
theorem Holds.ensures_searchIndices (look : Neighbor) :
    Ensures (Holds l kind es ess)
      (searchBackends (look.call kind) (Call.entry? (look.call kind)) l.indices) fun r s =>
        (∃ e?, r = .ok e? ∧ look.GivesFirst ess e? ∧ ∀ e, e? = some e → e.2.kind = kind) ∧
          Holds l kind es ess s := by
  intro s h
  have hindices : l.indices = List.range' 0 ess.length := by
    rw [Layout.indices, h.length, List.range_eq_range']
  obtain ⟨⟨e?, hr, hfirst⟩, hafter⟩ :=
    Holds.ensures_searchBackends look ess.length 0 (Nat.zero_add _) s h
  rw [hindices]
  refine ⟨⟨e?, hr, hfirst, ?_⟩, hafter⟩
  rintro e rfl
  exact h.kind_eq hfirst

/-! ## Entries that are admitted -/

theorem mem_cached {r : Cache.Running} (hr : s.cache = some r) : e ∈ s.cached kind ↔
    ∃ d ∈ r.cache.contents.slots.candidates, d.slot.entry = e ∧ d.slot.id.kind = kind := by
  simp only [cached, hr, Cache.Slots.ofKind, Cache.Slots.toList, List.mem_map, List.mem_filter,
    beq_iff_eq]
  constructor
  · rintro ⟨_, ⟨⟨d, hd, rfl⟩, hkind⟩, rfl⟩
    exact ⟨d, hd, rfl, hkind⟩
  · rintro ⟨d, hd, rfl, hkind⟩
    exact ⟨d.slot, ⟨⟨d, hd, rfl⟩, hkind⟩, rfl⟩

/-- Entries with the same keys as others, and perhaps one more. -/
structure Grows (key : Key) (es es' : List Entry) : Prop where
  keeps : ∀ e ∈ es, ∃ e' ∈ es', e'.1 = e.1
  adds : ∀ e' ∈ es', e'.1 = key ∨ ∃ e ∈ es, e.1 = e'.1

theorem Grows.refl (key : Key) (es : List Entry) : Grows key es es where
  keeps e he := ⟨e, he, rfl⟩
  adds e he := Or.inr ⟨e, he, rfl⟩

/-- An entry that is offered to the cache adds its key at most. -/
theorem grows_offer {r : Cache.Running} (hr : s.cache = some r) (hsound : r.cache.contents.Sound)
    (he : e.2.kind = kind) : Grows e.1 (s.cached kind)
      (SequentialStore.cached { s with cache := some (r.offer e.1 e.2).2 } kind) := by
  have hid : e.2.idAt e.1 = ⟨kind, e.1⟩ := by rw [Record.idAt, he]
  have hcache := (r.offer_eq e.1 e.2).2
  rcases Cache.Running.offer_cases r.cache e.1 e.2 with ⟨-, hoffer⟩ | ⟨-, hoffer⟩
  · have hcontents : (r.offer e.1 e.2).2.cache.contents = r.cache.contents.put e.1 e.2 := by
      rw [hcache, hoffer]
    have hmem : ∀ d, d ∈ (r.offer e.1 e.2).2.cache.contents.slots.candidates ↔ _ := fun d =>
      hcontents ▸ Cache.Contents.mem_slots_put hsound.slots
    refine ⟨fun x hx => ?_, fun x hx => ?_⟩
    · obtain ⟨d, hd, rfl, hkind⟩ := (mem_cached hr).1 hx
      by_cases hsame : d.slot.id = e.2.idAt e.1
      · refine ⟨e, (mem_cached rfl).2 ⟨_, (hmem _).2 (Or.inl rfl), rfl, ?_⟩, ?_⟩
        · rw [Cache.Slots.id_admitted, hid]
        · exact (congrArg EntryId.key (hsame.trans hid)).symm
      · have hkept := (hmem d).2 (Or.inr ⟨hd, hsame⟩)
        exact ⟨d.slot.entry, (mem_cached rfl).2 ⟨d, hkept, rfl, hkind⟩, rfl⟩
    · obtain ⟨d, hd, rfl, hkind⟩ := (mem_cached rfl).1 hx
      rcases (hmem d).1 hd with rfl | ⟨hold, -⟩
      · exact Or.inl rfl
      · exact Or.inr ⟨d.slot.entry, (mem_cached hr).2 ⟨d, hold, rfl, hkind⟩, rfl⟩
  · have hcontents : (r.offer e.1 e.2).2.cache.contents = r.cache.contents := by rw [hcache, hoffer]
    have hcached : SequentialStore.cached { s with cache := some (r.offer e.1 e.2).2 } kind
        = s.cached kind := by
      simp only [cached, hcontents, hr]
    rw [hcached]
    exact .refl _ _

theorem Holds.ensures_readThrough (he : e.2.kind = kind) :
    Ensures (Holds l kind es ess) (readThrough l e) fun _ s =>
      ∃ es', Grows e.1 es es' ∧ Holds l kind es' ess s := by
  refine .readThrough (fun s h => h.cache) (fun s h _ => ⟨es, .refl _ es, h⟩) fun s r h hr => ?_
  obtain ⟨config, hr'⟩ := h.sound.cache r hr
  have hgrows := grows_offer hr hr'.contents he
  rw [h.cached] at hgrows
  have hsound := sound_reply h.sound (.offer e.1 e.2)
  simp only [reply, hr] at hsound
  have hsome : l.cache.isSome = true := by
    rw [h.cache, hr]
    rfl
  exact ⟨_, hgrows, h.isOpen, hsound, hsome, h.length, rfl, h.backends⟩

/-! ## Reads -/

/-- The nearest entry is found in the first component that has any that are asked for.  The cache
has its key afterwards at most in addition. -/
theorem Holds.ensures_search (look : Neighbor) :
    Ensures (Holds l kind es ess)
      (search l (look.call kind) (Call.entry? (look.call kind)) some) fun r s =>
        ∃ e?, r = .ok e? ∧ look.GivesFirst (es :: ess) e? ∧
          ∃ es', (es' = es ∨ ∃ e, e? = some e ∧ Grows e.1 es es') ∧ Holds l kind es' ess s := by
  refine .opened (fun s h => h.isOpen) ?_
  refine (Holds.ensures_askCache look).bind fun answer => ?_
  cases hanswer : Call.entry? (look.call kind) answer with
  | some e => exact .done fun s h => ⟨some e, rfl, Or.inl ⟨rfl, h.1⟩, es, Or.inl rfl, h.2⟩
  | none =>
      refine .given fun hgives => ?_
      refine (Holds.ensures_searchIndices look).bind fun r => .given ?_
      rintro ⟨e?, rfl, hfirst, hkind⟩
      cases e? with
      | none => exact .done fun s h => ⟨none, rfl, Or.inr ⟨hgives, hfirst⟩, es, Or.inl rfl, h⟩
      | some e =>
          refine (Holds.ensures_readThrough (hkind e rfl)).bind fun _ => .done fun s h => ?_
          obtain ⟨es', hgrows, h⟩ := h
          exact ⟨some e, rfl, Or.inr ⟨hgives, hfirst⟩, es', Or.inr ⟨e, rfl, hgrows⟩, h⟩

theorem holds_layout (hopen : s.isOpen = true) (hsound : s.Sound) (kind : Kind) :
    Holds s.layout kind (s.cached kind) (s.backends.map (Component.entries kind)) s where
  isOpen := hopen
  sound := hsound
  cache := by rw [layout, Option.isSome_map]
  length := by rw [layout, List.length_map, List.length_map]
  cached := rfl
  backends := rfl

/-- What a read of a neighbour gives, and what it leaves. -/
theorem operate_neighbor (hopen : s.isOpen = true) (hsound : s.Sound) (look : Neighbor)
    (kind : Kind) : ∃ e?, (s.operate (look.step kind)).1 = .entry e? ∧
      look.GivesFirst (s.held kind) e? ∧ (s.operate (look.step kind)).2.isOpen = true ∧ ∃ es,
        (s.operate (look.step kind)).2.held kind = es :: s.backends.map (Component.entries kind) ∧
        (es = s.cached kind ∨ ∃ e, e? = some e ∧ Grows e.1 (s.cached kind) es) := by
  have hstep : (look.step kind).operation s.layout
      = (search s.layout (look.call kind) (Call.entry? (look.call kind)) some).bind fun r =>
        .done (.ofResult .entry r) := by
    cases look <;> rfl
  obtain ⟨e?, hr, hfirst, es, hes, h⟩ :=
    Holds.ensures_search look s (holds_layout hopen hsound kind)
  have hrun : s.operate (look.step kind) = (.entry e?,
      ((search s.layout (look.call kind) (Call.entry? (look.call kind)) some).run reply s).2) := by
    rw [operate, hstep, Program.run_bind, hr]
    rfl
  rw [hrun]
  refine ⟨e?, rfl, hfirst, h.isOpen, es, ?_, hes⟩
  rw [held, h.cached, h.backends]

end SequentialStore

/-! ## Walks -/

/-- Whether a walk up meets a key: in some list, where every list before has smaller keys only. -/
def Meets : List (List Entry) → Key → Prop
  | [], _ => False
  | es :: rest, key => (∃ e ∈ es, e.1 = key) ∨ (∀ e ∈ es, e.1 < key) ∧ Meets rest key

theorem Meets.exists_mem {key : Key} :
    ∀ {ess : List (List Entry)}, Meets ess key → ∃ e ∈ ess.flatten, e.1 = key
  | [], h => nomatch h
  | es :: rest, h => by
      rcases h with ⟨e, he, rfl⟩ | ⟨-, hrest⟩
      · exact ⟨e, List.mem_append_left _ he, rfl⟩
      · obtain ⟨e, he, rfl⟩ := exists_mem hrest
        exact ⟨e, List.mem_append_right _ he, rfl⟩

/-- A key that is added to the first list is of no matter above it. -/
theorem SequentialStore.Grows.meets_iff {key k : Key} {es es' : List Entry}
    {rest : List (List Entry)}
    (h : Grows key es es') (hk : key < k) : Meets (es' :: rest) k ↔ Meets (es :: rest) k := by
  have hmem : (∃ e ∈ es', e.1 = k) ↔ ∃ e ∈ es, e.1 = k := by
    constructor
    · rintro ⟨e, he, rfl⟩
      exact (h.adds e he).resolve_left hk.ne'
    · rintro ⟨e, he, rfl⟩
      exact h.keeps e he
  have hbelow : (∀ e ∈ es', e.1 < k) ↔ ∀ e ∈ es, e.1 < k := by
    constructor
    · intro hall e he
      obtain ⟨e', he', heq⟩ := h.keeps e he
      exact heq ▸ hall e' he'
    · intro hall e he
      rcases h.adds e he with heq | ⟨e', he', heq⟩
      · exact heq ▸ hk
      · exact heq ▸ hall e' he'
  rw [Meets, Meets, hmem, hbelow]

namespace Neighbor.GivesFirst

theorem not_meets : ∀ {ess : List (List Entry)}, look.GivesFirst ess none →
    ∀ k, look.wants k = true → ¬ Meets ess k
  | [], _, _, _ => id
  | es :: rest, h, k, hk => by
      obtain ⟨hsome, -⟩ | ⟨hnone, hrest⟩ := h
      · cases hsome
      · rintro (⟨e, he, rfl⟩ | ⟨-, hmeets⟩)
        · rw [hnone e he] at hk
          cases hk
        · exact not_meets hrest k hk hmeets

/-- On the way up whatever is given is met next. -/
theorem meets (hup : look.isUp = true) : ∀ {ess : List (List Entry)}, look.GivesFirst ess (some e) →
    look.wants e.1 = true ∧ Meets ess e.1 ∧ ∀ k, look.wants k = true → Meets ess k → e.1 ≤ k
  | [], h => nomatch h
  | es :: rest, h => by
      rcases h with ⟨-, hmem, hwants, hnearest⟩ | ⟨hnone, hrest⟩
      · refine ⟨hwants, Or.inl ⟨e, hmem, rfl⟩, ?_⟩
        rintro k hk (⟨e', he', rfl⟩ | ⟨hbelow, -⟩)
        · have hprefers := hnearest e' he' hk
          rwa [prefers, if_pos hup] at hprefers
        · exact (hbelow e hmem).le
      · obtain ⟨hwants, hmeets, hleast⟩ := meets hup hrest
        refine ⟨hwants, Or.inr ⟨fun e' he' => ?_, hmeets⟩, ?_⟩
        · exact lt_of_not_wants hup (hnone e' he') hwants
        · rintro k hk (⟨e', he', rfl⟩ | ⟨-, hk'⟩)
          · rw [hnone e' he'] at hk
            cases hk
          · exact hleast k hk hk'

end Neighbor.GivesFirst

namespace SequentialStore

/-- The entries that are read one after the other up to a number, from a first read on. -/
def walk (kind : Kind) : Nat → Neighbor → SequentialStore → List Entry
  | 0, _, _ => []
  | n + 1, look, s =>
      match (s.operate (look.step kind)).1 with
      | .entry (some e) => e :: walk kind n (.next e.1) (s.operate (look.step kind)).2
      | _ => []

variable {s : SequentialStore}

/-- A walk up visits the keys that it meets, in increasing order. -/
theorem walk_visits (hopen : s.isOpen = true) (hsound : s.Sound) (look : Neighbor)
    (hup : look.isUp = true) (kind : Kind) (n : Nat) :
    (s.walk kind n look).Pairwise (·.1 < ·.1) ∧
      (∀ e ∈ s.walk kind n look, look.wants e.1 = true ∧ Meets (s.held kind) e.1) ∧
      ((s.walk kind n look).length < n → ∀ k, look.wants k = true → Meets (s.held kind) k →
        ∃ e ∈ s.walk kind n look, e.1 = k) := by
  induction n generalizing look s with
  | zero => exact ⟨.nil, nofun, nofun⟩
  | succ n ih =>
      obtain ⟨e?, hvalue, hfirst, hopen', es, hes, hgrows⟩ :=
        operate_neighbor hopen hsound look kind
      rw [walk, hvalue]
      cases e? with
      | none => exact ⟨.nil, nofun, fun _ k hk hmeets => absurd hmeets (hfirst.not_meets k hk)⟩
      | some e =>
          obtain ⟨hwants, hmeets, hleast⟩ := hfirst.meets hup
          obtain ⟨hsorted, hvisited, hall⟩ :=
            ih hopen' (sound_operate hsound _) (.next e.1) rfl
          -- above the entry nothing has changed
          have hsame : ∀ k, e.1 < k → (Meets ((s.operate (look.step kind)).2.held kind) k ↔
              Meets (s.held kind) k) := by
            intro k hk
            rw [hes, held]
            rcases hgrows with rfl | ⟨_, ⟨⟩, hgrows⟩
            · rfl
            · exact hgrows.meets_iff hk
          have hnext : ∀ k, (Neighbor.next e.1).wants k = true ↔ e.1 < k :=
            fun k => decide_eq_true_iff
          refine ⟨List.pairwise_cons.2 ⟨fun e' he' => ?_, hsorted⟩, fun e' he' => ?_, ?_⟩
          · exact (hnext _).1 (hvisited e' he').1
          · rcases List.mem_cons.1 he' with rfl | he'
            · exact ⟨hwants, hmeets⟩
            · obtain ⟨habove, hmeets'⟩ := hvisited e' he'
              rw [hnext] at habove
              exact ⟨Neighbor.wants_of_lt hup habove hwants, (hsame _ habove).1 hmeets'⟩
          · intro hlength k hk hk'
            rcases (hleast k hk hk').eq_or_lt with rfl | hlt
            · exact ⟨e, List.mem_cons_self, rfl⟩
            · obtain ⟨e', he', rfl⟩ := hall (Nat.lt_of_succ_lt_succ hlength) k ((hnext k).2 hlt)
                ((hsame k hlt).2 hk')
              exact ⟨e', List.mem_cons_of_mem _ he', rfl⟩

/-- A walk is no longer than there are entries. -/
theorem length_walk_le (hopen : s.isOpen = true) (hsound : s.Sound) (look : Neighbor)
    (hup : look.isUp = true) (kind : Kind) (n : Nat) :
    (s.walk kind n look).length ≤ (s.held kind).flatten.length := by
  obtain ⟨hsorted, hvisited, -⟩ := walk_visits hopen hsound look hup kind n
  have hnodup : ((s.walk kind n look).map Prod.fst).Nodup :=
    List.pairwise_map.2 (hsorted.imp fun h => h.ne)
  have hsub : (s.walk kind n look).map Prod.fst ⊆ (s.held kind).flatten.map Prod.fst := by
    intro k hk
    obtain ⟨e, he, rfl⟩ := List.mem_map.1 hk
    obtain ⟨e', he', heq⟩ := (hvisited e he).2.exists_mem
    exact List.mem_map.2 ⟨e', he', heq⟩
  have hle := (hnodup.subperm hsub).length_le
  rwa [List.length_map, List.length_map] at hle

/-- Reads of neighbours answer with the nearest entry of the first component that has any, and a
walk from the first entry visits in increasing order exactly the keys that it meets. -/
theorem neighbor_of_firstComponent (hopen : s.isOpen = true) (hsound : s.Sound) (kind : Kind) :
    (∀ look : Neighbor, ∃ e?, (s.operate (look.step kind)).1 = .entry e? ∧
        look.GivesFirst (s.held kind) e?) ∧
      ∀ n, (s.held kind).flatten.length < n →
        (s.walk kind n .first).Pairwise (·.1 < ·.1) ∧
          ∀ k, (∃ e ∈ s.walk kind n .first, e.1 = k) ↔ Meets (s.held kind) k := by
  refine ⟨fun look => ?_, fun n hn => ?_⟩
  · obtain ⟨e?, hvalue, hfirst, -⟩ := operate_neighbor hopen hsound look kind
    exact ⟨e?, hvalue, hfirst⟩
  · obtain ⟨hsorted, hvisited, hall⟩ := walk_visits hopen hsound .first rfl kind n
    refine ⟨hsorted, fun k => ⟨?_, fun hmeets => ?_⟩⟩
    · rintro ⟨e, he, rfl⟩
      exact (hvisited e he).2
    · have hlength := length_walk_le hopen hsound .first rfl kind n
      exact hall (hlength.trans_lt hn) k rfl hmeets

/-- A milestone. -/
def milestone (index : UInt32) : Entry := (.index index, .ofBytes .milestone [1])

/-- Three milestones in memory. -/
def milestones : Component :=
  (Component.perform (.saveBatch [milestone 10, milestone 20, milestone 30]) (.memory {})).2

theorem tabled_milestones : milestones.Tabled :=
  Component.tabled_perform (c := .memory {}) nofun _

/-- Milestones in memory behind a cache, which has the last of them from a load. -/
def partlyCached : SequentialStore :=
  (operate { cache := some (.ofConfig { byteBudget := 0 }), backends := [milestones] }
    (.load .milestone (.index 30))).2

theorem sound_partlyCached : partlyCached.Sound :=
  sound_operate (sound_ofConfig _ fun _ hc => List.mem_singleton.1 hc ▸ tabled_milestones) _

theorem neighbor_of_firstComponent_partlyCached :
    partlyCached.isOpen = true ∧ partlyCached.Sound ∧
      (∀ look : Neighbor, ∃ e?, (partlyCached.operate (look.step .milestone)).1 = .entry e? ∧
        look.GivesFirst (partlyCached.held .milestone) e?) ∧
      ((partlyCached.held .milestone).flatten.length < 5 ∧
        ∀ k, (∃ e ∈ partlyCached.walk .milestone 5 .first, e.1 = k) ↔
          Meets (partlyCached.held .milestone) k) := by
  have hopen : partlyCached.isOpen = true := by decide +kernel
  have hlength : (partlyCached.held .milestone).flatten.length < 5 := by decide +kernel
  obtain ⟨hgives, hwalk⟩ := neighbor_of_firstComponent hopen sound_partlyCached .milestone
  exact ⟨hopen, sound_partlyCached, hgives, hlength, (hwalk 5 hlength).2⟩

/-- Entries of other components are passed over.  With the last milestone in the cache, a read of
what comes after the first one gives the last, and a walk visits nothing else. -/
theorem not_gives_of_partlyCached :
    partlyCached.isOpen = true ∧ partlyCached.Sound ∧
      (partlyCached.held .milestone).flatten
        = [milestone 30, milestone 10, milestone 20, milestone 30] ∧
      (partlyCached.operate (.next .milestone (.index 10))).1 = .entry (some (milestone 30)) ∧
      ¬ (Neighbor.next (.index 10)).Gives (partlyCached.held .milestone).flatten
        (some (milestone 30)) ∧
      partlyCached.walk .milestone 5 .first = [milestone 30] := by
  have hheld : (partlyCached.held .milestone).flatten
      = [milestone 30, milestone 10, milestone 20, milestone 30] := by decide +kernel
  refine ⟨by decide +kernel, sound_partlyCached, hheld, by decide +kernel, ?_, by decide +kernel⟩
  rw [hheld]
  rintro ⟨-, -, hnearest⟩
  exact absurd (hnearest (milestone 20) (by decide) (by decide)) (by decide)

end SequentialStore

end Store

end RecordStore
