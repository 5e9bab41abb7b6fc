import RecordStore.Proofs.Store.Neighbors

/-!
# Tables entry by entry

A table is gone through from one of its ends, by reading what is beside the key that the read
before it gave (`Component.walk`).  Tables in memory and caches give every entry of a kind once in
this way, by increasing or by decreasing key, and none after the last one
(`Store.memory_and_cache_enumerate`).  A cache keeps its entries by the order of their admission.
So its walks are compared with the entries that are sorted by their keys.

Both directions have one proof.  On the way to an end, the keys that a read asks for are those that
come after the key of the read before (`Neighbor.passes`), and the nearest of them is the first one
(`Neighbor.Gives.filter_wants`).
-/

namespace RecordStore

namespace Store

namespace Neighbor

/-- What is read after a key was given. -/
def beside (look : Neighbor) (key : Key) : Neighbor :=
  if look.isUp then .next key else .previous key

/-- Whether a key is met before another one on the way. -/
def passes (look : Neighbor) (a b : Key) : Prop := (look.beside a).wants b = true

variable {look : Neighbor} {a b k : Key} {e : Entry} {es es' : List Entry}

@[simp] theorem isUp_beside (look : Neighbor) (key : Key) :
    (look.beside key).isUp = look.isUp := by
  cases look <;> rfl

@[simp] theorem passes_beside (look : Neighbor) (key : Key) :
    (look.beside key).passes = look.passes := by
  cases look <;> rfl

theorem passes_iff : look.passes a b ↔ if look.isUp then a < b else b < a := by
  cases look <;> simp [passes, beside, isUp, wants]

/-- Whatever is met after a key that is asked for is asked for too. -/
theorem wants_of_passes (h : look.passes a b) (ha : look.wants a = true) :
    look.wants b = true := by
  rw [passes_iff] at h
  cases hup : look.isUp with
  | true =>
      rw [hup, if_pos rfl] at h
      exact wants_of_lt hup h ha
  | false =>
      rw [hup, if_neg Bool.false_ne_true] at h
      by_contra hb
      rw [wants_eq_false hup h (Bool.eq_false_of_not_eq_true hb)] at ha
      cases ha

theorem not_passes_self : ¬ look.passes a a := by
  simp [passes_iff]

theorem not_passes_of_passes (h : look.passes a b) : ¬ look.passes b a := by
  rw [passes_iff] at h ⊢
  split_ifs at h ⊢ with hup
  · exact h.not_gt
  · exact h.not_gt

theorem not_prefers_of_passes (h : look.passes a b) : ¬ look.prefers b a := by
  rw [passes_iff] at h
  rw [prefers]
  split_ifs at h ⊢ with hup
  · exact h.not_ge
  · exact h.not_ge

/-- What is given depends on the entries alone, in whatever order they are. -/
theorem Gives.congr (hmem : ∀ e, e ∈ es ↔ e ∈ es') :
    ∀ {e? : Option Entry}, look.Gives es e? → look.Gives es' e?
  | none, h => fun e he => h e ((hmem e).2 he)
  | some e, ⟨he, hwants, hnearest⟩ =>
      ⟨(hmem e).1 he, hwants, fun e' he' => hnearest e' ((hmem e').2 he')⟩

theorem Gives.filter_eq_nil (h : look.Gives es none) :
    es.filter (fun e => look.wants e.1) = [] := by
  refine List.filter_eq_nil_iff.2 fun e he => ?_
  simp [h e he]

/-- The entry that is given comes first among those that are asked for, and the others are those
that are asked for beside it. -/
theorem Gives.filter_wants (hsorted : es.Pairwise fun a b => look.passes a.1 b.1)
    (h : look.Gives es (some e)) :
    es.filter (fun e => look.wants e.1)
      = e :: es.filter fun e' => (look.beside e.1).wants e'.1 := by
  obtain ⟨hmem, hwants, hnearest⟩ := h
  obtain ⟨before, after, rfl⟩ := List.append_of_mem hmem
  obtain ⟨-, htail, hbetween⟩ := List.pairwise_append.1 hsorted
  have hlater : ∀ e' ∈ after, look.passes e.1 e'.1 := (List.pairwise_cons.1 htail).1
  have hearlier : ∀ e' ∈ before, look.passes e'.1 e.1 :=
    fun e' he' => hbetween e' he' e List.mem_cons_self
  have hskipped : before.filter (fun e => look.wants e.1) = [] := by
    refine List.filter_eq_nil_iff.2 fun e' he' hwants' => ?_
    have hprefers := hnearest e' (List.mem_append_left _ he') hwants'
    exact not_prefers_of_passes (hearlier e' he') hprefers
  have hrest : after.filter (fun e => look.wants e.1) = after :=
    List.filter_eq_self.2 fun e' he' => wants_of_passes (hlater e' he') hwants
  have hpassed : before.filter (fun e' => (look.beside e.1).wants e'.1) = [] :=
    List.filter_eq_nil_iff.2 fun e' he' => not_passes_of_passes (hearlier e' he')
  have hleft : after.filter (fun e' => (look.beside e.1).wants e'.1) = after :=
    List.filter_eq_self.2 hlater
  have hself : ¬ (look.beside e.1).wants e.1 = true := not_passes_self
  simp [List.filter_append, hskipped, hrest, hpassed, hleft, hwants, hself]

end Neighbor

end Store

/-! ## Walks -/

namespace Bench.Component

open Store (Neighbor)

/-- What a component gives when it is asked for an entry, and the component after it. -/
def read (look : Neighbor) (kind : Kind) (c : Component) :
    Except Failure (Option Entry) × Component :=
  ((c.perform (look.call kind)).1.map (Call.entry? (look.call kind)),
    (c.perform (look.call kind)).2)

/-- What is read one after the other up to a number, always beside the key that was given before.
Nothing is read after there was none. -/
def walk (kind : Kind) : Nat → Neighbor → Component → List (Except Failure (Option Entry))
  | 0, _, _ => []
  | n + 1, look, c =>
      (c.read look kind).1 :: match (c.read look kind).1 with
        | .ok (some e) => walk kind n (look.beside e.1) (c.read look kind).2
        | _ => []

/-- The reads of a walk that gives entries, and then none. -/
def visits (es : List Entry) : List (Except Failure (Option Entry)) :=
  es.map (fun e => .ok (some e)) ++ [.ok none]

variable {c : Component} {kind : Kind} {es : List Entry}

theorem read_gives (c : Component) (look : Neighbor) (kind : Kind) :
    ∃ e?, (c.read look kind).1 = .ok e? ∧ look.Gives (c.entries kind) e? ∧
      (c.read look kind).2.entries kind = c.entries kind := by
  obtain ⟨answer, hanswer, hgives, hentries⟩ := Store.perform_neighbor c look kind
  refine ⟨_, ?_, hgives, hentries kind⟩
  rw [read, hanswer]
  rfl

/-- A walk visits what is asked for, in the order in which it is met. -/
theorem walk_eq (look : Neighbor) (hsorted : es.Pairwise fun a b => look.passes a.1 b.1)
    (hmem : ∀ e, e ∈ es ↔ e ∈ c.entries kind) (n : Nat)
    (hn : (es.filter fun e => look.wants e.1).length < n) :
    c.walk kind n look = visits (es.filter fun e => look.wants e.1) := by
  induction n generalizing look c with
  | zero => omega
  | succ n ih =>
      obtain ⟨e?, hread, hgives, hentries⟩ := c.read_gives look kind
      replace hgives := hgives.congr fun e => (hmem e).symm
      rw [walk, hread]
      cases e? with
      | none => rw [hgives.filter_eq_nil, visits, List.map_nil, List.nil_append]
      | some e =>
          rw [hgives.filter_wants hsorted, List.length_cons] at hn
          have hrest := ih (c := (c.read look kind).2) (look.beside e.1)
            (by rwa [Neighbor.passes_beside]) (by rwa [hentries]) (by omega)
          rw [hgives.filter_wants hsorted]
          simp only [hrest, visits, List.map_cons, List.cons_append]

/-- A component of which the entries of a kind are read in the order of a list. -/
structure Enumerates (kind : Kind) (es : List Entry) (c : Component) : Prop where
  /-- The keys increase. -/
  sorted : es.Pairwise (·.1 < ·.1)
  /-- The entries are those that are stored, with their records. -/
  stored : ∀ key record, (key, record) ∈ es ↔ (c.perform (.get kind key)).1 = .ok (some record)
  count : (c.perform (.count kind)).1 = .ok es.length
  /-- From the first entry on, every entry is read once, and then none. -/
  up : ∀ n, es.length < n → c.walk kind n .first = visits es
  /-- From the last entry on, the order is the reverse. -/
  down : ∀ n, es.length < n → c.walk kind n .latest = visits es.reverse
  /-- Beside any key, stored or not, the nearest entry is given, and none if there are none on that
  side. -/
  nearest : ∀ look : Neighbor, ∃ e?, (c.read look kind).1 = .ok e? ∧ look.Gives es e?

/-- Entries that are sorted by their keys are read in this order, if they are the entries of a
component. -/
theorem enumerates_of_sorted (hsorted : es.Pairwise (·.1 < ·.1))
    (hmem : ∀ e, e ∈ es ↔ e ∈ c.entries kind)
    (hstored : ∀ key record, (key, record) ∈ c.entries kind ↔
      (c.perform (.get kind key)).1 = .ok (some record))
    (hcount : (c.perform (.count kind)).1 = .ok es.length) : c.Enumerates kind es where
  sorted := hsorted
  stored key record := (hmem _).trans (hstored key record)
  count := hcount
  up n hn := by
    have hpasses : es.Pairwise fun a b => Neighbor.first.passes a.1 b.1 :=
      hsorted.imp fun h => Neighbor.passes_iff.2 h
    have hall : (es.filter fun e => Neighbor.first.wants e.1) = es :=
      List.filter_eq_self.2 fun _ _ => rfl
    have hwalk := walk_eq .first hpasses hmem n
    rw [hall] at hwalk
    exact hwalk hn
  down n hn := by
    have hpasses : es.reverse.Pairwise fun a b => Neighbor.latest.passes a.1 b.1 :=
      List.pairwise_reverse.2 (hsorted.imp fun h => Neighbor.passes_iff.2 h)
    have hall : (es.reverse.filter fun e => Neighbor.latest.wants e.1) = es.reverse :=
      List.filter_eq_self.2 fun _ _ => rfl
    have hmem' : ∀ e, e ∈ es.reverse ↔ e ∈ c.entries kind :=
      fun e => List.mem_reverse.trans (hmem e)
    have hwalk := walk_eq .latest hpasses hmem' n
    rw [hall, List.length_reverse] at hwalk
    exact hwalk hn
  nearest look := by
    obtain ⟨e?, hread, hgives, -⟩ := c.read_gives look kind
    exact ⟨e?, hread, hgives.congr fun e => (hmem e).symm⟩

/-! ## Tables in memory -/

theorem enumerates_memory (m : Memory) (kind : Kind) :
    (memory m).Enumerates kind (m.table kind).entries := by
  apply enumerates_of_sorted
  · exact Neighbor.pairwise_entries _
  · intro e
    rfl
  · intro key record
    show (key, record) ∈ (m.table kind).toList ↔
      Except.ok (m.table kind)[key]? = Except.ok (some record)
    rw [Std.TreeMap.mem_toList_iff_getElem?_eq_some, Except.ok.injEq]
  · exact congrArg Except.ok Std.TreeMap.length_toList.symm

end Bench.Component

/-! ## Caches -/

namespace Cache

namespace Slots.Sound

variable {s : Slots} {kind : Kind} {key : Key} {record : Record}

/-- The entries of a kind are found by their addresses. -/
theorem mem_entries_iff (h : s.Sound) : (key, record) ∈ (s.ofKind kind).map Slot.entry ↔
    s.recordAt? ⟨kind, key⟩ = some record := by
  simp only [ofKind, List.mem_map, List.mem_filter, beq_iff_eq]
  constructor
  · rintro ⟨slot, ⟨hslot, hkind⟩, hentry⟩
    obtain ⟨d, hd, rfl⟩ := List.mem_map.1 hslot
    obtain ⟨rfl, rfl⟩ := Prod.mk.inj hentry
    have hid : d.slot.id = ⟨kind, d.slot.key⟩ := congrArg (EntryId.mk · d.slot.key) hkind
    rw [← hid]
    exact h.recordAt?_of_mem hd
  · intro hrecord
    obtain ⟨slot, hfind, rfl⟩ := Option.map_eq_some_iff.1 hrecord
    have hid := List.find?_some hfind
    obtain ⟨hkind, hkey⟩ := EntryId.mk.inj (beq_iff_eq.1 hid)
    exact ⟨slot, ⟨List.mem_of_find?_eq_some hfind, hkind⟩, congrArg (·, slot.record) hkey⟩

/-- The entries of a kind have different keys. -/
theorem pairwise_entries (h : s.Sound) (kind : Kind) :
    ((s.ofKind kind).map Slot.entry).Pairwise fun a b => a.1 ≠ b.1 := by
  have hids : s.toList.Pairwise fun a b => a.id ≠ b.id := List.pairwise_map.1 h.nodup_ids
  rw [List.pairwise_map]
  refine (hids.filter _).imp_of_mem fun {a b} ha hb hne hkey => hne ?_
  have hkind : a.kind = b.kind := by
    rw [beq_iff_eq.1 (List.mem_filter.1 ha).2, beq_iff_eq.1 (List.mem_filter.1 hb).2]
  exact congrArg₂ EntryId.mk hkind hkey

end Slots.Sound

end Cache

namespace Bench.Component

variable {config : Cache.Config} {r : Cache.Running}

/-- The entries of a kind in a cache, by increasing key. -/
def sortedEntries (c : Component) (kind : Kind) : List Entry :=
  (c.entries kind).mergeSort fun a b => decide (a.1 ≤ b.1)

theorem pairwise_sortedEntries {c : Component} {kind : Kind}
    (h : (c.entries kind).Pairwise fun a b => a.1 ≠ b.1) :
    (c.sortedEntries kind).Pairwise (·.1 < ·.1) := by
  have hperm : (c.sortedEntries kind).Perm (c.entries kind) := List.mergeSort_perm _ _
  have hle : (c.sortedEntries kind).Pairwise fun a b => decide (a.1 ≤ b.1) = true := by
    apply List.pairwise_mergeSort
    · intro a b c hab hbc
      simp only [decide_eq_true_eq] at hab hbc ⊢
      exact hab.trans hbc
    · intro a b
      simp only [Bool.or_eq_true, decide_eq_true_eq]
      exact le_total a.1 b.1
  have hne := (hperm.pairwise_iff fun {a b} hab => Ne.symm hab).2 h
  refine (hle.and hne).imp fun {a b} hab => ?_
  exact lt_of_le_of_ne (of_decide_eq_true hab.1) hab.2

theorem enumerates_cache (h : r.cache.Sound config) (backend : Nat) (kind : Kind) :
    (cache r backend).Enumerates kind ((cache r backend).sortedEntries kind) := by
  have hperm : ((cache r backend).sortedEntries kind).Perm ((cache r backend).entries kind) :=
    List.mergeSort_perm _ _
  apply enumerates_of_sorted
  · exact pairwise_sortedEntries (h.contents.slots.pairwise_entries kind)
  · intro e
    exact hperm.mem_iff
  · intro key record
    show _ ↔ (r.perform (.get kind key)).1 = _
    rw [(Cache.faithful_of_sound h).get, Except.ok.injEq]
    exact h.contents.slots.mem_entries_iff
  · rw [hperm.length_eq]
    exact congrArg Except.ok (by simp [entries, Cache.keys])

end Bench.Component

namespace Store

open Bench (Component)

/-- Reads of neighbours go through every table in memory, and through every cache, whatever
happened to it. -/
theorem memory_and_cache_enumerate {κ : Type} (m : Memory) (g : Cache.JobSystem κ)
    (events : List (Cache.Event κ)) (backend : Nat) (kind : Kind) :
    (∃ es, (Component.memory m).Enumerates kind es) ∧
      ∃ es, (Component.cache (run g.step g.start events).running backend).Enumerates kind es :=
  ⟨⟨_, Component.enumerates_memory m kind⟩,
    ⟨_, Component.enumerates_cache (Cache.run_sound events) backend kind⟩⟩

/-- Keys that begin alike are told apart, and those of the other form come after them. -/
example : (((Component.memory Memory.sample).walk .tag 4 .latest).map
    fun e? => e?.toOption.join.map Prod.fst)
      = [some (.index 1), some (.hash [1, 2]), some (.hash [1]), none] := by decide +kernel

end Store

end RecordStore
