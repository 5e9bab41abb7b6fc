import RecordStore.Proofs.Prefixes
import RecordStore.Proofs.Store.Requests
import RecordStore.Proofs.Store.Sequential

/-!
# Collections

A collection puts together what all components of a store answer: it adds counts, and unites sets.
Missing references are told by the first backend that has any.

Here some components of a sequential store may fail (`Outage`).  A collection goes on to the first
backend that fails, and a cache that fails counts as one that has nothing.  None of these reads
changes what a component answers (`Component.perform_of_surveys`), so the answers of a store can be
read off it before the operation begins.
-/

namespace RecordStore

/-- Whether a call is about a whole table. -/
def Call.surveys : Call → Bool
  | keysStartingWith _ _ | keysMissingFrom _ _ | loadAllKeys _ | count _ => true
  | _ => false

/-! ## Unions -/

/-- Whether a set is the union of sets.  It is not there if they are empty. -/
structure IsUnion {α : Type} [Ord α] (sets : List (List α)) (union : Option (List α)) : Prop where
  eq_none_iff : union = none ↔ ∀ set ∈ sets, set = []
  increasing : (union.getD []).Pairwise fun a b => compare a b = .lt
  mem_iff : ∀ a, a ∈ union.getD [] ↔ ∃ set ∈ sets, a ∈ set

section

variable {α : Type} [Ord α] [Std.TransOrd α] [Std.LawfulEqOrd α]

theorem isUnion_flatten (sets : List (List α)) :
    IsUnion sets (Store.nonempty? (sortedSet sets.flatten)) := by
  have hmem : ∀ a, a ∈ sortedSet sets.flatten ↔ ∃ set ∈ sets, a ∈ set := fun a =>
    mem_sortedSet.trans List.mem_flatten
  rw [Store.nonempty?]
  split
  next hempty =>
    rw [List.isEmpty_iff] at hempty
    rw [hempty] at hmem
    refine ⟨⟨fun _ set hset => ?_, fun _ => rfl⟩, .nil, hmem⟩
    refine List.eq_nil_iff_forall_not_mem.2 fun a ha => ?_
    exact List.not_mem_nil ((hmem a).2 ⟨set, hset, ha⟩)
  next hempty =>
    refine ⟨⟨fun h => absurd h (Option.some_ne_none _), fun hall => ?_⟩, pairwise_sortedSet, hmem⟩
    obtain ⟨a, ha⟩ := List.exists_mem_of_ne_nil _ fun h => hempty (List.isEmpty_iff.2 h)
    obtain ⟨set, hset, ha⟩ := (hmem a).1 ha
    rw [hall set hset] at ha
    cases ha

end

/-! ## What components answer -/

namespace Bench.Component

/-- What a component answers if it does not fail. -/
def answer (call : Call) (c : Component) : call.Answer :=
  (c.perform call).1.toOption.getD call.blank

/-- The keys of a table that another table lacks.  Only tables in memory tell. -/
def missing (kind referenced : Kind) : Component → List Key
  | memory m => (m.table kind).keys.filter fun k => k ∉ (m.table referenced).keys
  | null | cache _ _ => []

/-- Reading a table changes nothing about it. -/
theorem perform_of_surveys {call : Call} (h : call.surveys = true) (c : Component) :
    (c.perform call).1 = .ok (c.answer call) ∧ (c.perform call).2.answer call = c.answer call := by
  cases call with
  | keysStartingWith kind start | keysMissingFrom kind referenced | loadAllKeys kind | count kind =>
      cases c <;> exact ⟨rfl, rfl⟩
  | _ => cases h

theorem answer_count (kind : Kind) (c : Component) :
    c.answer (.count kind) = (c.entries kind).length := by
  cases c with
  | memory m => exact Std.TreeMap.length_toList.symm
  | null => rfl
  | cache r backend =>
      show ((r.cache.contents.slots.ofKind kind).map _).length = _
      rw [entries, List.length_map, List.length_map]

theorem answer_loadAllKeys (kind : Kind) (c : Component) :
    c.answer (.loadAllKeys kind) = (c.entries kind).map fun e => e.1.bytes := by
  cases c with
  | memory m => exact List.map_map
  | null => rfl
  | cache r backend =>
      show ((r.cache.contents.slots.ofKind kind).map _).map _ = _
      rw [entries, List.map_map, List.map_map]
      rfl

theorem answer_keysMissingFrom (kind referenced : Kind) (c : Component) :
    c.answer (.keysMissingFrom kind referenced) = c.missing kind referenced := by
  cases c with
  | memory m =>
      refine List.filter_congr fun k _ => ?_
      have hmem : decide (k ∈ (m.table referenced).keys) = (m.table referenced).contains k := by
        rw [Bool.eq_iff_iff, decide_eq_true_iff, Table.mem_keys]
      rw [decide_not, hmem]
  | null | cache => rfl

end Bench.Component

namespace Store

open Bench (Component StoreStep Value)

/-! ## Backends one after the other -/

section

variable {σ τ : Type} {reply : (q : Request) → σ → Reply q × σ} {call : Call} {fine : σ → Prop}
  {outcome : Nat → call.Outcome}
  (hbackend : ∀ i s, fine s →
    (reply (.backend i call) s).1 = outcome i ∧ fine (reply (.backend i call) s).2)

include hbackend

/-- A collection goes on after backends that answer. -/
theorem run_collectBackends_append {add : τ → call.Answer → τ} {answer : Nat → call.Answer}
    {before : List Nat} (hbefore : ∀ i ∈ before, outcome i = .ok (answer i)) (rest : List Nat)
    (t : τ) {s : σ} (hs : fine s) :
    ∃ s', fine s' ∧ (collectBackends call add t (before ++ rest)).run reply s
      = (collectBackends call add (before.foldl (fun t i => add t (answer i)) t) rest).run
          reply s' := by
  induction before generalizing t s with
  | nil => exact ⟨s, hs, rfl⟩
  | cons i before ih =>
      rw [List.forall_mem_cons] at hbefore
      obtain ⟨hreply, hs'⟩ := hbackend i s hs
      obtain ⟨s'', hs'', hrun⟩ := ih hbefore.2 (add t (answer i)) hs'
      refine ⟨s'', hs'', ?_⟩
      rw [List.foldl_cons, ← hrun]
      simp only [List.cons_append, collectBackends, Bind.bind, ask, Program.bind, Program.run,
        hreply, hbefore.1]

/-- A search goes on after backends that have nothing. -/
theorem run_searchBackends_append (found? : call.Answer → Option τ) {before : List Nat}
    (hbefore : ∀ i ∈ before, ∃ a, outcome i = .ok a ∧ found? a = none) (rest : List Nat) {s : σ}
    (hs : fine s) :
    ∃ s', fine s' ∧ (searchBackends call found? (before ++ rest)).run reply s
      = (searchBackends call found? rest).run reply s' := by
  induction before generalizing s with
  | nil => exact ⟨s, hs, rfl⟩
  | cons i before ih =>
      rw [List.forall_mem_cons] at hbefore
      obtain ⟨⟨a, hout, hnone⟩, hbefore⟩ := hbefore
      obtain ⟨hreply, hs'⟩ := hbackend i s hs
      obtain ⟨s'', hs'', hrun⟩ := ih hbefore hs'
      refine ⟨s'', hs'', ?_⟩
      rw [← hrun]
      simp only [List.cons_append, searchBackends, Bind.bind, ask, Program.bind, Program.run,
        hreply, hout, hnone]

theorem run_collectBackends_error {add : τ → call.Answer → τ} {i : Nat} {e : Failure}
    (hout : outcome i = .error e) (rest : List Nat) (t : τ) {s : σ} (hs : fine s) :
    ((collectBackends call add t (i :: rest)).run reply s).1 = .error (.backend i e) := by
  simp only [collectBackends, Bind.bind, ask, Program.bind, Program.run, (hbackend i s hs).1, hout]
  rfl

theorem run_searchBackends_error {found? : call.Answer → Option τ} {i : Nat} {e : Failure}
    (hout : outcome i = .error e) (rest : List Nat) {s : σ} (hs : fine s) :
    ((searchBackends call found? (i :: rest)).run reply s).1 = .error (.backend i e) := by
  simp only [searchBackends, Bind.bind, ask, Program.bind, Program.run, (hbackend i s hs).1, hout]
  rfl

theorem run_searchBackends_found {found? : call.Answer → Option τ} {i : Nat} {a : call.Answer}
    {b : τ} (hout : outcome i = .ok a) (hfound : found? a = some b) (rest : List Nat) {s : σ}
    (hs : fine s) :
    ((searchBackends call found? (i :: rest)).run reply s).1 = .ok (some b) := by
  simp only [searchBackends, Bind.bind, ask, Program.bind, Program.run, (hbackend i s hs).1, hout,
    hfound]
  rfl

end

/-! ## Stores in which components fail -/

/-- The components of a store that fail every call, each with a cause. -/
structure Outage where
  cache : Option Failure := none
  backend : Nat → Option Failure := fun _ => none

namespace Outage

variable (o : Outage) (s : SequentialStore)

/-- What happens at a request of the client. -/
def reply : (q : Request) → SequentialStore → Reply q × SequentialStore
  | .cache call, s => o.cache.elim (SequentialStore.reply (.cache call) s) fun e => (.error e, s)
  | .backend i call, s => (o.backend i).elim (SequentialStore.reply (.backend i call) s)
    fun e => (.error e, s)
  | q, s => SequentialStore.reply q s

/-- The value of an operation. -/
def value (step : StoreStep) : Value := ((step.operation s.layout).run o.reply s).1

/-- The cache, if there is one and it does not fail. -/
def cache? : Option Component :=
  o.cache.elim (s.cache.map fun r => .cache r 0) fun _ => none

/-- The components that are asked, if no backend fails. -/
def components : List Component := (o.cache? s).toList ++ s.backends

/-- No backend fails. -/
def AllUp : Prop := ∀ i < s.backends.length, o.backend i = none

/-- A backend is the first that fails. -/
def FirstDown (i : Nat) (e : Failure) : Prop :=
  i < s.backends.length ∧ o.backend i = some e ∧ ∀ j < i, o.backend j = none

/-! ### Answers -/

/-- What the backend of a number answers if it does not fail. -/
def answerAt (call : Call) (i : Nat) : call.Answer :=
  (s.backends[i]?.map (Component.answer call)).getD call.blank

/-- What the backend of a number gives back. -/
def outcomeAt (call : Call) (i : Nat) : call.Outcome :=
  (o.backend i).elim (.ok (answerAt s call i)) .error

/-- What the cache counts as answering. -/
def cached (call : Call) : call.Answer := ((o.cache? s).map (Component.answer call)).getD call.blank

/-- Whether a store is open, and its components answer a call as those of another one. -/
structure Alike (call : Call) (s s' : SequentialStore) : Prop where
  isOpen : s'.isOpen = true
  cached : o.cached s' call = o.cached s call
  backends : s'.backends.map (Component.answer call) = s.backends.map (Component.answer call)

variable {o : Outage} {s : SequentialStore} {call : Call}

theorem cached_eq_blank (h : s.cache = none) : o.cached s call = call.blank := by
  rw [cached, cache?, h]
  cases o.cache <;> rfl

/-- A request of the cache, and what it leaves behind. -/
theorem reply_cache (hcall : call.surveys = true) (o : Outage) (s : SequentialStore) :
    (o.reply (.cache call) s).1.toOption.getD call.blank = o.cached s call ∧
      ∃ cache, (o.reply (.cache call) s).2 = { s with cache } ∧
        o.cached { s with cache } call = o.cached s call := by
  rw [reply]
  cases hdown : o.cache with
  | some e =>
      refine ⟨?_, s.cache, rfl, rfl⟩
      rw [cached, cache?, hdown]
      rfl
  | none =>
      rw [Option.elim_none, SequentialStore.reply]
      cases hr : s.cache with
      | none => exact ⟨(cached_eq_blank hr).symm, s.cache, rfl, rfl⟩
      | some r =>
          have hafter := ((Component.cache r 0).perform_of_surveys hcall).2
          refine ⟨?_, _, rfl, ?_⟩
          · rw [cached, cache?, hdown, hr]
            rfl
          · rw [cached, cached, cache?, cache?, hdown, hr]
            exact congrArg (fun a => (some a).getD call.blank) hafter

namespace Alike

theorem answerAt_eq {s' : SequentialStore} (h : o.Alike call s s') (i : Nat) :
    answerAt s' call i = answerAt s call i := by
  rw [answerAt, answerAt, ← List.getElem?_map, ← List.getElem?_map, h.backends]

theorem outcomeAt_eq {s' : SequentialStore} (h : o.Alike call s s') (i : Nat) :
    o.outcomeAt s' call i = o.outcomeAt s call i := by
  rw [outcomeAt, outcomeAt, h.answerAt_eq]

/-- A read of a table leaves a store in which the components answer as before. -/
theorem backend (hcall : call.surveys = true) (i : Nat) (s' : SequentialStore)
    (h : o.Alike call s s') : (o.reply (.backend i call) s').1 = o.outcomeAt s call i ∧
      o.Alike call s (o.reply (.backend i call) s').2 := by
  rw [← h.outcomeAt_eq, outcomeAt, reply, answerAt]
  cases o.backend i with
  | some e => exact ⟨rfl, h⟩
  | none =>
      rw [Option.elim_none, Option.elim_none, SequentialStore.reply]
      cases hc : s'.backends[i]? with
      | none => exact ⟨rfl, h⟩
      | some c =>
          obtain ⟨hperform, hafter⟩ := c.perform_of_surveys hcall
          refine ⟨hperform, h.isOpen, h.cached, ?_⟩
          have hanswer : (s'.backends.map (Component.answer call))[i]? = some (c.answer call) := by
            rw [List.getElem?_map, hc, Option.map_some]
          obtain ⟨hi, hget⟩ := List.getElem?_eq_some_iff.1 hanswer
          rw [← h.backends, List.map_set, hafter, ← hget]
          exact List.set_getElem_self hi

theorem cache (hcall : call.surveys = true) {s' : SequentialStore} (h : o.Alike call s s') :
    ((askCache s.layout call).run o.reply s').1 = o.cached s call ∧
      o.Alike call s ((askCache s.layout call).run o.reply s').2 := by
  rw [askCache]
  split
  next hnone =>
    have hcache : s.cache = none := by
      rwa [SequentialStore.layout, Option.isNone_map, Option.isNone_iff_eq_none] at hnone
    exact ⟨(cached_eq_blank hcache).symm, h⟩
  next =>
    obtain ⟨hreply, cache, hleft, hafter⟩ := reply_cache hcall o s'
    have halike : o.Alike call s (o.reply (.cache call) s').2 :=
      hleft ▸ ⟨h.isOpen, hafter.trans h.cached, h.backends⟩
    rw [h.cached] at hreply
    simp only [Bind.bind, ask, Program.bind, Program.run]
    rw [← hreply]
    cases hout : (o.reply (.cache call) s').1 with
    | ok a => exact ⟨rfl, halike⟩
    | error e => exact ⟨rfl, halike⟩

end Alike

/-! ### Collections -/

theorem alike_refl (hopen : s.isOpen = true) : o.Alike call s s := ⟨hopen, rfl, rfl⟩

theorem outcomeAt_of_up {i : Nat} (h : o.backend i = none) :
    o.outcomeAt s call i = .ok (answerAt s call i) := by
  rw [outcomeAt, h]
  rfl

theorem outcomeAt_of_down {i : Nat} {e : Failure} (h : o.backend i = some e) :
    o.outcomeAt s call i = .error e := by
  rw [outcomeAt, h]
  rfl

theorem indices_layout (s : SequentialStore) : s.layout.indices = List.range s.backends.length := by
  rw [Layout.indices, SequentialStore.layout, List.length_map]

/-- The backends up to one of them, in the order in which they are asked. -/
theorem indices_eq {i : Nat} (hi : i < s.backends.length) :
    ∃ rest, s.layout.indices = List.range i ++ i :: rest := by
  obtain ⟨k, hk⟩ := Nat.exists_eq_add_of_lt hi
  rw [indices_layout, hk, Nat.add_assoc, List.range_add, List.range_succ_eq_map, List.map_cons]
  exact ⟨_, rfl⟩

theorem map_answerAt (s : SequentialStore) (call : Call) :
    (List.range s.backends.length).map (answerAt s call)
      = s.backends.map (Component.answer call) := by
  refine List.ext_getElem (by rw [List.length_map, List.length_map, List.length_range]) ?_
  intro i hi hi'
  rw [List.length_map] at hi'
  rw [List.getElem_map, List.getElem_map, List.getElem_range, answerAt,
    List.getElem?_eq_getElem hi']
  rfl

section

variable {τ : Type} {add : τ → call.Answer → τ} {t : τ} (hcall : call.surveys = true)
  (hopen : s.isOpen = true)

include hcall hopen

/-- A collection asks the cache, and then the backends. -/
theorem run_collect_eq (o : Outage) (add : τ → call.Answer → τ) (t : τ) : ∃ s', o.Alike call s s' ∧
    (collect s.layout call add t).run o.reply s
      = (collectBackends call add (add t (o.cached s call)) s.layout.indices).run o.reply s' := by
  have hrefl : o.Alike call s s := alike_refl hopen
  obtain ⟨hanswer, halike⟩ := hrefl.cache hcall
  refine ⟨_, halike, ?_⟩
  have hcollect : collect s.layout call add t = opened ((askCache s.layout call).bind fun answer =>
      collectBackends call add (add t answer) s.layout.indices) := rfl
  have hopened : (o.reply .isOpen s).2 = s := rfl
  rw [hcollect, run_opened o.reply hopen, Program.run_bind, hopened, hanswer]

/-- Where no backend fails, a collection puts the answers of the components together. -/
theorem run_collect (hup : o.AllUp s) (hblank : add t call.blank = t) :
    ((collect s.layout call add t).run o.reply s).1
      = .ok (((o.components s).map (Component.answer call)).foldl add t) := by
  obtain ⟨s', halike, hrun⟩ := run_collect_eq hcall hopen o add t
  obtain ⟨s'', -, hbackends⟩ := run_collectBackends_append (Alike.backend hcall)
    (fun i hi => outcomeAt_of_up (hup i (List.mem_range.1 hi))) [] (add t (o.cached s call)) halike
  rw [List.append_nil, ← indices_layout] at hbackends
  have hcached : add t (o.cached s call)
      = ((o.cache? s).toList.map (Component.answer call)).foldl add t := by
    rw [cached]
    cases o.cache? s with
    | none => exact hblank
    | some c => rfl
  have hanswers : ∀ t, s.layout.indices.foldl (fun t i => add t (answerAt s call i)) t
      = (s.backends.map (Component.answer call)).foldl add t := by
    intro t
    rw [← map_answerAt, List.foldl_map, indices_layout]
  rw [hrun, hbackends, hcached, components, List.map_append, List.foldl_append, ← hanswers]
  rfl

/-- A collection ends at the first backend that fails. -/
theorem run_collect_error {i : Nat} {e : Failure} (hdown : o.FirstDown s i e) :
    ((collect s.layout call add t).run o.reply s).1 = .error (.backend i e) := by
  obtain ⟨hi, hcause, hbefore⟩ := hdown
  obtain ⟨s', halike, hrun⟩ := run_collect_eq hcall hopen o add t
  obtain ⟨rest, hindices⟩ := indices_eq hi
  obtain ⟨s'', halike', hbackends⟩ := run_collectBackends_append (Alike.backend hcall)
    (fun j hj => outcomeAt_of_up (hbefore j (List.mem_range.1 hj))) (i :: rest)
    (add t (o.cached s call)) halike
  rw [hrun, hindices, hbackends]
  exact run_collectBackends_error (Alike.backend hcall) (outcomeAt_of_down hcause) rest _ halike'

end

/-! ### Missing references -/

/-- The backends before a number do not fail, and have no missing references to tell. -/
def Passes (o : Outage) (s : SequentialStore) (kind referenced : Kind) (i : Nat) : Prop :=
  ∀ j < i, o.backend j = none ∧ ∀ c, s.backends[j]? = some c → c.missing kind referenced = []

section

variable {kind referenced : Kind} {i : Nat}

theorem answerAt_eq_missing {c : Component} (hc : s.backends[i]? = some c) :
    answerAt s (.keysMissingFrom kind referenced) i = c.missing kind referenced := by
  rw [answerAt, hc]
  exact Component.answer_keysMissingFrom kind referenced c

theorem Passes.outcomeAt_eq (h : o.Passes s kind referenced i) {j : Nat} (hj : j < i) :
    o.outcomeAt s (.keysMissingFrom kind referenced) j = .ok [] := by
  obtain ⟨hup, hnone⟩ := h j hj
  rw [outcomeAt_of_up hup]
  cases hc : s.backends[j]? with
  | none =>
      rw [answerAt, hc]
      rfl
  | some c => rw [answerAt_eq_missing hc, hnone c hc]

/-- A question after missing references goes on to the first backend that fails or has any. -/
theorem value_keysMissingFrom (hopen : s.isOpen = true) {rest : List Nat}
    (hindices : s.layout.indices = List.range i ++ rest) (h : o.Passes s kind referenced i) :
    ∃ s', o.Alike (.keysMissingFrom kind referenced) s s' ∧
      o.value s (.keysMissingFrom kind referenced) = .ofResult (fun ks => .keys (some ks))
        (((searchBackends (.keysMissingFrom kind referenced) nonempty? rest).run o.reply s').1.map
          (Option.getD · [])) := by
  have hrefl : o.Alike (.keysMissingFrom kind referenced) s s := alike_refl hopen
  obtain ⟨s', halike, hsearch⟩ := run_searchBackends_append (Alike.backend rfl) nonempty?
    (fun j hj => ⟨[], h.outcomeAt_eq (List.mem_range.1 hj), rfl⟩) rest hrefl
  have hvalue : o.value s (.keysMissingFrom kind referenced) = .ofResult (fun ks => .keys (some ks))
      ((Store.keysMissingFrom s.layout kind referenced).run o.reply s).1 := run_map o.reply _ _ s
  have hopened : (Store.keysMissingFrom s.layout kind referenced).run o.reply s
      = ((searchBackends (.keysMissingFrom kind referenced) nonempty? s.layout.indices).bind
          fun found => .done (found.map (Option.getD · []))).run o.reply s :=
    run_opened o.reply hopen
  refine ⟨s', halike, ?_⟩
  rw [hvalue, hopened, run_map, hindices, hsearch]

end

end Outage

/-! ## What collections tell -/

/-- What the reads of whole tables tell at an open store, of which some components may fail. -/
structure Aggregates (o : Outage) (s : SequentialStore) : Prop where
  count : o.AllUp s → ∀ kind,
    o.value s (.count kind) = .number ((o.components s).map fun c => (c.entries kind).length).sum
  loadAllKeys : o.AllUp s → ∀ kind, ∃ ks, o.value s (.loadAllKeys kind) = .rawKeys ks ∧
    IsUnion ((o.components s).map fun c => (c.entries kind).map fun e => e.1.bytes) ks
  keysStartingWith : o.AllUp s → ∀ kind start, ∃ ks,
    o.value s (.keysStartingWith kind start) = .keys ks ∧
      IsUnion ((o.components s).map (Component.answer (.keysStartingWith kind start))) ks
  /-- The first backend that fails ends the read. -/
  error : ∀ i e, o.FirstDown s i e → ∀ kind, o.value s (.count kind) = .storeError (.backend i e) ∧
    o.value s (.loadAllKeys kind) = .storeError (.backend i e) ∧
    ∀ start, o.value s (.keysStartingWith kind start) = .storeError (.backend i e)
  /-- Missing references are those of the first backend that has any. -/
  missing : ∀ kind referenced i c, o.Passes s kind referenced i → o.backend i = none →
    s.backends[i]? = some c → c.missing kind referenced ≠ [] →
    o.value s (.keysMissingFrom kind referenced) = .keys (some (c.missing kind referenced))
  /-- A backend that fails before ends the read. -/
  missing_error : ∀ kind referenced i e, o.Passes s kind referenced i → o.backend i = some e →
    i < s.backends.length →
    o.value s (.keysMissingFrom kind referenced) = .storeError (.backend i e)
  missing_none : ∀ kind referenced, o.Passes s kind referenced s.backends.length →
    o.value s (.keysMissingFrom kind referenced) = .keys (some [])

namespace Outage

variable {o : Outage} {s : SequentialStore}

section

variable {call : Call} {τ : Type} {add : τ → call.Answer → τ} {t : τ} {step : StoreStep}
  {value : Result τ → Value}
  (hstep : step.operation s.layout = (collect s.layout call add t).bind fun r => .done (value r))
  (hcall : call.surveys = true) (hopen : s.isOpen = true)

include hstep hcall hopen

/-- The value of a step that collects, if no backend fails. -/
theorem value_of_up (hup : o.AllUp s) (hblank : add t call.blank = t) :
    o.value s step = value (.ok (((o.components s).map (Component.answer call)).foldl add t)) := by
  rw [Outage.value, hstep, run_map, run_collect hcall hopen hup hblank]

/-- The value of a step that collects, if a backend fails. -/
theorem value_of_down {i : Nat} {e : Failure} (hdown : o.FirstDown s i e) :
    o.value s step = value (.error (.backend i e)) := by
  rw [Outage.value, hstep, run_map, run_collect_error hcall hopen hdown]

end

/-- Sets are united in the end. -/
theorem settle_foldl {α : Type} [Ord α] (sets : List (List α)) :
    settle (.ok (sets.foldl (fun ks more => ks ++ more) []))
      = .ok (nonempty? (sortedSet sets.flatten)) := by
  rw [List.foldl_append_eq_append, List.map_id', List.nil_append]
  rfl

theorem operation_count (l : Layout) (kind : Kind) : (StoreStep.count kind).operation l
    = (collect l (.count kind) (fun n m => n + m) (0 : Nat)).bind fun r =>
        .done (.ofResult .number r) := rfl

theorem operation_loadAllKeys (l : Layout) (kind : Kind) : (StoreStep.loadAllKeys kind).operation l
    = (collect l (.loadAllKeys kind) (fun ks more => ks ++ more) []).bind fun r =>
        .done (.ofResult .rawKeys (settle r)) := Program.bind_assoc _ _ _

theorem operation_keysStartingWith (l : Layout) (kind : Kind) (start : Bytes) :
    (StoreStep.keysStartingWith kind start).operation l
      = (collect l (.keysStartingWith kind start) (fun ks more => ks ++ more) []).bind fun r =>
          .done (.ofResult .keys (settle r)) := Program.bind_assoc _ _ _

end Outage

/-- Counts are added up and sets of keys united, over the cache, if it does not fail, and all
backends; the first backend that fails ends the read.  Missing references are told by the first
backend that has any, unless one fails before. -/
theorem aggregate_reads (o : Outage) (s : SequentialStore) (hopen : s.isOpen = true) :
    Aggregates o s where
  count hup kind := by
    rw [Outage.value_of_up (Outage.operation_count _ kind) rfl hopen hup (Nat.add_zero _),
      ← List.sum_eq_foldl_nat, List.map_congr_left fun c _ => c.answer_count kind]
    rfl
  loadAllKeys hup kind := by
    refine ⟨_, ?_, isUnion_flatten _⟩
    rw [Outage.value_of_up (Outage.operation_loadAllKeys _ kind) rfl hopen hup (List.append_nil _),
      Outage.settle_foldl, List.map_congr_left fun c _ => c.answer_loadAllKeys kind]
    rfl
  keysStartingWith hup kind start := by
    refine ⟨_, ?_, isUnion_flatten _⟩
    rw [Outage.value_of_up (Outage.operation_keysStartingWith _ kind start) rfl hopen hup
      (List.append_nil _), Outage.settle_foldl]
    rfl
  error i e hdown kind :=
    ⟨Outage.value_of_down (Outage.operation_count _ kind) rfl hopen hdown,
      Outage.value_of_down (Outage.operation_loadAllKeys _ kind) rfl hopen hdown, fun start =>
      Outage.value_of_down (Outage.operation_keysStartingWith _ kind start) rfl hopen hdown⟩
  missing kind referenced i c hpasses hup hc hsome := by
    obtain ⟨hi, -⟩ := List.getElem?_eq_some_iff.1 hc
    obtain ⟨rest, hindices⟩ := Outage.indices_eq hi
    obtain ⟨s', halike, hvalue⟩ := Outage.value_keysMissingFrom hopen hindices hpasses
    have hout : o.outcomeAt s (.keysMissingFrom kind referenced) i
        = .ok (c.missing kind referenced) := by
      rw [Outage.outcomeAt_of_up hup, Outage.answerAt_eq_missing hc]
    have hfound : nonempty? (c.missing kind referenced) = some (c.missing kind referenced) :=
      if_neg fun h => hsome (List.isEmpty_iff.1 h)
    rw [hvalue, run_searchBackends_found (Outage.Alike.backend rfl) hout hfound
      rest halike]
    rfl
  missing_error kind referenced i e hpasses hdown hi := by
    obtain ⟨rest, hindices⟩ := Outage.indices_eq hi
    obtain ⟨s', halike, hvalue⟩ := Outage.value_keysMissingFrom hopen hindices hpasses
    rw [hvalue, run_searchBackends_error (Outage.Alike.backend rfl)
      (Outage.outcomeAt_of_down hdown) rest halike]
    rfl
  missing_none kind referenced hpasses := by
    have hindices : s.layout.indices = List.range s.backends.length ++ [] := by
      rw [Outage.indices_layout, List.append_nil]
    obtain ⟨s', -, hvalue⟩ := Outage.value_keysMissingFrom hopen hindices hpasses
    exact hvalue

/-- A store whose cache has transactions `01` and `03`.  Between two backends that keep nothing it
has transactions `01` and `02` in memory, and metadata of the first. -/
def sampleStore : SequentialStore where
  cache := some (((Cache.Running.ofConfig { byteBudget := 0 }).offerAll
    [(.hash [3], .ofBytes .transaction [3]), (.hash [1], .ofBytes .transaction [1])]).2)
  backends := [.null, .memory ([(.hash [2], .ofBytes .transaction [2]),
    (.hash [1], .ofBytes .transaction [1]),
    (.hash [1], .ofBytes .transactionMetadata [1])].foldl Memory.put {}), .null]

/-- The cache fails, and the last backend. -/
def sampleOutage : Outage where
  cache := some (.reported "cache")
  backend i := if i = 2 then some (.reported "disk") else none

/-- The keys of the cache and the memory are united, with `01` once.  Where the cache and the last
backend fail, transactions cannot be counted, but the missing metadata is told before that. -/
theorem aggregate_reads_sample :
    sampleStore.isOpen = true ∧ Aggregates {} sampleStore ∧ Aggregates sampleOutage sampleStore ∧
      Outage.value {} sampleStore (.loadAllKeys .transaction) = .rawKeys (some [[1], [2], [3]]) ∧
      Outage.value {} sampleStore (.count .transaction) = .number 4 ∧
      sampleOutage.value sampleStore (.count .transaction)
        = .storeError (.backend 2 (.reported "disk")) ∧
      sampleOutage.value sampleStore (.keysMissingFrom .transaction .transactionMetadata)
        = .keys (some [.hash [2]]) := by
  have hopen : sampleStore.isOpen = true := rfl
  have hsample := aggregate_reads sampleOutage sampleStore hopen
  have hdown : sampleOutage.FirstDown sampleStore 2 (.reported "disk") := by
    refine ⟨by decide, rfl, fun j hj => if_neg ?_⟩
    omega
  have hpasses : sampleOutage.Passes sampleStore .transaction .transactionMetadata 1 := by
    intro j hj
    obtain rfl : j = 0 := by omega
    refine ⟨rfl, ?_⟩
    rintro c ⟨⟩
    rfl
  refine ⟨hopen, aggregate_reads {} sampleStore hopen, hsample, by decide +kernel,
    by decide +kernel, (hsample.error 2 _ hdown .transaction).1, ?_⟩
  have hmissing := hsample.missing .transaction .transactionMetadata 1 _ hpasses rfl rfl (by decide)
  exact hmissing.trans (by decide)

end Store

end RecordStore
