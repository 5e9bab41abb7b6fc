import Mathlib.Algebra.Order.Floor.Div
import RecordStore.Proofs.Cache.Batches
import RecordStore.Proofs.Cache.Faithful
import RecordStore.Proofs.Cache.Passes

/-!
# One eviction pass

An eviction pass takes the entries that were admitted first.  When nothing comes between its
steps and the backend accepts the batch, it hands over exactly these entries and drops exactly
these (`evictOldest_undisturbed`).

Two things are to be shown of the cache in which the pass begins, whatever happened before.

* The slots stand in the order of admission.  An address is as old as the number of events for
  which it has been cached without a break (`JobSystem.ages`), so an admission in the place of a
  cached record, and any read, leaves the order as it is.  A request either appends addresses
  or takes some away (`Tends.line`).
* The new batch has a number of its own, so the pass ends its own batch, in which nothing can
  have been marked as deleted (`Contents.Numbered`).

That every slot still has the version of the look is then read off the list of the slots.
-/

namespace RecordStore

namespace Cache

open Service (Prog)

/-! ## Programs that are not disturbed -/

/-- Runs a program on a cache while nothing else happens, before a backend that does what it
is told.  Gives the result, the cache afterwards, and the calls on the backend in order.
`none` if the program has to wait for others. -/
def Running.undisturbed? {α : Type} : Prog α → Running → Option (α × Running × List Call)
  | .done a, r => some (a, r, [])
  | .ask (.backend call) next, r =>
      (undisturbed? (next (Verdict.done.outcome call)) r).map fun rest =>
        (rest.1, rest.2.1, call :: rest.2.2)
  | .ask q next, r =>
      match r.reply? 0 0 q with
      | (some a, r) => undisturbed? (next a) r
      | (none, _) => none

/-! ## How much a pass takes -/

/-- The part of a cache of a size that a pass takes in any case: the twentieth, rounded up,
and one at least. -/
def evictionShare (maxSize : Nat) : Nat := max 1 ((evictionPercent * maxSize) ⌈/⌉ 100)

theorem evictionCount_eq (maxSize len : Nat) :
    evictionCount maxSize len = evictionShare maxSize + (len - maxSize) := by
  have hceil : (evictionPercent * maxSize) ⌈/⌉ 100 = (maxSize * evictionPercent + 99) / 100 := by
    rw [Nat.ceilDiv_eq_add_pred_div, Nat.mul_comm]
    rfl
  rw [evictionCount, evictionShare, hceil]

theorem evictionShare_pos (maxSize : Nat) : 0 < evictionShare maxSize :=
  Nat.lt_of_lt_of_le Nat.zero_lt_one (Nat.le_max_left _ _)

theorem evictionShare_le {maxSize : Nat} (h : 0 < maxSize) : evictionShare maxSize ≤ maxSize := by
  have hcount := evictionCount_eq maxSize maxSize
  simp only [evictionCount, evictionPercent] at hcount
  omega

/-! ## What a request does to the line of addresses -/

/-- Addresses were appended, and nothing else happened to the line. -/
def Slots.Gains (s t : Slots) : Prop := s.ids <+: t.ids

/-- Slots went away, and the others stayed as they are. -/
def Slots.Loses (s t : Slots) : Prop := ∀ d ∈ t.candidates, d ∈ s.candidates

theorem Slots.Loses.trans {s t u : Slots} (h : s.Loses t) (h' : t.Loses u) : s.Loses u :=
  fun d hd => h d (h' d hd)

/-- The slots of a cache changed in some way.  The number that it is meant to hold stays, and the
numbers of its batches stay apart. -/
structure Alters (change : Slots → Slots → Prop) (c c' : Cache) : Prop where
  maxSize : c'.maxSize = c.maxSize
  numbered : c.contents.Numbered → c'.contents.Numbered
  slots : change c.contents.slots c'.contents.slots

namespace Alters

variable {config : Config} {change : Slots → Slots → Prop} {c c' c'' : Cache}

theorem trans (hchange : ∀ {s t u}, change s t → change t u → change s u)
    (h : c.Alters change c') (h' : c'.Alters change c'') : c.Alters change c'' where
  maxSize := h'.maxSize.trans h.maxSize
  numbered hc := h'.numbered (h.numbered hc)
  slots := hchange h.slots h'.slots

/-- A change of neither the slots nor the batches. -/
theorem of_eq (hmax : c'.maxSize = c.maxSize) (hcontents : c'.contents = c.contents) :
    c.Alters Slots.Loses c' where
  maxSize := hmax
  numbered h := hcontents ▸ h
  slots _ hd := hcontents ▸ hd

theorem offer (h : c.Sound config) (key : Key) (record : Record) :
    c.Alters Slots.Gains (c.offer key record).2 := by
  rcases Running.offer_cases c key record with ⟨-, heq⟩ | ⟨-, heq⟩
  · rw [heq]
    refine ⟨rfl, fun hnumbered => ?_, ?_⟩
    · exact hnumbered.remark (Batch.remarks_unmark _) (Contents.batches_put _ _ _)
        (Contents.nextBatch_put _ _ _)
    · simp only [Slots.Gains, Contents.slots_put, Slots.ids_insert h.contents.slots]
      split
      · exact List.prefix_rfl
      · exact List.prefix_append _ _
  · rw [heq]
    exact ⟨rfl, id, List.prefix_rfl⟩

theorem delete (h : c.Sound config) (id : EntryId) : c.Alters Slots.Loses (c.delete id) where
  maxSize := rfl
  numbered hnumbered := hnumbered.remark (Batch.remarks_markDeleted id)
    (Contents.batches_remove _ _) (Contents.nextBatch_remove _ _)
  slots _ hd := ((Contents.mem_slots_remove h.contents.slots).1 hd).1

theorem foldl_delete (h : c.Sound config) (ids : List EntryId) :
    c.Alters Slots.Loses (ids.foldl Cache.delete c) := by
  induction ids generalizing c with
  | nil => exact of_eq rfl rfl
  | cons id ids ih => exact (delete h id).trans Slots.Loses.trans (ih (h.delete id))

theorem clear (h : c.Sound config) (kind : Kind) : c.Alters Slots.Loses (c.clear kind) where
  maxSize := rfl
  numbered hnumbered := hnumbered.remark (Batch.remarks_markCleared kind)
    (Contents.batches_removeKind _ _) (Contents.nextBatch_removeKind _ _)
  slots _ hd := ((Contents.mem_slots_removeKind h.contents.slots).1 hd).1

theorem get (id : EntryId) : c.Alters Slots.Loses (c.get id).2 := by
  simp only [Cache.get]
  split <;> exact of_eq rfl rfl

theorem beginPass (candidates : List Candidate) :
    c.Alters Slots.Loses (c.beginPass candidates).2 := by
  simp only [Cache.beginPass]
  split
  · exact of_eq rfl rfl
  · exact ⟨rfl, fun hnumbered => hnumbered.begin _, fun _ hd => hd⟩

theorem finishBatch (batch : Nat) : c.Alters Slots.Loses (c.finishBatch batch).2 :=
  ⟨rfl, fun hnumbered => hnumbered.finish batch, fun _ hd => hd⟩

theorem dropWritten (candidates : List Candidate) :
    c.Alters Slots.Loses (c.dropWritten candidates).2 where
  maxSize := rfl
  numbered hnumbered := by
    refine hnumbered.remark (f := id) (fun _ => ⟨rfl, rfl⟩) ?_ ?_
    · simp [Cache.dropWritten]
    · simp [Cache.dropWritten]
  slots d hd := by
    simp only [Cache.dropWritten, Contents.slots_rebuild] at hd
    exact (Contents.mem_slots_dropAllWritten.1 hd).1

theorem empty : c.Alters Slots.Loses c.empty where
  maxSize := rfl
  numbered hnumbered := ⟨hnumbered.nodup, hnumbered.number_lt⟩
  slots _ hd := by cases hd

end Alters

theorem offerAll_gains {config : Config} {c : Cache} (h : c.Sound config) (entries : List Entry) :
    c.Alters Slots.Gains (c.offerAll entries).2 := by
  induction entries generalizing c with
  | nil => exact ⟨rfl, id, List.prefix_rfl⟩
  | cons e entries ih =>
      exact (Alters.offer h e.1 e.2).trans List.IsPrefix.trans (ih (h.offer e.1 e.2))

/-- What every request makes of a cache. -/
def Tends (c c' : Cache) : Prop := c.Alters Slots.Gains c' ∨ c.Alters Slots.Loses c'

namespace Running

variable {config : Config} {r : Running}

theorem perform_tends (h : r.cache.Sound config) (call : Call) :
    r.cache.Tends (r.perform call).2.cache := by
  cases call with
  | init =>
      show r.cache.Tends r.start.2.cache
      rw [cache_start]
      exact Or.inr (.of_eq rfl rfl)
  | save record key | update record key => exact Or.inl (.offer h key record)
  | saveBatch entries => exact Or.inl (offerAll_gains h entries)
  | get kind key | seek kind key => exact Or.inr (.get _)
  | delete kind key => exact Or.inr (.delete h _)
  | deleteBatch ids => exact Or.inr (.foldl_delete h ids)
  | clear kind => exact Or.inr (.clear h kind)
  | _ => exact Or.inr (.of_eq rfl rfl)

theorem reply?_tends (h : r.cache.Sound config) (caller now : Nat) (q : Request) :
    r.cache.Tends (r.reply? caller now q).2.cache := by
  have hwork : isAboutWork q = true → r.cache.Tends (r.reply? caller now q).2.cache := by
    intro hq
    rw [r.cache_of_isAboutWork caller now hq]
    exact Or.inr (.of_eq rfl rfl)
  cases q with
  | perform call => exact perform_tends h call
  | receive key record => exact Or.inl (.offer h key record)
  | beginEviction =>
      right
      show r.cache.Alters Slots.Loses r.cache.beginEviction.2
      simp only [Cache.beginEviction]
      split
      · exact .beginPass _
      · exact .of_eq rfl rfl
  | beginFlush => exact Or.inr (.beginPass _)
  | finishBatch batch => exact Or.inr (.finishBatch batch)
  | dropWritten candidates => exact Or.inr (.dropWritten candidates)
  | empty => exact Or.inr .empty
  | queueRequest | submit | await | nextEvent | join | beginWork => exact hwork rfl
  | _ => exact Or.inr (.of_eq rfl rfl)

end Running

/-! ## Ages -/

section

variable {κ : Type} {g : JobSystem κ} {s : WithJobs} {age : EntryId → Nat}

/-- The ages of addresses after one more event: an address that is cached has got older. -/
def WithJobs.aged (s : WithJobs) (age : EntryId → Nat) (id : EntryId) : Nat :=
  if (s.cached id).isSome then age id + 1 else 0

/-- For how many events each address has been cached without a break. -/
def JobSystem.ages (g : JobSystem κ) : WithJobs → (EntryId → Nat) → List (Event κ) → EntryId → Nat
  | _, age, [] => age
  | s, age, e :: events => g.ages (g.step s e) ((g.step s e).aged age) events

theorem step_tends (h : s.running.cache.Sound g.config) (e : Event κ) :
    s.running.cache.Tends (g.step s e).running.cache := by
  cases e with
  | offer key record => exact Or.inl (.offer h key record)
  | delete id => exact Or.inr (.delete h id)
  | clear kind => exact Or.inr (.clear h kind)
  | own call | begin job => exact Or.inr (.of_eq rfl rfl)
  | advance n now =>
      simp only [JobSystem.step, WithJobs.advance]
      split
      next q next batch hp =>
        have hr := Running.reply?_tends h n now q
        split
        next hq => rwa [hq] at hr
        next hq => rwa [hq] at hr
      next => exact Or.inr (.of_eq rfl rfl)
  | answer n verdict =>
      right
      simp only [JobSystem.step, WithJobs.answer]
      split
      next => split <;> exact .of_eq rfl rfl
      next => exact .of_eq rfl rfl

theorem WithJobs.isSome_cached (s : WithJobs) (id : EntryId) :
    (s.cached id).isSome = true ↔ id ∈ s.running.cache.contents.slots.ids := by
  rw [← Option.ne_none_iff_isSome, cached, Ne, Slots.recordAt?_eq_none_iff, Slots.mem_ids]
  push Not
  rfl

theorem WithJobs.aged_of_mem {id : EntryId} (h : id ∈ s.running.cache.contents.slots.ids) :
    s.aged age id = age id + 1 := if_pos ((s.isSome_cached id).2 h)

/-- The slots stand in the order of their ages, the oldest first. -/
structure WithJobs.InOrder (s : WithJobs) (age : EntryId → Nat) : Prop where
  eq_zero : ∀ id, id ∉ s.running.cache.contents.slots.ids → age id = 0
  ordered : s.running.cache.contents.slots.ids.Pairwise fun i j => age j ≤ age i

/-- Addresses that are appended are younger than all others, and addresses that stay keep their
order. -/
theorem WithJobs.InOrder.step {s' : WithJobs} (h : s.InOrder age)
    (hsound : s.running.cache.contents.slots.Sound)
    (hsound' : s'.running.cache.contents.slots.Sound)
    (htends : s.running.cache.Tends s'.running.cache) : s'.InOrder (s'.aged age) where
  eq_zero id hid := if_neg fun hcached => hid ((s'.isSome_cached id).1 hcached)
  ordered := by
    have hmono : s'.running.cache.contents.slots.ids.Pairwise (fun i j => age j ≤ age i) →
        s'.running.cache.contents.slots.ids.Pairwise
          (fun i j => s'.aged age j ≤ s'.aged age i) := by
      refine List.Pairwise.imp_of_mem fun hi hj hle => ?_
      rw [aged_of_mem hi, aged_of_mem hj]
      exact Nat.succ_le_succ hle
    refine hmono ?_
    rcases htends with hgains | hloses
    · obtain ⟨new, hnew⟩ := hgains.slots
      have hnodup : s'.running.cache.contents.slots.ids.Nodup := by
        have hids := hsound'.nodup_ids
        rwa [Slots.toList, List.map_map] at hids
      rw [← hnew, List.nodup_append] at hnodup
      have hzero : ∀ id ∈ new, age id = 0 := fun id hid =>
        h.eq_zero id fun hold => hnodup.2.2 id hold id hid rfl
      rw [← hnew, List.pairwise_append]
      refine ⟨h.ordered, List.pairwise_of_forall_mem_list fun i hi j hj => ?_, fun i _ j hj => ?_⟩
      · rw [hzero i hi, hzero j hj]
      · rw [hzero j hj]
        exact Nat.zero_le _
    · rw [Slots.ids_of_subset hsound hloses.slots]
      exact h.ordered.filter _

/-- What is so of every cache with jobs: the slots stand in the order of their ages, and a new batch
has a number of its own. -/
theorem run_inOrder (events : List (Event κ)) :
    (run g.step g.start events).InOrder (g.ages g.start (fun _ => 0) events) ∧
      (run g.step g.start events).running.cache.contents.Numbered ∧
      (run g.step g.start events).running.cache.maxSize = g.config.maxEntries := by
  have hall : ∀ (s : WithJobs) (age : EntryId → Nat), s.running.cache.Sound g.config →
      s.InOrder age → s.running.cache.contents.Numbered →
      (run g.step s events).InOrder (g.ages s age events) ∧
        (run g.step s events).running.cache.contents.Numbered ∧
        (run g.step s events).running.cache.maxSize = s.running.cache.maxSize := by
    induction events with
    | nil => exact fun s age _ horder hnumbered => ⟨horder, hnumbered, rfl⟩
    | cons e events ih =>
        intro s age hsound horder hnumbered
        have htends := step_tends hsound e
        have hsound' : (g.step s e).running.cache.Sound g.config := step_sound hsound e
        have hkeeps : (g.step s e).running.cache.contents.Numbered ∧
            (g.step s e).running.cache.maxSize = s.running.cache.maxSize := by
          rcases htends with h | h <;> exact ⟨h.numbered hnumbered, h.maxSize⟩
        obtain ⟨horder', hnumbered', hmax⟩ := ih (g.step s e) ((g.step s e).aged age) hsound'
          (horder.step hsound.contents.slots hsound'.contents.slots htends) hkeeps.1
        exact ⟨horder', hnumbered', hmax.trans hkeeps.2⟩
  refine hall g.start (fun _ => 0) (sound_ofConfig g.config) ⟨fun _ _ => rfl, ?_⟩ ⟨?_, ?_⟩
  · exact List.Pairwise.nil
  · exact List.nodup_nil
  · exact fun b hb => nomatch hb

end

/-! ## The pass -/

namespace Contents

/-- Dropping slots that are as they were at the look drops all of them. -/
theorem dropAllWritten_fst {l : List Candidate} {c : Contents}
    (hl : l.Pairwise (·.seq < ·.seq)) (hsub : ∀ d ∈ l, d ∈ c.slots.candidates) :
    (c.dropAllWritten l).1 = l.length := by
  induction l generalizing c with
  | nil => rfl
  | cons d l ih =>
      obtain ⟨hlt, hl⟩ := List.pairwise_cons.1 hl
      have hd := Slots.mem_candidates.1 (hsub d List.mem_cons_self)
      have hgone : (c.dropWritten d).1 = true := by
        simp only [dropWritten, Slots.removeIfVersion, hd, if_true]
      have hrest : ∀ e ∈ l, e ∈ (c.dropWritten d).2.slots.candidates := by
        intro e he
        rw [slots_dropWritten, Slots.mem_candidates_removeIfVersion]
        refine ⟨hsub e (List.mem_cons_of_mem d he), fun heq => ?_⟩
        exact absurd heq.1 (Nat.ne_of_gt (hlt e he))
      simp only [dropAllWritten, hgone, if_true, ih hl hrest, List.length_cons]

/-- Dropping the oldest slots leaves the others, in their order. -/
theorem candidates_dropAllWritten_oldest (c : Contents) (count : Nat) :
    (c.dropAllWritten (c.slots.oldest count)).2.slots.candidates
      = c.slots.candidates.drop count := by
  have hsplit : (c.slots.candidates.take count ++ c.slots.candidates.drop count).Pairwise
      (·.seq < ·.seq) := by
    rw [List.take_append_drop]
    exact Slots.pairwise_candidates
  obtain ⟨-, hdrop, hlt⟩ := List.pairwise_append.1 hsplit
  refine Slots.eq_of_pairwise Slots.pairwise_candidates hdrop fun d => ?_
  rw [mem_slots_dropAllWritten]
  constructor
  · rintro ⟨hd, hnot⟩
    rw [← List.take_append_drop count c.slots.candidates, List.mem_append] at hd
    exact hd.resolve_left fun htake => hnot d htake ⟨rfl, rfl⟩
  · intro hd
    refine ⟨List.mem_of_mem_drop hd, fun e he heq => ?_⟩
    exact absurd heq.1 (Nat.ne_of_gt (hlt e he d hd))

/-- A batch that has just begun ends without any marks, and leaves the other batches. -/
theorem Numbered.finish_begin {c : Contents} (h : c.Numbered) (slots : List Slot) :
    ((c.begin slots).2.finish c.nextBatch).1 = [] ∧
      ((c.begin slots).2.finish c.nextBatch).2.batches = c.batches := by
  constructor
  · have hmem : (⟨c.nextBatch, slots.map Slot.id, []⟩ : Batch) ∈ (c.begin slots).2.batches :=
      List.mem_append_right _ (List.mem_singleton_self _)
    exact (h.begin slots).finish_fst hmem
  · have hold : ∀ b ∈ c.batches, (b.number != c.nextBatch) = true := fun b hb =>
      bne_iff_ne.2 (Nat.ne_of_lt (h.number_lt b hb))
    show ((c.batches ++ [_]).filter fun b : Batch => b.number != c.nextBatch) = c.batches
    rw [List.filter_append, List.filter_eq_self.2 hold]
    simp

end Contents

/-- The entries of a cache, the one that was admitted first at first. -/
def entries (c : Cache) : List Entry := c.contents.slots.toList.map Slot.entry

theorem length_entries (c : Cache) : c.entries.length = c.len := by
  rw [entries, Slots.toList, List.map_map, List.length_map, Slots.length_candidates]
  rfl

theorem entries_map_id (c : Cache) : c.entries.map Entry.id = c.contents.slots.ids := by
  rw [entries, Slots.toList, List.map_map, List.map_map]
  rfl

namespace Running

theorem undisturbed?_ask {α : Type} {q : Request} {next : Reply q → Prog α} {r r' : Running}
    {a : Reply q} (hq : ∀ call, q ≠ .backend call) (h : r.reply? 0 0 q = (some a, r')) :
    undisturbed? (.ask q next) r = undisturbed? (next a) r' := by
  cases q with
  | backend call => exact absurd rfl (hq call)
  | _ => simp only [undisturbed?, h]

/-- A pass over a cache below its number has nothing to do. -/
theorem undisturbed?_evictOldest_of_not_isFull {r : Running} (h : r.cache.isFull = false)
    (name : String) : undisturbed? (Service.evictOldest name) r = some (.ok 0, r, []) := by
  have hreply : r.reply? 0 0 .beginEviction = (some none, r) := by
    simp only [reply?, beginEviction, h, Bool.false_eq_true, if_false]
  exact undisturbed?_ask (fun _ h => by cases h) hreply

/-- A pass over a full cache whose batches are numbered goes through. -/
theorem undisturbed?_evictOldest {r : Running} {p : Pass} {cache : Cache}
    (hbegin : r.cache.beginEviction = (some p, cache))
    (hfinish : (cache.finishBatch p.batch).1 = []) (name : String) :
    undisturbed? (Service.evictOldest name) r
      = some (.ok ((cache.finishBatch p.batch).2.dropWritten p.candidates).1,
        { r with cache := ((cache.finishBatch p.batch).2.dropWritten p.candidates).2 },
        [.saveBatch p.entries]) := by
  have hlook : r.reply? 0 0 .beginEviction = (some (some p), { r with cache }) := by
    simp only [reply?, hbegin]
  have hend : ({ r with cache } : Running).reply? 0 0 (.finishBatch p.batch)
      = (some [], { r with cache := (cache.finishBatch p.batch).2 }) := by
    rw [← hfinish]
    rfl
  refine (undisturbed?_ask (fun _ h => by cases h) hlook).trans ?_
  refine (congrArg (Option.map _) (undisturbed?_ask (fun _ h => by cases h) hend)).trans ?_
  rfl

end Running

/-- What an eviction pass makes of a cache with a configuration when nothing comes between its
steps.  Addresses have ages. -/
structure EvictsOldest (config : Config) (age : EntryId → Nat) (name : String) (r : Running) :
    Prop where
  /-- The entries stand in the order of their ages. -/
  ordered : (r.cache.entries.map Entry.id).Pairwise fun i j => age j ≤ age i
  /-- Below its number nothing happens to the cache. -/
  below : r.cache.len < config.maxEntries →
    r.undisturbed? (Service.evictOldest name) = some (.ok 0, r, [])
  /-- At its number or above, the oldest entries are handed over in one batch and removed. -/
  full : config.maxEntries ≤ r.cache.len → ∀ count,
    count = evictionShare config.maxEntries + (r.cache.len - config.maxEntries) →
    count ≤ r.cache.len ∧ ∃ r',
      r.undisturbed? (Service.evictOldest name)
        = some (.ok count, r', [.saveBatch (r.cache.entries.take count)]) ∧
      r'.cache.entries = r.cache.entries.drop count ∧
      r'.cache.len = config.maxEntries - evictionShare config.maxEntries ∧
      r'.cache.len < config.maxEntries
  /-- A budget of 64 bits does not make the product overflow from which the share is taken. -/
  fits : config.byteBudget < UInt64.size → evictionPercent * config.maxEntries < UInt64.size

theorem maxEntries_pos (config : Config) : 0 < config.maxEntries :=
  Nat.lt_of_lt_of_le Nat.zero_lt_one (Nat.le_max_left _ _)

theorem entries_oldest (c : Cache) (batch count : Nat) :
    Pass.entries ⟨batch, c.contents.slots.oldest count⟩ = c.entries.take count := by
  simp only [Pass.entries, Slots.oldest, entries, Slots.toList, List.map_take, List.map_map]
  rfl

/-- Dropping the oldest slots as they are removes so many entries, and leaves the others. -/
theorem dropWritten_oldest {c : Cache} {count : Nat} (hle : count ≤ c.len) :
    (c.dropWritten (c.contents.slots.oldest count)).1 = count ∧
      (c.dropWritten (c.contents.slots.oldest count)).2.entries = c.entries.drop count := by
  constructor
  · refine (Contents.dropAllWritten_fst ?_ ?_).trans ?_
    · exact Slots.pairwise_candidates.sublist (List.take_sublist _ _)
    · exact fun d hd => List.mem_of_mem_take hd
    · rw [Slots.oldest, List.length_take, Slots.length_candidates]
      exact Nat.min_eq_left hle
  · simp only [Cache.dropWritten, entries, Slots.toList, Contents.slots_rebuild,
      Contents.candidates_dropAllWritten_oldest, List.map_drop]

/-- A full cache hands over and removes as many of its oldest entries as it is to evict. -/
theorem undisturbed?_evictOldest_of_isFull {r : Running} (hpos : 0 < r.cache.maxSize)
    (hfull : r.cache.isFull = true) (hnumbered : r.cache.contents.Numbered) (name : String)
    {count : Nat} (hcount : evictionCount r.cache.maxSize r.cache.len = count)
    (hle : count ≤ r.cache.len) : ∃ r', r.undisturbed? (Service.evictOldest name)
        = some (.ok count, r', [.saveBatch (r.cache.entries.take count)]) ∧
      r'.cache.entries = r.cache.entries.drop count := by
  have hbegin := beginEviction_eq hpos hfull
  rw [hcount] at hbegin
  have hmarks := (hnumbered.finish_begin ((r.cache.contents.slots.oldest count).map (·.slot))).1
  have hrun := Running.undisturbed?_evictOldest hbegin hmarks name
  generalize hfinished : (Cache.finishBatch _ _).2 = finished at hrun
  have hslots : finished.contents.slots = r.cache.contents.slots := by
    rw [← hfinished]
    rfl
  have hlen : count ≤ finished.len := by
    rw [len, hslots]
    exact hle
  have hdrop := dropWritten_oldest hlen
  rw [hslots] at hdrop
  rw [hdrop.1, entries_oldest] at hrun
  refine ⟨_, hrun, hdrop.2.trans ?_⟩
  rw [entries, entries, hslots]

/-- An eviction pass hands over and removes the oldest entries of a cache, whatever the cache and
the programs on it did before. -/
theorem evictsOldest {κ : Type} (g : JobSystem κ) (events : List (Event κ)) (name : String) :
    EvictsOldest g.config (g.ages g.start (fun _ => 0) events) name
      (run g.step g.start events).running := by
  obtain ⟨horder, hnumbered, hmax⟩ := run_inOrder (g := g) events
  have hpos := maxEntries_pos g.config
  have hshare := evictionShare_le hpos
  refine ⟨?_, fun hlt => ?_, fun hle count hcount => ?_, fun hbudget => ?_⟩
  · rw [entries_map_id]
    exact horder.ordered
  · refine Running.undisturbed?_evictOldest_of_not_isFull ?_ name
    rw [isFull, hmax]
    exact decide_eq_false (Nat.not_le_of_lt hlt)
  · have hlen : count ≤ (run g.step g.start events).running.cache.len := by omega
    have hfull : (run g.step g.start events).running.cache.isFull = true := by
      rw [isFull, hmax]
      exact decide_eq_true hle
    obtain ⟨r', hrun, hentries⟩ := undisturbed?_evictOldest_of_isFull (hmax ▸ hpos) hfull hnumbered
      name (by rw [hmax, hcount, evictionCount_eq]) hlen
    have hlen' : r'.cache.len = g.config.maxEntries - evictionShare g.config.maxEntries := by
      rw [← length_entries, hentries, List.length_drop, length_entries]
      omega
    have hpositive := evictionShare_pos g.config.maxEntries
    exact ⟨hlen, r', hrun, hentries, hlen', by omega⟩
  · simp only [Config.maxEntries, usualRecordSize, evictionPercent, UInt64.size] at hbudget ⊢
    omega

/-- Three records come to a cache that is meant for two, and the first one is replaced. -/
def replacedFirst : WithJobs :=
  let g : JobSystem Job :=
    { config := { byteBudget := 2 * usualRecordSize }
      initial := fun _ => none
      program := Job.program "memory"
      steady := fun _ => false }
  run g.step g.start
    [.offer (.hash [1]) (.ofBytes .transaction [1]),
      .offer (.hash [2]) (.ofBytes .transaction [2]),
      .offer (.hash [3]) (.ofBytes .transaction [3]),
      .offer (.hash [1]) (.ofBytes .transaction [4])]

example : (replacedFirst.running.undisturbed? (Service.evictOldest "memory")).map
      (fun e => (e.1.toOption, e.2.1.cache.entries))
    = some (some 2, [(.hash [3], .ofBytes .transaction [3])]) := by decide +kernel

end Cache

end RecordStore
