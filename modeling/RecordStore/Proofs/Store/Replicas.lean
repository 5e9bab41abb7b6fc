import Mathlib.Data.List.Nodup
import RecordStore.Proofs.Cache.Overlap
import RecordStore.Proofs.Store.Lifetime

/-!
# Backends that are sent the same writes

A write walks along the backends of a store on its own, and nothing keeps another write from
passing it on the way.  So all backends receive the same calls, each of them once, but not all in
the same order.

A backend with its tables in memory holds under an address what was left there by the last call
that it received for the address.  Backends that held the same at first hold the same under an
address again when all writes have ended, if every two writes that leave different things there
reached all backends in the same order (`LoggedStore.replicated_run`).  They did if one had ended
before the other began (`LoggedStore.inOrder_of_ended`).  If two such writes pass each other, the
backends may differ for good (`LoggedStore.not_agree_of_crossing`).
-/

namespace RecordStore

/-! ## What calls leave behind -/

/-- What a call leaves under an address, if it stores or removes something there. -/
def Call.leaves? (id : EntryId) (call : Call) : Option (Option Record) :=
  if call.touches id then some (call.leaves id) else none

/-- Of calls that keep the metadata, what is left does not depend on what was there before. -/
theorem Records.apply_eq_leaves? {call : Call} (hcall : ∀ kind, call ≠ .clearMetadata kind)
    (t : Records) (id : EntryId) : t.apply call id = (call.leaves? id).getD (t id) := by
  rw [apply_eq_leaves hcall, Call.leaves?]
  split <;> rfl

namespace Bench.StoreStep

/-- Whether a step stores or deletes single entries, or several. -/
def isWrite : StoreStep → Bool
  | save _ _ | saveBatch _ | update _ _ _ | delete _ _ | deleteBatch _ => true
  | _ => false

/-- The call of a write keeps the metadata of entries that it does not name. -/
theorem exists_sends? {step : StoreStep} (h : step.isWrite = true) :
    ∃ call, step.sends? = some call ∧ ∀ kind, call ≠ .clearMetadata kind := by
  cases step with
  | save | saveBatch | update | delete | deleteBatch => exact ⟨_, rfl, fun _ => Call.noConfusion⟩
  | _ => cases h

end Bench.StoreStep

namespace Store

open Bench (StoreStep Value)
open Program (Exchange)

/-! ## Calls that a backend receives -/

/-- The call on a backend in an exchange, if there is one. -/
def callOn? (index : Nat) (e : Exchange Effects) : Option Call :=
  match e.1 with
  | .backend i call => if i = index then some call else none
  | _ => none

/-- The calls that a backend receives, the earliest first, with the clients that make them. -/
def receivedIn (log : List Line) (index : Nat) : List (Nat × Call) :=
  log.filterMap fun line => (callOn? index line.exchange).map (line.client, ·)

/-- What a backend receives from one client is what that client asks of it. -/
theorem filter_receivedIn (log : List Line) (index n : Nat) :
    (receivedIn log index).filter (fun received => received.1 = n)
      = ((askedIn log n).filterMap (callOn? index)).map (n, ·) := by
  induction log with
  | nil => rfl
  | cons line rest ih =>
      by_cases hn : line.client = n
      · subst hn
        have hasked : askedIn (line :: rest) line.client
            = line.exchange :: askedIn rest line.client := by simp [askedIn]
        rw [hasked, List.filterMap_cons, receivedIn, List.filterMap_cons]
        cases callOn? index line.exchange with
        | none => exact ih
        | some call => simpa [receivedIn] using ih
      · have hasked : askedIn (line :: rest) n = askedIn rest n := by simp [askedIn, hn]
        rw [hasked, receivedIn, List.filterMap_cons, ← ih]
        cases callOn? index line.exchange with
        | none => rfl
        | some call => simp [hn, receivedIn]

theorem receivedIn_concat (log : List Line) (line : Line) (index : Nat) :
    receivedIn (log ++ [line]) index
      = receivedIn log index ++ ((callOn? index line.exchange).map (line.client, ·)).toList := by
  rw [receivedIn, List.filterMap_append, List.filterMap_cons, List.filterMap_nil]
  cases callOn? index line.exchange <;> rfl

/-- Of the calls that are sent to all backends, each receives one. -/
theorem filterMap_sends (l : Layout) {call : Call} {outcomes : List call.Outcome} {index : Nat}
    (hlength : outcomes.length = l.backends.length) (hindex : index < l.backends.length) :
    (sends l outcomes).filterMap (callOn? index) = [call] := by
  have hone : ∀ {indices : List Nat}, indices.Nodup → index ∈ indices →
      indices.filterMap (fun i => if i = index then some call else none) = [call] := by
    intro indices hnodup hmem
    induction indices with
    | nil => cases hmem
    | cons i rest ih =>
        rw [List.nodup_cons] at hnodup
        by_cases hi : i = index
        · subst hi
          rw [List.filterMap_cons, if_pos rfl, List.filterMap_eq_nil_iff.2]
          intro k hk
          exact if_neg fun heq : k = i => hnodup.1 (heq ▸ hk)
        · rw [List.filterMap_cons, if_neg hi]
          exact ih hnodup.2 ((List.mem_cons.1 hmem).resolve_left (Ne.symm hi))
  have hfst : (callOn? index ∘ fun sent : Nat × call.Outcome =>
      (⟨.backend sent.1 call, sent.2⟩ : Exchange Effects))
        = (fun i => if i = index then some call else none) ∘ Prod.fst := rfl
  rw [sends, List.filterMap_map, hfst, ← List.filterMap_map, List.map_fst_zip]
  · exact hone List.nodup_range (List.mem_range.2 hindex)
  · rw [hlength, Layout.indices, List.length_range]

/-! ## The last call for an address -/

/-- What the last of several calls left under an address, if any of them left something there. -/
def lastLeft? (received : List (Nat × Call)) (id : EntryId) : Option (Option Record) :=
  received.reverse.findSome? fun call => call.2.leaves? id

/-- The last call for an address tells what is stored. -/
theorem foldl_apply_eq {received : List (Nat × Call)}
    (hcalls : ∀ call ∈ received, ∀ kind, call.2 ≠ .clearMetadata kind) (t : Records)
    (id : EntryId) : received.foldl (fun t call => t.apply call.2) t id
      = (lastLeft? received id).getD (t id) := by
  induction received generalizing t with
  | nil => rfl
  | cons call rest ih =>
      rw [List.forall_mem_cons] at hcalls
      rw [List.foldl_cons, ih hcalls.2, Records.apply_eq_leaves? hcalls.1, lastLeft?, lastLeft?,
        List.reverse_cons, List.findSome?_append]
      cases rest.reverse.findSome? fun call => call.2.leaves? id with
      | some o => rfl
      | none => cases hleaves : call.2.leaves? id <;> simp [hleaves]

theorem exists_of_lastLeft? {received : List (Nat × Call)} {id : EntryId} {o : Option Record}
    (h : lastLeft? received id = some o) : ∃ before call after,
      received = before ++ call :: after ∧ call.2.leaves? id = some o ∧
        ∀ later ∈ after, later.2.leaves? id = none := by
  obtain ⟨after, call, before, hlist, hcall, hafter⟩ := List.findSome?_eq_some_iff.1 h
  refine ⟨before.reverse, call, after.reverse, ?_, hcall, ?_⟩
  · rw [← List.reverse_reverse received, hlist]
    simp
  · intro later hlater
    exact hafter later (List.mem_reverse.1 hlater)

/-- What comes after an element in a list without repetitions stands in the rest. -/
theorem mem_of_pair_sublist {α : Type} {l before after : List α} {a b : α} (hl : l.Nodup)
    (hsplit : l = before ++ a :: after) (hpair : [a, b].Sublist l) : b ∈ after := by
  subst hsplit
  have ha : a ∉ before := fun hmem =>
    (List.nodup_append.1 hl).2.2 a hmem a List.mem_cons_self rfl
  obtain ⟨first, second, hsplit, hfirst, hsecond⟩ := List.sublist_append_iff.1 hpair
  cases first with
  | nil =>
      rw [List.nil_append] at hsplit
      rw [← hsplit, List.cons_sublist_cons] at hsecond
      exact List.singleton_sublist.1 hsecond
  | cons c first =>
      rw [List.cons_append] at hsplit
      exact absurd (hfirst.subset ((List.cons.inj hsplit).1 ▸ List.mem_cons_self)) ha

/-- Two backends that received the same calls agree about an address, if calls that leave different
things there came in the same order. -/
theorem lastLeft?_congr {received received' : List (Nat × Call)} {id : EntryId}
    (hnodup : (received.map Prod.fst).Nodup) (hperm : received.Perm received')
    (horder : ∀ c ∈ received, ∀ d ∈ received, c.2.leaves? id ≠ none → d.2.leaves? id ≠ none →
      c.2.leaves? id ≠ d.2.leaves? id →
      [c.1, d.1].Sublist (received.map Prod.fst) ∨ [d.1, c.1].Sublist (received'.map Prod.fst)) :
    lastLeft? received id = lastLeft? received' id := by
  have hnodup' : (received'.map Prod.fst).Nodup := (hperm.map Prod.fst).nodup_iff.1 hnodup
  -- no call that left something comes after the last one
  have hlast : ∀ {calls before after : List (Nat × Call)} {c d : Nat × Call},
      (calls.map Prod.fst).Nodup → calls = before ++ c :: after →
      (∀ later ∈ after, later.2.leaves? id = none) → d ∈ calls → d.2.leaves? id ≠ none →
      ¬ [c.1, d.1].Sublist (calls.map Prod.fst) := by
    intro calls before after c d hcalls hsplit hafter hd hleaves hpair
    have hfst : calls.map Prod.fst = before.map Prod.fst ++ c.1 :: after.map Prod.fst := by
      rw [hsplit, List.map_append, List.map_cons]
    obtain ⟨d', hd', heq⟩ := List.mem_map.1 (mem_of_pair_sublist hcalls hfst hpair)
    have hin : d' ∈ calls := by
      rw [hsplit]
      exact List.mem_append_right _ (List.mem_cons_of_mem _ hd')
    obtain rfl := List.inj_on_of_nodup_map hcalls hin hd heq
    exact hleaves (hafter d' hd')
  cases h : lastLeft? received id with
  | none =>
      rw [lastLeft?, List.findSome?_eq_none_iff] at h
      rw [eq_comm, lastLeft?, List.findSome?_eq_none_iff]
      intro call hcall
      exact h call (List.mem_reverse.2 (hperm.mem_iff.2 (List.mem_reverse.1 hcall)))
  | some o =>
      obtain ⟨before, c, after, hsplit, hc, hafter⟩ := exists_of_lastLeft? h
      have hcmem : c ∈ received := by
        rw [hsplit]
        exact List.mem_append_right _ List.mem_cons_self
      cases h' : lastLeft? received' id with
      | none =>
          rw [lastLeft?, List.findSome?_eq_none_iff] at h'
          rw [h' c (List.mem_reverse.2 (hperm.mem_iff.1 hcmem))] at hc
          cases hc
      | some o' =>
          obtain ⟨before', d, after', hsplit', hd, hafter'⟩ := exists_of_lastLeft? h'
          have hdmem : d ∈ received' := by
            rw [hsplit']
            exact List.mem_append_right _ List.mem_cons_self
          by_contra hne
          have hcd : c.2.leaves? id ≠ d.2.leaves? id := by rwa [hc, hd]
          have hcleaves : c.2.leaves? id ≠ none := by rw [hc]; exact Option.some_ne_none o
          have hdleaves : d.2.leaves? id ≠ none := by rw [hd]; exact Option.some_ne_none o'
          rcases horder c hcmem d (hperm.mem_iff.2 hdmem) hcleaves hdleaves hcd with hpair | hpair
          · exact hlast hnodup hsplit hafter (hperm.mem_iff.2 hdmem) hdleaves hpair
          · exact hlast hnodup' hsplit' hafter' (hperm.mem_iff.1 hcmem) hcleaves hpair

/-! ## With many clients -/

namespace LoggedStore

/-- A store without a cache over backends with their tables in memory. -/
def LoggedSystem.inMemory (backends : List String) (listeners : Listener)
    (initial : Nat → Memory) : LoggedSystem (Nat → Memory) where
  layout := { cache := none, backends, listeners }
  answer
    | .backend index call, memories =>
        (.ok ((memories index).perform call).1,
          Function.update memories index ((memories index).perform call).2)
    | q, memories => (blankReply q, memories)
  initial

/-- The calls that a backend has received, the earliest first, with the clients that made them. -/
def received {σ : Type} (s : LoggedStore σ) (index : Nat) : List (Nat × Call) :=
  receivedIn s.log index

/-- What the operation of a client leaves under an address, if it is a write that leaves something
there. -/
def leaves? {σ : Type} (s : LoggedStore σ) (id : EntryId) (n : Nat) : Option (Option Record) :=
  ((s.operation? n).bind StoreStep.sends?).bind (Call.leaves? id)

/-- The call of one client reached every backend before that of another. -/
def InOrder {σ : Type} (s : LoggedStore σ) (count m n : Nat) : Prop :=
  ∀ index < count, [m, n].Sublist ((s.received index).map Prod.fst)

instance {σ : Type} (s : LoggedStore σ) (count m n : Nat) : Decidable (s.InOrder count m n) :=
  inferInstanceAs (Decidable (∀ index < count, [m, n].Sublist ((s.received index).map Prod.fst)))

/-- Two operations leave different things under an address. -/
def Clash {σ : Type} (s : LoggedStore σ) (id : EntryId) (m n : Nat) : Prop :=
  s.leaves? id m ≠ none ∧ s.leaves? id n ≠ none ∧ s.leaves? id m ≠ s.leaves? id n

instance {σ : Type} (s : LoggedStore σ) (id : EntryId) (m n : Nat) : Decidable (s.Clash id m n) :=
  inferInstanceAs (Decidable (_ ∧ _ ∧ _))

/-- Every two operations that leave different things under an address reached all backends in the
same order. -/
def Ordered {σ : Type} (s : LoggedStore σ) (count : Nat) (id : EntryId) : Prop :=
  ∀ m < s.clients.length, ∀ n < s.clients.length, s.Clash id m n →
    s.InOrder count m n ∨ s.InOrder count n m

instance {σ : Type} (s : LoggedStore σ) (count : Nat) (id : EntryId) :
    Decidable (s.Ordered count id) :=
  inferInstanceAs (Decidable (∀ m < s.clients.length, ∀ n < s.clients.length, s.Clash id m n →
    s.InOrder count m n ∨ s.InOrder count n m))

/-- What backends hold that were sent the same writes. -/
structure Replicated (s : LoggedStore (Nat → Memory)) (count : Nat) (t : Records) : Prop where
  /-- A backend has received one call of each client, -/
  once : ∀ i < count, ((s.received i).map Prod.fst).Nodup
  /-- the one that the operation sends to all backends. -/
  sent : ∀ i < count, ∀ n call,
    (n, call) ∈ s.received i ↔ (s.operation? n).bind StoreStep.sends? = some call
  /-- A backend holds what the last call for an address has left there. -/
  latest : ∀ i < count, ∀ id,
    (s.components i).records id = (lastLeft? (s.received i) id).getD (t id)
  /-- Backends hold the same where the order of the calls was the same. -/
  agree : ∀ id, s.Ordered count id → ∀ i < count, ∀ j < count,
    (s.components i).records id = (s.components j).records id

variable {backends : List String} {listeners : Listener} {initial : Nat → Memory}
  {s : LoggedStore (Nat → Memory)}

/-- Every backend has carried out what it received. -/
theorem records_go (index : Nat) (n : Nat)
    (h : (s.components index).records
      = (s.received index).foldl (fun t call => t.apply call.2) (initial index).records) :
    ((s.go (.inMemory backends listeners initial) n).components index).records
      = ((s.go (.inMemory backends listeners initial) n).received index).foldl
          (fun t call => t.apply call.2) (initial index).records := by
  obtain ⟨heq, -⟩ | ⟨step, q, next, -, heq⟩ := go_cases (.inMemory backends listeners initial) s n
  · rwa [heq]
  · rw [heq, received, receivedIn_concat, List.foldl_append]
    refine Eq.trans ?_ (congrArg (List.foldl _ · _) h)
    cases q with
    | backend i call =>
        show (Function.update s.components i ((s.components i).perform call).2 index).records = _
        by_cases hi : i = index
        · subst hi
          rw [Function.update_self, Memory.records_perform]
          simp [callOn?]
        · rw [Function.update_of_ne (Ne.symm hi)]
          simp [callOn?, hi]
    | _ => rfl

theorem records_run (backends : List String) (listeners : Listener) (initial : Nat → Memory)
    (events : List Event) (index : Nat) (s : LoggedStore (Nat → Memory))
    (h : (s.components index).records
      = (s.received index).foldl (fun t call => t.apply call.2) (initial index).records) :
    ((run (LoggedSystem.inMemory backends listeners initial).step s events).components
        index).records
      = ((run (LoggedSystem.inMemory backends listeners initial).step s events).received
          index).foldl (fun t call => t.apply call.2) (initial index).records := by
  refine run_keeps (Q := fun s : LoggedStore (Nat → Memory) => (s.components index).records
    = (s.received index).foldl (fun t call => t.apply call.2) (initial index).records)
    (fun s e hs => ?_) h events
  cases e with
  | begin step => exact hs
  | go n => exact records_go index n hs

/-- Clients that have come to write, and have ended. -/
structure AllWritten {σ : Type} (s : LoggedStore σ) : Prop where
  isWrite : ∀ c ∈ s.clients, c.step.isWrite = true
  hasEnded : ∀ c ∈ s.clients, c.hasEnded = true

theorem AllWritten.isWrite_of_operation? {σ : Type} {s : LoggedStore σ} (h : s.AllWritten) {n : Nat}
    {step : StoreStep} (hstep : s.operation? n = some step) : step.isWrite = true := by
  obtain ⟨c, hc, rfl⟩ := Option.map_eq_some_iff.1 hstep
  exact h.isWrite c (List.mem_of_getElem? hc)

section

variable {σ : Type} {g : LoggedSystem σ} {s : LoggedStore σ} {n index : Nat} {step : StoreStep}

/-- Nobody closes a store where all come to write. -/
theorem Consistent.isOpen_of_isWrite (h : Consistent g s)
    (hwrites : ∀ n step, s.operation? n = some step → step.isWrite = true) : s.isOpen = true := by
  by_contra hclosed
  obtain ⟨n, hn, -⟩ := h.exists_closes (Bool.not_eq_true _ ▸ hclosed)
  cases hwrites n _ hn

/-- A write that has ended has sent its call to every backend once. -/
theorem Consistent.filter_received (h : Consistent g s) (hopen : s.isOpen = true)
    (hcache : g.layout.cache = none) (hindex : index < g.layout.backends.length)
    (hstep : s.operation? n = some step) (hwrite : step.isWrite = true)
    (hended : (s.value? n).isSome = true) :
    (s.received index).filter (fun received => received.1 = n)
      = (step.sends?.map (n, ·)).toList := by
  obtain ⟨p, hc, hadvances⟩ := h.advances_of_operation? hstep
  obtain ⟨value, hvalue⟩ := Option.isSome_iff_exists.1 hended
  obtain ⟨call, hcall, -⟩ := StoreStep.exists_sends? hwrite
  have hopens : step.opens true = ⟨.isOpen, true⟩ :=
    opens_of_ne_shutdown (by rintro rfl; cases hwrite) true
  rcases h.opening hstep with hnone | hrefused | ⟨rest, hrest⟩
  · -- an operation that has not begun has not ended
    obtain ⟨q, next, hop⟩ := operation_eq_ask g.layout step
    rw [hnone] at hadvances
    rw [value?, hc, hadvances.eq_of_nil, hop] at hvalue
    cases hvalue
  · rw [h.isOpen_of_refused hrefused] at hopen
    cases hopen
  · obtain ⟨τ, reply, t, hfirst, -, hall⟩ := h.performs hstep hrest
    rw [hopens] at hfirst
    obtain ⟨told, outcomes, hfans⟩ := exists_fansOut reply g.layout hcall hfirst
    have hasked : askedIn s.log n = _ := ((hall value).1 hvalue).1
    have htold : told = [] := by
      rw [← List.length_eq_zero_iff, hfans.told_length, hcache, Option.isSome_none, Bool.and_false]
      rfl
    have hannounces : (announces step outcomes).filterMap (callOn? index) = [] := by
      rw [announces, List.filterMap_map, List.filterMap_eq_nil_iff]
      exact fun _ _ => rfl
    rw [received, filter_receivedIn, hasked, hfans.asked, htold, List.map_nil,
      List.filterMap_append, hannounces, List.append_nil, List.cons_append, List.nil_append,
      List.filterMap_cons, filterMap_sends g.layout hfans.outcomes_length hindex, hcall]
    rfl

/-- What a backend receives from a client, if there is one. -/
theorem Consistent.filter_received_eq (h : Consistent g s) (hcache : g.layout.cache = none)
    (hwritten : s.AllWritten) (hindex : index < g.layout.backends.length) (n : Nat) :
    (s.received index).filter (fun received => received.1 = n)
      = (((s.operation? n).bind StoreStep.sends?).map (n, ·)).toList := by
  cases hstep : s.operation? n with
  | none =>
      rw [received, filter_receivedIn,
        show askedIn s.log n = [] from h.asked_of_operation?_eq_none hstep]
      rfl
  | some step =>
      have hopen := h.isOpen_of_isWrite fun _ _ => hwritten.isWrite_of_operation?
      have hwrite := hwritten.isWrite_of_operation? hstep
      obtain ⟨c, hc, rfl⟩ := Option.map_eq_some_iff.1 hstep
      refine h.filter_received hopen hcache hindex hstep hwrite ?_
      rw [value?, hc]
      exact hwritten.hasEnded c (List.mem_of_getElem? hc)

theorem Consistent.mem_received (h : Consistent g s) (hcache : g.layout.cache = none)
    (hwritten : s.AllWritten) (hindex : index < g.layout.backends.length) {call : Call} :
    (n, call) ∈ s.received index ↔ (s.operation? n).bind StoreStep.sends? = some call := by
  have hfilter := h.filter_received_eq hcache hwritten hindex n
  have hmem : (n, call) ∈ s.received index
      ↔ (n, call) ∈ (s.received index).filter fun received => received.1 = n := by
    simp [List.mem_filter]
  rw [hmem, hfilter]
  cases (s.operation? n).bind StoreStep.sends? <;> simp [eq_comm]

/-- A backend receives one call of each client. -/
theorem Consistent.nodup_received (h : Consistent g s) (hcache : g.layout.cache = none)
    (hwritten : s.AllWritten) (hindex : index < g.layout.backends.length) :
    ((s.received index).map Prod.fst).Nodup := by
  rw [List.nodup_iff_count_le_one]
  intro n
  have hcount : ((s.received index).map Prod.fst).count n
      = ((s.received index).filter fun received => received.1 = n).length := by
    rw [List.count, List.countP_map, List.countP_eq_length_filter]
    rfl
  rw [hcount, h.filter_received_eq hcache hwritten hindex n]
  cases (s.operation? n).bind StoreStep.sends? <;> simp

theorem Consistent.keeps_of_mem_received (h : Consistent g s) (hcache : g.layout.cache = none)
    (hwritten : s.AllWritten) (hindex : index < g.layout.backends.length) {call : Call}
    (hmem : (n, call) ∈ s.received index) (kind : Kind) : call ≠ .clearMetadata kind := by
  obtain ⟨step, hstep, hcall⟩ :=
    Option.bind_eq_some_iff.1 ((h.mem_received hcache hwritten hindex).1 hmem)
  obtain ⟨call', hcall', hkeeps⟩ := StoreStep.exists_sends? (hwritten.isWrite_of_operation? hstep)
  rw [hcall] at hcall'
  obtain rfl := Option.some.inj hcall'
  exact hkeeps kind

/-- Whose call a backend receives is a client, and leaves what its call leaves. -/
theorem Consistent.leaves?_of_mem_received (h : Consistent g s) (hcache : g.layout.cache = none)
    (hwritten : s.AllWritten) (hindex : index < g.layout.backends.length) {call : Call}
    (hmem : (n, call) ∈ s.received index) (id : EntryId) :
    n < s.clients.length ∧ s.leaves? id n = call.leaves? id := by
  have hsends := (h.mem_received hcache hwritten hindex).1 hmem
  obtain ⟨step, hstep, -⟩ := Option.bind_eq_some_iff.1 hsends
  obtain ⟨client, hclient, -⟩ := Option.map_eq_some_iff.1 hstep
  exact ⟨(List.getElem?_eq_some_iff.1 hclient).1, by rw [leaves?, hsends, Option.bind_some]⟩

/-- Backends that received calls for an address in the same order agree about what was left
there. -/
theorem Consistent.lastLeft?_eq (h : Consistent g s) (hcache : g.layout.cache = none)
    (hwritten : s.AllWritten) {id : EntryId} (hordered : s.Ordered g.layout.backends.length id)
    {i j : Nat} (hi : i < g.layout.backends.length) (hj : j < g.layout.backends.length) :
    lastLeft? (s.received i) id = lastLeft? (s.received j) id := by
  have honce := h.nodup_received hcache hwritten hi
  have hperm : (s.received i).Perm (s.received j) := by
    rw [List.perm_ext_iff_of_nodup honce.of_map (h.nodup_received hcache hwritten hj).of_map]
    rintro ⟨n, call⟩
    rw [h.mem_received hcache hwritten hi, h.mem_received hcache hwritten hj]
  refine lastLeft?_congr honce hperm ?_
  rintro ⟨m, c⟩ hc ⟨n, d⟩ hd hcleaves hdleaves hne
  obtain ⟨hm, hmleaves⟩ := h.leaves?_of_mem_received hcache hwritten hi hc id
  obtain ⟨hn, hnleaves⟩ := h.leaves?_of_mem_received hcache hwritten hi hd id
  rw [← hmleaves] at hcleaves hne
  rw [← hnleaves] at hdleaves hne
  rcases hordered m hm n hn ⟨hcleaves, hdleaves, hne⟩ with hmn | hnm
  · exact Or.inl (hmn i hi)
  · exact Or.inr (hnm j hj)

end

/-- All backends receive the same writes, each of them once.  What they hold in the end is what the
last call for an address has left, and it is the same at all of them if calls that leave different
things came in the same order everywhere. -/
theorem replicated_run {backends : List String} (listeners : Listener) {initial : Nat → Memory}
    {t : Records} (hequal : ∀ index < backends.length, (initial index).records = t)
    {events : List Event} (hwritten : AllWritten
      (run (LoggedSystem.inMemory backends listeners initial).step
        (LoggedSystem.inMemory backends listeners initial).start events)) :
    Replicated (run (LoggedSystem.inMemory backends listeners initial).step
      (LoggedSystem.inMemory backends listeners initial).start events) backends.length t := by
  have h := consistent_run (LoggedSystem.inMemory backends listeners initial) events
  have hrecords := fun index => records_run backends listeners initial events index
    (LoggedSystem.inMemory backends listeners initial).start rfl
  generalize run (LoggedSystem.inMemory backends listeners initial).step
    (LoggedSystem.inMemory backends listeners initial).start events = s at h hrecords hwritten ⊢
  have hlatest : ∀ i < backends.length, ∀ id,
      (s.components i).records id = (lastLeft? (s.received i) id).getD (t id) := by
    intro i hi id
    rw [hrecords i, hequal i hi]
    exact foldl_apply_eq (fun call => h.keeps_of_mem_received rfl hwritten hi) t id
  refine ⟨fun i hi => h.nodup_received rfl hwritten hi,
    fun i hi n call => h.mem_received rfl hwritten hi, hlatest, fun id hordered i hi j hj => ?_⟩
  rw [hlatest i hi, hlatest j hj, h.lastLeft?_eq rfl hwritten hordered hi hj]

/-- Operations reach all backends in order if one has ended before the other begins. -/
theorem inOrder_of_ended {σ : Type} {g : LoggedSystem σ} (hcache : g.layout.cache = none)
    {first second : List Event} {m n : Nat}
    (hwritten : (run g.step g.start (first ++ second)).AllWritten)
    (hm : ((run g.step g.start first).value? m).isSome = true)
    (hn : (run g.step g.start first).asked n = [])
    (hknown : n < (run g.step g.start (first ++ second)).clients.length) :
    (run g.step g.start (first ++ second)).InOrder g.layout.backends.length m n := by
  intro index hindex
  have hearlier := consistent_run g first
  have hlater := consistent_run g (first ++ second)
  rw [run_append] at hwritten hknown hlater ⊢
  obtain ⟨more, hmore⟩ := log_run g (run g.step g.start first) second
  have hreceived : (run g.step (run g.step g.start first) second).received index
      = (run g.step g.start first).received index ++ receivedIn more index := by
    rw [received, ← hmore, receivedIn, List.filterMap_append]
    rfl
  have hisWrite : ∀ k step, (run g.step g.start first).operation? k = some step →
      step.isWrite = true :=
    fun k step hk => hwritten.isWrite_of_operation? (operation?_run g hk second)
  -- the first has reached the backend already
  have hmem : m ∈ ((run g.step g.start first).received index).map Prod.fst := by
    obtain ⟨value, hvalue⟩ := Option.isSome_iff_exists.1 hm
    obtain ⟨c, hc, -⟩ := Option.bind_eq_some_iff.1 hvalue
    have hstep : (run g.step g.start first).operation? m = some c.step :=
      Option.map_eq_some_iff.2 ⟨c, hc, rfl⟩
    have hwrite := hisWrite m _ hstep
    obtain ⟨call, hcall, -⟩ := StoreStep.exists_sends? hwrite
    have hfilter := hearlier.filter_received (hearlier.isOpen_of_isWrite hisWrite) hcache hindex
      hstep hwrite hm
    rw [hcall, Option.map_some, Option.toList_some] at hfilter
    have hin : (m, call) ∈ (run g.step g.start first).received index :=
      List.mem_of_mem_filter (hfilter ▸ List.mem_singleton_self _)
    exact List.mem_map_of_mem hin
  -- and the second reaches it later
  have hlate : n ∈ (receivedIn more index).map Prod.fst := by
    obtain ⟨call, hcall, -⟩ :=
      StoreStep.exists_sends? (hwritten.isWrite _ (List.getElem_mem hknown))
    have hin : (n, call) ∈ (run g.step (run g.step g.start first) second).received index := by
      rw [hlater.mem_received hcache hwritten hindex, operation?,
        List.getElem?_eq_getElem hknown, Option.map_some, Option.bind_some, hcall]
    rw [hreceived] at hin
    rcases List.mem_append.1 hin with hin | hin
    · have hfilter := filter_receivedIn (run g.step g.start first).log index n
      rw [show askedIn (run g.step g.start first).log n = [] from hn] at hfilter
      exact absurd (decide_eq_true rfl) (List.filter_eq_nil_iff.1 hfilter _ hin)
    · exact List.mem_map_of_mem hin
  rw [hreceived, List.map_append]
  exact (List.singleton_sublist.2 hmem).append (List.singleton_sublist.2 hlate)

/-- Two saves of a record under one key, one after the other, and a removal of another record that
passes both of them. -/
def inTurn : List Event :=
  [.begin (.save (.ofBytes .transaction [1]) (.hash [1])),
    .begin (.delete .transaction (.hash [2])),
    .begin (.save (.ofBytes .transaction [2]) (.hash [1])), .go 0, .go 1, .go 0, .go 1, .go 0,
    .go 2, .go 2, .go 2, .go 1]

/-- Both backends hold the record of the second save. -/
theorem replicated_run_inTurn :
    (run (LoggedSystem.inMemory ["a", "b"] (.group []) fun _ => {}).step
      (LoggedSystem.inMemory ["a", "b"] (.group []) fun _ => {}).start inTurn).AllWritten ∧
    (run (LoggedSystem.inMemory ["a", "b"] (.group []) fun _ => {}).step
      (LoggedSystem.inMemory ["a", "b"] (.group []) fun _ => {}).start inTurn).Ordered 2
        ⟨.transaction, .hash [1]⟩ ∧
    ∀ index < 2, ((run (LoggedSystem.inMemory ["a", "b"] (.group []) fun _ => {}).step
      (LoggedSystem.inMemory ["a", "b"] (.group []) fun _ => {}).start inTurn).components
        index).records ⟨.transaction, .hash [1]⟩ = some (.ofBytes .transaction [2]) := by
  have hwritten : (run (LoggedSystem.inMemory ["a", "b"] (.group []) fun _ => {}).step
      (LoggedSystem.inMemory ["a", "b"] (.group []) fun _ => {}).start inTurn).AllWritten :=
    ⟨by decide +kernel, by decide +kernel⟩
  have hordered : (run (LoggedSystem.inMemory ["a", "b"] (.group []) fun _ => {}).step
      (LoggedSystem.inMemory ["a", "b"] (.group []) fun _ => {}).start inTurn).Ordered 2
        ⟨.transaction, .hash [1]⟩ := by decide +kernel
  have hreplicated := replicated_run (.group []) (fun _ _ => rfl) hwritten
  refine ⟨hwritten, hordered, fun index hindex => ?_⟩
  rw [hreplicated.agree _ hordered index hindex 0 (by decide)]
  decide +kernel

/-- Two saves of different records under one key that pass each other between the backends. -/
def crossing : List Event :=
  [.begin (.save (.ofBytes .transaction [1]) (.hash [1])),
    .begin (.save (.ofBytes .transaction [2]) (.hash [1])), .go 0, .go 0, .go 1, .go 1, .go 1,
    .go 0]

/-- Backends may differ when all writes have ended. -/
theorem not_agree_of_crossing :
    ¬ ∀ events : List Event, (run (LoggedSystem.inMemory ["a", "b"] (.group []) fun _ => {}).step
        (LoggedSystem.inMemory ["a", "b"] (.group []) fun _ => {}).start events).AllWritten →
      ∀ i < 2, ∀ j < 2, ∀ id,
        ((run (LoggedSystem.inMemory ["a", "b"] (.group []) fun _ => {}).step
          (LoggedSystem.inMemory ["a", "b"] (.group []) fun _ =>
            {}).start events).components i).records id
        = ((run (LoggedSystem.inMemory ["a", "b"] (.group []) fun _ => {}).step
          (LoggedSystem.inMemory ["a", "b"] (.group []) fun _ =>
            {}).start events).components j).records id := by
  intro h
  have hagree := h crossing ⟨by decide +kernel, by decide +kernel⟩ 0 (by decide) 1 (by decide)
    ⟨.transaction, .hash [1]⟩
  revert hagree
  decide +kernel

end LoggedStore

end Store

end RecordStore
