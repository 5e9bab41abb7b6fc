import Mathlib.Data.List.Nodup
import RecordStore.Proofs.Store.Lifetime

/-!
# Calls that come after a shutdown

An operation looks once whether the store is open.  If the store is closed while the operation is
under way, it goes on to its end, so it may call a backend that was shut down meanwhile
(`LoggedStore.straggles_afterShutdown`).

Nobody else does so.  A call on a backend after the shutdown of the backend is made by an operation
that found the store open before it was closed, and it is no shutdown
(`LoggedStore.opened_of_straggler`).
-/

namespace RecordStore

namespace Store

open Bench (StoreStep Value)
open Program (Exchange)

/-! ## A shutdown asks nothing twice -/

/-- How a part is called. -/
def Part.request (call : Call) : Part → Request
  | .cache _ => .cache call
  | .backend index _ => .backend index call

theorem Part.fst_exchange (part : Part) (call : Call) (outcome : call.Outcome) :
    (part.exchange call outcome).1 = part.request call := by
  cases part <;> rfl

theorem nodup_requests (l : Layout) (call : Call) : (l.parts.map (Part.request call)).Nodup := by
  have hindices : (l.numbered.map Prod.fst).Nodup := by
    have hsub : l.numbered.map Prod.fst = l.indices := by
      rw [Layout.numbered, List.map_fst_zip]
      rw [Layout.indices, List.length_range]
    rw [hsub]
    exact List.nodup_range
  have hbackends : (l.numbered.map fun b => Request.backend b.1 call).Nodup := by
    have := hindices.map (f := fun index => Request.backend index call) fun a b h => by cases h; rfl
    rwa [List.map_map] at this
  rw [Layout.parts, List.map_append, List.map_map, List.map_map]
  cases l.cache with
  | none => exact hbackends
  | some name =>
      refine List.nodup_cons.2 ⟨fun hmem => ?_, hbackends⟩
      obtain ⟨b, -, heq⟩ := List.mem_map.1 hmem
      cases heq

theorem requests_visits {call : Call} {parts : List Part} {outcomes : List call.Outcome}
    (hlength : outcomes.length = parts.length) :
    (visits call parts outcomes).map Sigma.fst = parts.map (Part.request call) := by
  rw [visits, List.map_map]
  have hfst : (Sigma.fst ∘ fun visit : Part × call.Outcome => visit.1.exchange call visit.2)
      = Part.request call ∘ Prod.fst := funext fun visit => visit.1.fst_exchange call visit.2
  rw [hfst, ← List.map_map, List.map_fst_zip hlength.ge]

/-- The shutdown that closes the store asks nothing twice. -/
theorem nodup_closingOf {l : Layout} {outcomes : List (Except Failure Unit)}
    (hlength : outcomes.length = l.parts.length) :
    ((closingOf l outcomes).map Sigma.fst).Nodup := by
  have hrequests : (closingOf l outcomes).map Sigma.fst
      = Request.close :: l.parts.map (Part.request .shutdown) ++ [Request.notify .shutdown] := by
    rw [closingOf, List.map_append, List.map_cons, requests_visits hlength]
    rfl
  have hpart : ∀ q ∈ l.parts.map (Part.request .shutdown),
      q ≠ Request.close ∧ q ≠ Request.notify .shutdown := by
    intro q hq
    obtain ⟨part, -, rfl⟩ := List.mem_map.1 hq
    cases part <;> exact ⟨Request.noConfusion, Request.noConfusion⟩
  rw [hrequests, List.cons_append, List.nodup_cons, List.nodup_append]
  refine ⟨?_, nodup_requests l .shutdown, List.nodup_singleton _, ?_⟩
  · intro hmem
    rcases List.mem_append.1 hmem with hmem | hmem
    · exact (hpart _ hmem).1 rfl
    · cases List.mem_singleton.1 hmem
  · intro q hq q' hq'
    rw [List.mem_singleton.1 hq']
    exact (hpart q hq).2

/-! ## With many clients -/

namespace LoggedStore

variable {σ : Type} {g : LoggedSystem σ} {s : LoggedStore σ}

theorem told?_of_backend {line : Line} {index : Nat} {call : Call}
    (h : line.exchange.1 = .backend index call) : line.told? = none := by
  obtain ⟨client, q, a⟩ := line
  obtain rfl : q = .backend index call := h
  rfl

theorem called?_of_backend {line : Line} {index : Nat} {call : Call}
    (h : line.exchange.1 = .backend index call) : line.exchange.1.called? = some call := by
  rw [h]
  rfl

/-- A client that shuts the store down makes every request once. -/
theorem Consistent.ne_of_closes (h : Consistent g s) {i j : Nat} {first second : Line}
    (hfirst : s.log[i]? = some first) (hsecond : s.log[j]? = some second) (hij : i < j)
    (hcloses : s.Closes first.client) (hclient : second.client = first.client) :
    first.exchange.1 ≠ second.exchange.1 := by
  intro heq
  obtain ⟨outcomes, hlength, ⟨hasked, -⟩, -⟩ := h.lifecycle.closes _ hcloses
  have hnodup : ((s.asked first.client).map Sigma.fst).Nodup :=
    (nodup_closingOf hlength).sublist (hasked.sublist.map _)
  rw [← hclient, asked, askedIn_of_getElem? hsecond, List.map_append, List.nodup_append] at hnodup
  refine hnodup.2.2 first.exchange.1 ?_ second.exchange.1 List.mem_cons_self heq
  refine List.mem_map_of_mem (mem_askedIn.2 ?_)
  rw [hclient]
  exact List.mem_of_getElem? ((List.getElem?_take_of_lt hij).trans hfirst)

/-- A call on a backend that comes after the shutdown of the backend is no shutdown, and it is made
by an operation that found the store open before it was closed. -/
theorem opened_of_straggler (g : LoggedSystem σ) (events : List Event) {k m : Nat}
    {shut late : Line} {index : Nat} {call : Call} (hkm : k < m)
    (hshut : (run g.step g.start events).log[k]? = some shut)
    (hshutCall : shut.exchange.1 = .backend index .shutdown)
    (hlate : (run g.step g.start events).log[m]? = some late)
    (hlateCall : late.exchange.1 = .backend index call) :
    call ≠ .shutdown ∧ ∃ i j, i < j ∧ j < k ∧
      (run g.step g.start events).log[i]? = some ⟨late.client, .isOpen, true⟩ ∧
      (run g.step g.start events).log[j]? = some ⟨shut.client, .close, true⟩ := by
  have h := consistent_run g events
  obtain ⟨step, hstep⟩ := h.exists_operation? (List.mem_of_getElem? hshut)
  obtain rfl := eq_shutdown_of_call? (h.call?_eq (mem_asked.2 (List.mem_of_getElem? hshut))
    (called?_of_backend hshutCall) hstep)
  obtain ⟨other, hother⟩ := h.exists_operation? (List.mem_of_getElem? hlate)
  have hcall := h.call?_eq (mem_asked.2 (List.mem_of_getElem? hlate))
    (called?_of_backend hlateCall) hother
  obtain ⟨j, hjk, hj⟩ := h.exists_opening hshut (told?_of_backend hshutCall) hstep
  obtain ⟨i, -, hi⟩ := h.exists_opening hlate (told?_of_backend hlateCall) hother
  by_cases hshutdown : other = .shutdown
  · -- there is no second shutdown, and the first makes every call once
    subst hshutdown
    obtain rfl := Option.some.inj hcall
    have hcloses : (run g.step g.start events).Closes shut.client :=
      ⟨hstep, mem_asked.2 (List.mem_of_getElem? hj)⟩
    have hclient : late.client = shut.client :=
      h.eq_of_closes ⟨hother, mem_asked.2 (List.mem_of_getElem? hi)⟩ hcloses
    exact absurd (hshutCall.trans hlateCall.symm) (h.ne_of_closes hshut hlate hkm hcloses hclient)
  · rw [opens_of_ne_shutdown hshutdown] at hi
    refine ⟨?_, i, j, h.lt_of_closes hi hj, hjk, hi, hj⟩
    rintro rfl
    exact hshutdown (eq_shutdown_of_call? hcall)

/-- A store over two backends that take everything. -/
def LoggedSystem.pair : LoggedSystem Unit where
  layout := { cache := none, backends := ["a", "b"], listeners := .group [] }
  answer q s := (blankReply q, s)
  initial := ()

/-- A record is saved in the first backend.  Then the store is shut down, and after that the save
goes on with the second backend. -/
def afterShutdown : List Event :=
  [.begin (.save (.ofBytes .transaction [1]) (.hash [1])), .begin .shutdown, .go 0, .go 0, .go 1,
    .go 1, .go 1, .go 1, .go 0]

/-- The save found the store open before it was closed. -/
theorem opened_of_straggler_afterShutdown :
    ∃ i j, i < j ∧ j < 4 ∧
      (run LoggedSystem.pair.step LoggedSystem.pair.start afterShutdown).log[i]? = some
        ⟨0, .isOpen, true⟩ ∧
      (run LoggedSystem.pair.step LoggedSystem.pair.start afterShutdown).log[j]? = some
        ⟨1, .close, true⟩ :=
  (opened_of_straggler LoggedSystem.pair afterShutdown (k := 4) (m := 6)
    (by decide) rfl rfl rfl rfl).2

/-- An operation that is under way when the store is shut down may call a backend that was shut
down. -/
theorem straggles_afterShutdown :
    ¬ ∀ (events : List Event) (k m : Nat) (shut late : Line) (index : Nat) (call : Call), k < m →
      (run LoggedSystem.pair.step LoggedSystem.pair.start events).log[k]? = some shut →
      shut.exchange.1 = .backend index .shutdown →
      (run LoggedSystem.pair.step LoggedSystem.pair.start events).log[m]? = some late →
      late.exchange.1 = .backend index call → call = .shutdown := by
  intro h
  have := h afterShutdown 4 6 _ _ 1 _ (by decide) rfl rfl rfl rfl
  cases this

end LoggedStore

end Store

end RecordStore
