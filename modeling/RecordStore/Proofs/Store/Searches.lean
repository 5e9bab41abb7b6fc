import RecordStore.Proofs.Store.Answers
import RecordStore.Proofs.Store.Requests

/-!
# What a search asks for

A search asks the cache, and then the backends in order, up to the first one that has
something or fails.  All eight searches of a store are one program with parameters
(`Store.search`), so they differ only in the call that is sent, in what an answer has, and
in what is offered to the cache in the end.

As for writes, the environment may be anything.  What a search asks is told by the outcomes
of the components that it gets to: one of the cache, if there is one, and one of each backend
asked (`Store.FirstMatch`).
-/

namespace RecordStore

namespace Call

/-- Whether an answer to a search has something. -/
def hits : (call : Call) → call.Answer → Bool
  | has _ _, b | mayHave _ _, b => b
  | get _ _, r | seek _ _, r => r.isSome
  | first _, e | latest _, e | next _ _, e | previous _ _, e => e.isSome
  | _, _ => false

/-- Whether an outcome at a backend ends a search: the backend has something, or fails. -/
def settles {call : Call} : call.Outcome → Bool
  | .ok a => call.hits a
  | .error _ => true

end Call

namespace Bench.StoreStep

/-- The call that a step sends to one component after the other, if it searches. -/
def searches? : StoreStep → Option Call
  | load kind key => some (.get kind key)
  | find kind raw => some (.seek kind raw)
  | has kind key => some (.has kind key)
  | mayHave kind key => some (.mayHave kind key)
  | first kind => some (.first kind)
  | latest kind => some (.latest kind)
  | next kind key => some (.next kind key)
  | previous kind key => some (.previous kind key)
  | _ => none

end Bench.StoreStep

namespace Store

open Bench (StoreStep Value)
open Program (Exchange)

variable {call : Call} {σ α : Type}

/-- A component that has nothing gives no hit. -/
theorem hits_blank (call : Call) : call.hits call.blank = false := by
  cases call <;> rfl

/-! ## How a search goes -/

/-- How backends are asked in a search: one after the other, up to the first that settles it. -/
structure UpToFirst (indices : List Nat) (outcomes : List call.Outcome) : Prop where
  length_le : outcomes.length ≤ indices.length
  /-- None but the last that is asked settles the search. -/
  unsettled : ∀ outcome ∈ outcomes.dropLast, Call.settles outcome = false
  /-- If none of those that are asked settles it, all are asked. -/
  complete : (∀ outcome ∈ outcomes, Call.settles outcome = false) →
    outcomes.length = indices.length

/-- What the cache gives back, if it has something. -/
def hit? (told : List call.Outcome) : Option call.Outcome :=
  told.find? (Call.accepts call.hits)

/-- The value of a search: what the cache has, or else the first backend that has something or
fails, or else the empty answer. -/
def findings (l : Layout) (told outcomes : List call.Outcome) : Value :=
  match hit? told with
  | some hit => .ofOutcome call hit
  | none =>
      match (l.indices.zip outcomes).find? fun sent => Call.settles sent.2 with
      | some (_, .ok a) => .ofAnswer call a
      | some (index, .error e) => .storeError (.backend index e)
      | none => .ofAnswer call call.blank

/-- The offers of a search, with what the cache made of them. -/
def offers (offered : List (Entry × Bool)) : List (Exchange Effects) :=
  offered.map fun offer => ⟨.offer offer.1.1 offer.1.2, offer.2⟩

/-- How a search goes at an open store.  A cache that fails counts as one that has nothing. -/
structure FirstMatch (reply : (q : Request) → σ → Reply q × σ) (l : Layout) (step : StoreStep)
    (s : σ) (told outcomes : List call.Outcome) (offered : List (Entry × Bool)) : Prop where
  told_length : told.length = if l.cache.isSome then 1 else 0
  /-- No backend is asked if the cache has something. -/
  of_hit : (hit? told).isSome = true → outcomes = []
  of_miss : hit? told = none → UpToFirst l.indices outcomes
  /-- The entry that a backend has found is offered to the cache once, and nothing else is. -/
  offered_eq : offered.map (·.1)
    = if l.cache.isSome then ((outcomes.find? Call.settles).bind call.found?).toList else []
  /-- Everything that is asked, in order. -/
  asked : (step.operation l).exchanges reply s = ⟨.isOpen, true⟩ ::
    told.map (fun outcome => ⟨.cache call, outcome⟩) ++ sends l outcomes ++ offers offered
  value : ((step.operation l).run reply s).1 = findings l told outcomes

/-! ## The backends -/

theorem upToFirst_nil : UpToFirst [] ([] : List call.Outcome) where
  length_le := Nat.zero_le _
  unsettled := by simp
  complete := by simp

/-- A backend that settles the search is the last. -/
theorem upToFirst_singleton {outcome : call.Outcome} (h : Call.settles outcome = true)
    (index : Nat) (rest : List Nat) : UpToFirst (index :: rest) [outcome] where
  length_le := by simp
  unsettled := by simp
  complete hall := by
    rw [hall outcome (List.mem_singleton_self _)] at h
    cases h

/-- A backend that does not settle the search is followed by the next. -/
theorem UpToFirst.cons {outcome : call.Outcome} {outcomes : List call.Outcome} {rest : List Nat}
    (h : UpToFirst rest outcomes) (hout : Call.settles outcome = false) (index : Nat) :
    UpToFirst (index :: rest) (outcome :: outcomes) where
  length_le := by simpa using h.length_le
  unsettled o ho := by
    cases outcomes with
    | nil => simp at ho
    | cons o' os =>
        rw [List.dropLast_cons_cons, List.mem_cons] at ho
        rcases ho with rfl | ho
        · exact hout
        · exact h.unsettled o ho
  complete hall := by
    rw [List.length_cons, List.length_cons,
      h.complete fun o ho => hall o (List.mem_cons_of_mem _ ho)]

/-- What comes out of the backends that were asked. -/
def settled (found? : call.Answer → Option α) (sent : List (Nat × call.Outcome)) :
    Result (Option α) :=
  match sent.find? fun sent => Call.settles sent.2 with
  | some (_, .ok a) => .ok (found? a)
  | some (index, .error e) => .error (.backend index e)
  | none => .ok none

theorem settled_hit {found? : call.Answer → Option α} {a : call.Answer} (h : call.hits a = true)
    (index : Nat) (sent : List (Nat × call.Outcome)) :
    settled found? ((index, .ok a) :: sent) = .ok (found? a) := by
  have hsettles : Call.settles (.ok a : call.Outcome) = true := h
  simp only [settled, List.find?_cons, hsettles]

theorem settled_empty {found? : call.Answer → Option α} {a : call.Answer}
    (h : call.hits a = false) (index : Nat) (sent : List (Nat × call.Outcome)) :
    settled found? ((index, .ok a) :: sent) = settled found? sent := by
  have hsettles : Call.settles (.ok a : call.Outcome) = false := h
  simp only [settled, List.find?_cons, hsettles]

section

variable (reply : (q : Request) → σ → Reply q × σ)

theorem exchanges_searchBackends {found? : call.Answer → Option α}
    (hfound : ∀ a, (found? a).isSome = call.hits a) (indices : List Nat) (s : σ) :
    ∃ outcomes : List call.Outcome, UpToFirst indices outcomes ∧
      (searchBackends call found? indices).exchanges reply s
        = (indices.zip outcomes).map (fun sent => ⟨.backend sent.1 call, sent.2⟩) ∧
      ((searchBackends call found? indices).run reply s).1
        = settled found? (indices.zip outcomes) := by
  induction indices generalizing s with
  | nil => exact ⟨[], upToFirst_nil, rfl, rfl⟩
  | cons index rest ih =>
      simp only [searchBackends, Bind.bind, ask, Program.bind, Program.exchanges, Program.run]
      cases hreply : (reply (.backend index call) s).1 with
      | error e =>
          have hsettles : Call.settles (.error e : call.Outcome) = true := rfl
          refine ⟨[.error e], upToFirst_singleton hsettles _ _, ?_⟩
          rw [List.zip_cons_cons, List.zip_nil_right]
          exact ⟨rfl, rfl⟩
      | ok a =>
          cases hf : found? a with
          | some b =>
              have hits : call.hits a = true := by rw [← hfound, hf, Option.isSome_some]
              have hsettles : Call.settles (.ok a : call.Outcome) = true := hits
              refine ⟨[.ok a], upToFirst_singleton hsettles _ _, ?_⟩
              rw [List.zip_cons_cons, List.zip_nil_right, settled_hit hits, hf]
              simp only [hf]
              exact ⟨rfl, rfl⟩
          | none =>
              have hits : call.hits a = false := by rw [← hfound, hf, Option.isSome_none]
              have hsettles : Call.settles (.ok a : call.Outcome) = false := hits
              obtain ⟨outcomes, hup, hasked, hrun⟩ := ih (reply (.backend index call) s).2
              refine ⟨.ok a :: outcomes, hup.cons hsettles index, ?_⟩
              rw [List.zip_cons_cons, List.map_cons, ← hasked, settled_empty hits, ← hrun]
              constructor
              · simp only [hf]
              · simp only [hf]

/-- What the cache counts as answering: what it answers, or nothing if it fails. -/
def toldAnswer (told : List call.Outcome) : call.Answer :=
  (told.head?.bind Except.toOption).getD call.blank

theorem hit?_eq {told : List call.Outcome} (h : told.length ≤ 1) : hit? told
    = if call.hits (toldAnswer told) then some (.ok (toldAnswer told)) else none := by
  cases told with
  | nil => simp [hit?, toldAnswer, hits_blank]
  | cons outcome rest =>
      have hrest : rest = [] := by simpa using h
      subst hrest
      cases outcome with
      | error e => simp [hit?, toldAnswer, Call.accepts, Except.toOption, hits_blank]
      | ok a =>
          cases hits : call.hits a <;>
            simp [hit?, toldAnswer, Call.accepts, Except.toOption, hits]

theorem exchanges_askCache (l : Layout) (call : Call) (s : σ) :
    ∃ told : List call.Outcome, told.length = (if l.cache.isSome then 1 else 0) ∧
      (askCache l call).exchanges reply s = told.map (fun outcome => ⟨.cache call, outcome⟩) ∧
      ((askCache l call).run reply s).1 = toldAnswer told := by
  cases hcache : l.cache with
  | none =>
      simp only [askCache, hcache, Option.isNone_none, if_true]
      exact ⟨[], rfl, rfl, rfl⟩
  | some name =>
      simp only [askCache, hcache, Option.isNone_some, Bool.false_eq_true, if_false, Bind.bind,
        ask, Program.bind, Program.exchanges, Program.run]
      refine ⟨[(reply (.cache call) s).1], rfl, ?_, ?_⟩
      · cases (reply (.cache call) s).1 <;> rfl
      · cases (reply (.cache call) s).1 <;> rfl

/-- Offers what was found to the cache, if anything was. -/
def offering (l : Layout) : Option Entry → Prog Unit
  | some e => readThrough l e
  | none => pure ()

theorem exchanges_offering (l : Layout) (found : Option Entry) (s : σ) :
    ∃ offered : List (Entry × Bool),
      offered.map (·.1) = (if l.cache.isSome then found.toList else []) ∧
      (offering l found).exchanges reply s = offers offered := by
  cases found with
  | none => exact ⟨[], by simp, rfl⟩
  | some e =>
      simp only [offering, readThrough]
      split
      · exact ⟨[(e, (reply (.offer e.1 e.2) s).1)], rfl, rfl⟩
      · exact ⟨[], rfl, rfl⟩

/-- What the backends have found, offered to the cache as far as it may be. -/
def offerFound (l : Layout) (admissible : α → Option Entry) :
    Result (Option α) → Prog (Result (Option α))
  | .ok (some a) => (offering l (admissible a)).bind fun _ => .done (.ok (some a))
  | other => .done other

/-- What a search does once the cache was asked. -/
def afterCache (l : Layout) (call : Call) (found? : call.Answer → Option α)
    (admissible : α → Option Entry) : Option α → Prog (Result (Option α))
  | some a => .done (.ok (some a))
  | none => (searchBackends call found? l.indices).bind (offerFound l admissible)

theorem search_eq (l : Layout) (call : Call) (found? : call.Answer → Option α)
    (admissible : α → Option Entry) : search l call found? admissible
      = opened ((askCache l call).bind fun answer =>
          afterCache l call found? admissible (found? answer)) := by
  rw [search]
  congr 1
  refine congrArg (Program.bind (askCache l call)) ?_
  funext answer
  cases found? answer with
  | some a => rfl
  | none =>
      refine congrArg (Program.bind (searchBackends call found? l.indices)) ?_
      funext result
      cases result with
      | error e => rfl
      | ok found =>
          cases found with
          | none => rfl
          | some a =>
              dsimp only [offerFound]
              cases admissible a <;> rfl

theorem exchanges_offerFound (l : Layout) (admissible : α → Option Entry)
    (result : Result (Option α)) (s : σ) :
    ∃ offered : List (Entry × Bool), offered.map (·.1)
        = (if l.cache.isSome then (result.toOption.join.bind admissible).toList else []) ∧
      (offerFound l admissible result).exchanges reply s = offers offered ∧
      ((offerFound l admissible result).run reply s).1 = result := by
  cases result with
  | error e => exact ⟨[], by simp [Except.toOption], rfl, rfl⟩
  | ok found =>
      cases found with
      | none => exact ⟨[], by simp [Except.toOption], rfl, rfl⟩
      | some a =>
          obtain ⟨offered, hoffered, hasked⟩ := exchanges_offering reply l (admissible a) s
          refine ⟨offered, hoffered, ?_, ?_⟩
          · exact (exchanges_map reply _ _ s).trans hasked
          · exact run_map reply _ _ s

/-- What may be offered is the entry of the backend that settles the search. -/
theorem bind_settled {found? : call.Answer → Option α} {admissible : α → Option Entry}
    (hadmissible : ∀ a, (found? a).bind admissible = call.entry? a)
    (sent : List (Nat × call.Outcome)) :
    (settled found? sent).toOption.join.bind admissible
      = ((sent.map (·.2)).find? Call.settles).bind call.found? := by
  rw [List.find?_map, settled, Function.comp_def]
  cases sent.find? fun sent => Call.settles sent.2 with
  | none => rfl
  | some sent =>
      obtain ⟨index, outcome⟩ := sent
      cases outcome with
      | error e => rfl
      | ok a => exact hadmissible a

theorem exchanges_afterCache (l : Layout) {found? : call.Answer → Option α}
    {admissible : α → Option Entry} (hfound : ∀ a, (found? a).isSome = call.hits a)
    (hadmissible : ∀ a, (found? a).bind admissible = call.entry? a) (s : σ) :
    ∃ (outcomes : List call.Outcome) (offered : List (Entry × Bool)),
      UpToFirst l.indices outcomes ∧
      offered.map (·.1) = (if l.cache.isSome then
        ((outcomes.find? Call.settles).bind call.found?).toList else []) ∧
      (afterCache l call found? admissible none).exchanges reply s
        = sends l outcomes ++ offers offered ∧
      ((afterCache l call found? admissible none).run reply s).1
        = settled found? (l.indices.zip outcomes) := by
  obtain ⟨outcomes, hup, hsent, hrun⟩ := exchanges_searchBackends reply hfound l.indices s
  obtain ⟨offered, hoffered, hasked, hresult⟩ := exchanges_offerFound reply l admissible
    (settled found? (l.indices.zip outcomes))
    ((searchBackends call found? l.indices).run reply s).2
  refine ⟨outcomes, offered, hup, ?_, ?_, ?_⟩
  · rw [hoffered, bind_settled hadmissible, List.map_snd_zip hup.length_le]
  · rw [afterCache, Program.exchanges_bind, hsent, hrun, hasked]
    rfl
  · rw [afterCache, Program.run_bind, hrun, hresult]

end

/-! ## Steps that search -/

section

variable (reply : (q : Request) → σ → Reply q × σ) (l : Layout) {s : σ}

/-- A step that makes its value of what a search has found. -/
theorem firstMatch_of_search {step : StoreStep} {found? : call.Answer → Option α}
    {admissible : α → Option Entry} {value : Option α → Value}
    (hopen : (reply .isOpen s).1 = true)
    (hstep : step.operation l
      = (search l call found? admissible).bind fun r => .done (Value.ofResult value r))
    (hfound : ∀ a, (found? a).isSome = call.hits a)
    (hadmissible : ∀ a, (found? a).bind admissible = call.entry? a)
    (hhit : ∀ a, call.hits a = true → value (found? a) = .ofAnswer call a)
    (hempty : value none = .ofAnswer call call.blank) :
    ∃ (told outcomes : List call.Outcome) (offered : List (Entry × Bool)),
      FirstMatch reply l step s told outcomes offered := by
  obtain ⟨told, htold, hcache, hanswer⟩ := exchanges_askCache reply l call (reply .isOpen s).2
  have hlength : told.length ≤ 1 := by
    rw [htold]
    split <;> simp
  have hhit? := hit?_eq hlength
  have hasked : (step.operation l).exchanges reply s = ⟨.isOpen, true⟩ ::
      told.map (fun outcome => ⟨.cache call, outcome⟩) ++
        (afterCache l call found? admissible (found? (toldAnswer told))).exchanges reply
          ((askCache l call).run reply (reply .isOpen s).2).2 := by
    rw [hstep, exchanges_map, search_eq, exchanges_opened reply hopen, Program.exchanges_bind,
      hcache, hanswer, List.cons_append]
  have hrun : ((step.operation l).run reply s).1 = .ofResult value
      ((afterCache l call found? admissible (found? (toldAnswer told))).run reply
        ((askCache l call).run reply (reply .isOpen s).2).2).1 := by
    rw [hstep, run_map, search_eq, run_opened reply hopen, Program.run_bind, hanswer]
  cases hf : found? (toldAnswer told) with
  | some a =>
      have hits : call.hits (toldAnswer told) = true := by rw [← hfound, hf, Option.isSome_some]
      rw [hits, if_pos rfl] at hhit?
      refine ⟨told, [], [], htold, fun _ => rfl, ?_, by simp, ?_, ?_⟩
      · intro h
        rw [hhit?] at h
        cases h
      · rw [hasked, hf, sends, List.zip_nil_right, List.map_nil, List.append_nil]
        rfl
      · rw [hrun, findings, hhit?, hf]
        exact (congrArg value hf.symm).trans (hhit _ hits)
  | none =>
      have hits : call.hits (toldAnswer told) = false := by
        rw [← hfound, hf, Option.isSome_none]
      rw [hits, if_neg Bool.false_ne_true] at hhit?
      obtain ⟨outcomes, offered, hup, hoffered, hsent, hresult⟩ := exchanges_afterCache reply l
        hfound hadmissible ((askCache l call).run reply (reply .isOpen s).2).2
      refine ⟨told, outcomes, offered, htold, ?_, fun _ => hup, hoffered, ?_, ?_⟩
      · intro h
        rw [hhit?] at h
        cases h
      · rw [hasked, hf, hsent, List.append_assoc]
      · rw [hrun, hf, hresult, findings, hhit?, settled]
        cases hfind : (l.indices.zip outcomes).find? fun sent => Call.settles sent.2 with
        | none => exact hempty
        | some sent =>
            obtain ⟨index, outcome⟩ := sent
            have hsettles : Call.settles outcome = true :=
              List.find?_some (p := fun sent : Nat × call.Outcome => Call.settles sent.2) hfind
            cases outcome with
            | error e => rfl
            | ok a => exact hhit a hsettles

/-- A search for mere existence makes its value of whether something was found. -/
theorem searchYes_bind (call : Call) (answer : call.Answer → Bool) :
    ((searchYes l call answer).bind fun r => .done (Value.ofResult .bool r))
      = (search l call (fun a => whenTrue (answer a)) fun _ => none).bind fun r =>
          .done (Value.ofResult (fun found => .bool found.isSome) r) := by
  refine (Program.bind_assoc _ _ _).trans (congrArg (Program.bind _) ?_)
  funext result
  cases result <;> rfl

/-- A step that answers whether any component says yes has nothing to offer. -/
theorem firstMatch_of_searchYes {step : StoreStep} {answer : call.Answer → Bool}
    (hopen : (reply .isOpen s).1 = true)
    (hstep : step.operation l
      = (search l call (fun a => whenTrue (answer a)) fun _ => none).bind fun r =>
          .done (Value.ofResult (fun found => .bool found.isSome) r))
    (hanswer : ∀ a, answer a = call.hits a) (hentry : ∀ a, none = call.entry? a)
    (hvalue : ∀ a, Value.bool (answer a) = .ofAnswer call a) :
    ∃ (told outcomes : List call.Outcome) (offered : List (Entry × Bool)),
      FirstMatch reply l step s told outcomes offered := by
  have hfound : ∀ a, (whenTrue (answer a)).isSome = answer a := by
    intro a
    cases answer a <;> rfl
  have hblank : answer call.blank = false := by rw [hanswer, hits_blank]
  refine firstMatch_of_search reply l hopen hstep (fun a => ?_) (fun a => ?_) (fun a _ => ?_) ?_
  · rw [hfound, hanswer]
  · rw [Option.bind_fun_none, hentry]
  · rw [hfound, hvalue]
  · rw [← hvalue, hblank]
    rfl

/-- A step that gives an entry offers what it gives. -/
theorem firstMatch_of_neighbor {step : StoreStep} {found? : call.Answer → Option Entry}
    (hopen : (reply .isOpen s).1 = true)
    (hstep : step.operation l
      = (search l call found? some).bind fun r => .done (Value.ofResult .entry r))
    (hfound : ∀ a, (found? a).isSome = call.hits a) (hentry : ∀ a, found? a = call.entry? a)
    (hvalue : ∀ a, Value.entry (found? a) = .ofAnswer call a)
    (hblank : found? call.blank = none) :
    ∃ (told outcomes : List call.Outcome) (offered : List (Entry × Bool)),
      FirstMatch reply l step s told outcomes offered := by
  refine firstMatch_of_search reply l hopen hstep hfound (fun a => ?_) (fun a _ => hvalue a) ?_
  · rw [Option.bind_fun_some, hentry]
  · rw [← hvalue, hblank]

/-- A search at an open store asks the cache, and, unless that has something, one backend after
the other up to the first that has something or fails, and none after it.  Its value is what was
found, or the failure with the number of the backend, or the empty answer.  An entry that a backend
has found is offered to the cache once, under the key it was found at, and nothing else is. -/
theorem search_firstMatch {step : StoreStep} (hcall : step.searches? = some call)
    (hopen : (reply .isOpen s).1 = true) :
    ∃ (told outcomes : List call.Outcome) (offered : List (Entry × Bool)),
      FirstMatch reply l step s told outcomes offered := by
  cases step with
  | load kind key =>
      cases hcall
      have hstep : (StoreStep.load kind key).operation l
          = (search l (.get kind key) id fun r => some (key, r)).bind fun r =>
              .done (.ofResult .record r) := rfl
      refine firstMatch_of_search reply l hopen hstep (fun a => rfl) (fun a => ?_)
        (fun a _ => rfl) rfl
      cases a <;> rfl
  | find kind raw =>
      cases hcall
      have hstep : (StoreStep.find kind raw).operation l
          = (search l (.seek kind raw) id fun r => some (.ofRaw kind raw, r)).bind fun r =>
              .done (.ofResult .record r) := rfl
      refine firstMatch_of_search reply l hopen hstep (fun a => rfl) (fun a => ?_)
        (fun a _ => rfl) rfl
      cases a <;> rfl
  | has kind key =>
      cases hcall
      exact firstMatch_of_searchYes reply l hopen (searchYes_bind l (.has kind key) id)
        (fun a => rfl) (fun a => rfl) fun a => rfl
  | mayHave kind key =>
      cases hcall
      exact firstMatch_of_searchYes reply l hopen (searchYes_bind l (.mayHave kind key) id)
        (fun a => rfl) (fun a => rfl) fun a => rfl
  | first | latest | next | previous =>
      cases hcall
      exact firstMatch_of_neighbor reply l hopen rfl (fun a => rfl) (fun a => rfl)
        (fun a => rfl) rfl
  | _ => cases hcall

end

/-- An environment in which the cache fails, and the second backend has a record under every
key. -/
def secondHolds (q : Request) (s : Unit) : Reply q × Unit :=
  (match q with
  | .isOpen | .close | .offer _ _ => true
  | .cache _ => .error (.reported "cache")
  | .backend 1 (.get kind _) => .ok (some (.ofBytes kind [7]))
  | .backend _ call => .ok call.blank
  | .notify _ => (), s)

/-- Two of the four backends are asked, and the record of the second is given back and offered to
the cache, although the cache failed. -/
theorem search_firstMatch_secondHolds :
    Bench.StoreStep.searches? (.load .transaction (.hash [1]))
        = some (.get .transaction (.hash [1])) ∧
      (secondHolds .isOpen ()).1 = true ∧
      ∃ (told outcomes : List (Call.get .transaction (.hash [1])).Outcome)
        (offered : List (Entry × Bool)),
        FirstMatch secondHolds fourBackends (.load .transaction (.hash [1])) () told outcomes
          offered ∧
        findings fourBackends told outcomes = .record (some (.ofBytes .transaction [7])) ∧
        ((StoreStep.load .transaction (.hash [1])).operation fourBackends).exchanges
            secondHolds () =
          [⟨.isOpen, true⟩,
            ⟨.cache (.get .transaction (.hash [1])), .error (.reported "cache")⟩,
            ⟨.backend 0 (.get .transaction (.hash [1])), .ok none⟩,
            ⟨.backend 1 (.get .transaction (.hash [1])), .ok (some (.ofBytes .transaction [7]))⟩,
            ⟨.offer (.hash [1]) (.ofBytes .transaction [7]), true⟩] := by
  have hcall : Bench.StoreStep.searches? (.load .transaction (.hash [1]))
      = some (.get .transaction (.hash [1])) := rfl
  have hopen : (secondHolds .isOpen ()).1 = true := rfl
  obtain ⟨told, outcomes, offered, hfirst⟩ :=
    search_firstMatch secondHolds fourBackends hcall hopen
  refine ⟨hcall, hopen, told, outcomes, offered, hfirst, ?_, rfl⟩
  rw [← hfirst.value]
  decide

end Store

end RecordStore
