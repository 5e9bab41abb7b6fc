import RecordStore.Proofs.Store.Lifetime

/-!
# What the leaves of a tree of listeners hear

A *position* in a tree of listeners says which member to go to, level by level.  The positions of
the leaves, as they are read from left to right, are strictly increasing (`pairwise_positions`), so
every leaf has its own, even where one listener was registered twice.  A notice reaches the leaf at
every position, in this order and once (`notify_eq_positions`).

A store tells its listeners of what was carried out: an update, an event, and its own shutdown.  An
operation says so at its very end (`Tells`).  So whatever the components do and however the
operations of clients mix, the leaves hear of every operation that was carried out once, in reading
order and with its arguments, and of nothing else (`LoggedStore.announcements_in_reading_order`).
-/

namespace RecordStore

/-! ## Trees of listeners -/

namespace Listener

/-- The listener at a position in a tree. -/
def memberAt? : List Nat → Listener → Option Listener
  | [], l => some l
  | i :: path, l => l.members[i]?.bind (memberAt? path)

mutual

/-- The positions of the leaves of a tree, from left to right. -/
def positions : Listener → List (List Nat)
  | leaf _ _ => [[]]
  | group members => positionsFrom 0 members

/-- The positions of the leaves of several trees, which are members with consecutive numbers. -/
def positionsFrom : Nat → List Listener → List (List Nat)
  | _, [] => []
  | i, l :: rest => l.positions.map (i :: ·) ++ positionsFrom (i + 1) rest

end

variable {i : Nat} {path : List Nat} {l : Listener} {ls : List Listener}

theorem mem_positionsFrom : path ∈ positionsFrom i ls ↔
    ∃ j rest, path = (i + j) :: rest ∧ ∃ l, ls[j]? = some l ∧ rest ∈ l.positions := by
  induction ls generalizing i with
  | nil => simp [positionsFrom]
  | cons l ls ih =>
      rw [positionsFrom, List.mem_append, List.mem_map, ih]
      constructor
      · rintro (⟨rest, hrest, rfl⟩ | ⟨j, rest, rfl, m, hm, hrest⟩)
        · exact ⟨0, rest, rfl, l, rfl, hrest⟩
        · exact ⟨j + 1, rest, by rw [Nat.add_assoc, Nat.add_comm 1], m, hm, hrest⟩
      · rintro ⟨_ | j, rest, rfl, m, hm, hrest⟩
        · obtain rfl := Option.some.inj hm
          exact .inl ⟨rest, hrest, rfl⟩
        · exact .inr ⟨j, rest, by rw [Nat.add_assoc, Nat.add_comm 1], m, hm, hrest⟩

/-- Every leaf of a tree has its position, and nothing else has one. -/
theorem mem_positions : path ∈ l.positions ↔
    ∃ number quiet, l.memberAt? path = some (leaf number quiet) := by
  induction path generalizing l with
  | nil =>
      cases l with
      | leaf number quiet => simp [positions, memberAt?]
      | group members => simp [positions, memberAt?, mem_positionsFrom]
  | cons i path ih =>
      cases l with
      | leaf number quiet => simp [positions, memberAt?, members]
      | group members =>
          rw [positions, mem_positionsFrom, memberAt?]
          constructor
          · rintro ⟨j, rest, hpath, m, hm, hrest⟩
            obtain ⟨rfl, rfl⟩ := List.cons.inj hpath
            obtain ⟨number, quiet, hleaf⟩ := ih.1 hrest
            refine ⟨number, quiet, Option.bind_eq_some_iff.2 ⟨m, ?_, hleaf⟩⟩
            rwa [Nat.zero_add]
          · rintro ⟨number, quiet, h⟩
            obtain ⟨m, hm, hleaf⟩ := Option.bind_eq_some_iff.1 h
            exact ⟨i, path, by rw [Nat.zero_add], m, hm, ih.2 ⟨number, quiet, hleaf⟩⟩

mutual

/-- Leaves are read in the order of their positions. -/
theorem pairwise_positions : ∀ l : Listener, l.positions.Pairwise (· < ·)
  | leaf _ _ => List.pairwise_singleton _ _
  | group members => by
      rw [positions]
      exact pairwise_positionsFrom 0 members

theorem pairwise_positionsFrom : ∀ (i : Nat) (ls : List Listener),
    (positionsFrom i ls).Pairwise (· < ·)
  | _, [] => List.Pairwise.nil
  | i, l :: rest => by
      rw [positionsFrom, List.pairwise_append, List.pairwise_map]
      refine ⟨(pairwise_positions l).imp List.cons_lt_cons_self.2,
        pairwise_positionsFrom (i + 1) rest, fun a ha b hb => ?_⟩
      obtain ⟨path, -, rfl⟩ := List.mem_map.1 ha
      obtain ⟨j, path', rfl, -⟩ := mem_positionsFrom.1 hb
      exact List.cons_lt_cons_iff.2 (.inl (by omega))

end

example : (group [leaf 0 false, group [], group [leaf 1 false, leaf 0 false]]).positions
    = [[0], [2, 0], [2, 1]] := by decide

/-- What a listener does with a notice that reaches it, unless it is a group. -/
def hears (n : Notice) : Listener → Option Delivery
  | leaf number quiet => if ignores quiet n then none else some ⟨number, n⟩
  | group _ => none

/-- What the leaf at a position does with a notice. -/
def heardAt (n : Notice) (l : Listener) (path : List Nat) : Option Delivery :=
  (l.memberAt? path).bind (hears n)

theorem heardAt_group {before rest : List Listener} (n : Notice) (path : List Nat) :
    heardAt n (group (before ++ l :: rest)) (before.length :: path) = heardAt n l path := by
  rw [heardAt, memberAt?, members, List.getElem?_append_right (Nat.le_refl _), Nat.sub_self]
  rfl

mutual

/-- A notice reaches the leaf at every position once, in reading order. -/
theorem notify_eq_positions (n : Notice) : ∀ l : Listener,
    l.notify n = l.positions.filterMap (heardAt n l)
  | leaf number quiet => by
      rw [notify, positions, List.filterMap_cons, heardAt, memberAt?, Option.bind_some, hears]
      cases ignores quiet n <;> rfl
  | group members => by
      rw [notify, positions]
      exact notifyAll_eq_positionsFrom n [] members

/-- A group goes on with the members after those that it has told. -/
theorem notifyAll_eq_positionsFrom (n : Notice) : ∀ before ls : List Listener,
    notifyAll n ls
      = (positionsFrom before.length ls).filterMap (heardAt n (group (before ++ ls)))
  | _, [] => rfl
  | before, l :: rest => by
      have hrest := notifyAll_eq_positionsFrom n (before ++ [l]) rest
      rw [List.length_append, List.length_singleton, List.append_assoc,
        List.singleton_append] at hrest
      rw [notifyAll, positionsFrom, List.filterMap_append, List.filterMap_map, ← hrest,
        notify_eq_positions n l]
      exact congrArg (· ++ _) (List.filterMap_congr fun path _ => (heardAt_group n path).symm)

end

end Listener

/-! ## Operations that tell listeners -/

namespace Bench.StoreStep

/-- Whether an operation that ended with a value was carried out.  A shutdown was, unless it found
the store closed: what becomes of the parts keeps the listeners from nothing. -/
def carriedOut : StoreStep → Value → Bool
  | shutdown, .storeError .closed => false
  | shutdown, _ => true
  | _, .storeError _ => false
  | _, _ => true

/-- What an operation that ended with a value has told the listeners. -/
def told? (step : StoreStep) (v : Value) : Option Notice :=
  if step.carriedOut v then step.tells? else none

end Bench.StoreStep

namespace Store

open Bench (StoreStep Value)
open Program (Exchange)

/-- The notice of a request, if it is one. -/
def Request.notice? : Request → Option Notice
  | .notify n => some n
  | _ => none

/-- What an operation asks while it has told the listeners nothing.  Once it has told them, it asks
nothing more. -/
inductive Tells : Option Notice → (q : Request) → (Reply q → Option Notice) → Prop where
  | notify {n : Notice} : Tells none (.notify n) fun _ => some n
  | other {q : Request} (h : q.notice? = none) : Tells none q fun _ => none

/-- Shutting parts down tells nobody anything, and no part fails as the store does when it is
closed. -/
theorem obeys_tells_stopAll (failure : Option Error) (hfailure : failure ≠ some .closed)
    (parts : List Part) :
    (stopAll failure parts).Obeys Tells (fun told e => told = none ∧ e ≠ some .closed) none := by
  induction parts generalizing failure with
  | nil => exact ⟨rfl, hfailure⟩
  | cons part rest ih =>
      have hask : Stays Tells none (part.ask .shutdown) := by
        cases part with
        | cache name => exact .ask (.other rfl)
        | backend index name => exact .ask (.other rfl)
      refine Program.Obeys.bind hask ?_
      rintro _ outcome rfl
      refine ih _ ?_
      cases failure with
      | some e => exact hfailure
      | none => cases outcome <;> nofun

/-- The shutdown that closes a store tells the listeners whatever becomes of the parts. -/
theorem obeys_tells_shutdown (l : Layout) :
    (StoreStep.shutdown.operation l).Obeys Tells (fun told v => told = StoreStep.shutdown.told? v)
      none := by
  have hclose : (close l).Obeys Tells
      (fun told r => told = StoreStep.shutdown.told? (.ofResult (fun _ => .unit) r)) none := by
    refine (obeys_tells_stopAll none nofun l.parts).bind ?_
    rintro _ failure ⟨rfl, hfailure⟩
    refine ⟨_, .notify, fun _ => ?_⟩
    cases failure with
    | none => rfl
    | some e =>
        cases e with
        | closed => exact absurd rfl hfailure
        | _ => rfl
  refine obeys_map (p := shutdown l) ?_ fun _ _ h => h
  rw [shutdown_eq]
  refine ⟨fun _ => none, .other rfl, fun wasOpen => ?_⟩
  cases wasOpen with
  | false => rfl
  | true => exact hclose

/-- An operation tells the listeners at its end, of what it was asked to do, if it was carried
out. -/
theorem obeys_tells (l : Layout) (step : StoreStep) :
    (step.operation l).Obeys Tells (fun told v => told = step.told? v) none := by
  have hsilent : step.tells? = none →
      (step.operation l).Obeys Tells (fun told v => told = step.told? v) none := by
    intro hnone
    have hstep : step ≠ .shutdown := by
      rintro rfl
      cases hnone
    have hstays : Stays Tells none (step.operation l) :=
      .operation hstep (.other rfl) (fun _ _ _ => .other rfl) (fun _ _ _ _ => .other rfl)
        (fun _ _ _ _ => .other rfl) fun n hn => by rw [hnone] at hn; cases hn
    refine hstays.imp ?_
    rintro _ v rfl
    rw [StoreStep.told?, hnone, ite_self]
  cases step with
  | shutdown => exact obeys_tells_shutdown l
  | publish message args =>
      refine ⟨fun _ => none, .other rfl, fun isOpen => ?_⟩
      cases isOpen with
      | false => rfl
      | true => exact ⟨_, .notify, fun _ => rfl⟩
  | update record key reason =>
      have hwrite : Stays Tells none (write l (.update record key reason) id) :=
        .write (.other rfl) (fun _ => .other rfl) fun _ _ => .other rfl
      have hupdate : (update l record key reason).Obeys Tells
          (fun told r => told = (StoreStep.update record key reason).told? (.ofResult .bool r))
          none := by
        refine Program.Obeys.bind hwrite ?_
        rintro _ r rfl
        cases r with
        | error e => rfl
        | ok accepted => exact ⟨_, .notify, fun _ => rfl⟩
      exact obeys_map hupdate fun _ _ h => h
  | _ => exact hsilent rfl

/-! ## Logs -/

/-- The notices among requests, the earliest first. -/
def noticesIn (asked : List (Exchange Effects)) : List Notice :=
    asked.filterMap fun e => e.1.notice?

/-- The leaves hear of one notice after the other, of each in reading order. -/
theorem deliveries_eq (l : Layout) (asked : List (Exchange Effects)) : l.deliveries asked =
    (noticesIn asked).flatMap fun n => l.listeners.positions.filterMap (l.listeners.heardAt n) := by
  induction asked with
  | nil => rfl
  | cons e asked ih =>
      obtain ⟨q, a⟩ := e
      cases q with
      | notify n =>
          have hfirst : l.deliveries (⟨.notify n, a⟩ :: asked)
              = l.listeners.notify n ++ l.deliveries asked := rfl
          rw [hfirst, ih, Listener.notify_eq_positions]
          rfl
      | _ => exact ih

/-- The notices so far of a program that tells the listeners at its end. -/
theorem noticesIn_of_advances {α : Type} {ends : Option Notice → α → Prop} {p p' : Prog α}
    {asked : List (Exchange Effects)} {told : Option Notice} (h : p.Obeys Tells ends told)
    (hp : p.Advances asked p') :
    ∃ told', told.toList ++ noticesIn asked = told'.toList ∧ p'.Obeys Tells ends told' := by
  induction hp generalizing told with
  | rest p => exact ⟨told, List.append_nil _, h⟩
  | @ask q next a asked p' hp ih =>
      obtain ⟨state, hasks, hnext⟩ := h
      obtain ⟨told', htold, hends⟩ := ih (hnext a)
      refine ⟨told', ?_, hends⟩
      rw [← htold]
      cases hasks with
      | notify => rfl
      | other hq =>
          have hsilent : noticesIn (⟨q, a⟩ :: asked) = noticesIn asked :=
            List.filterMap_cons_none hq
          rw [hsilent]

namespace LoggedStore

variable {σ : Type} {g : LoggedSystem σ} {s : LoggedStore σ}

/-- A client that has ended has told the listeners of what was carried out, and before that it has
told them nothing. -/
theorem Consistent.noticesIn_asked (h : Consistent g s) (n : Nat) : noticesIn (s.asked n) =
    ((s.operation? n).bind fun step => (s.value? n).bind step.told?).toList := by
  cases hstep : s.operation? n with
  | none =>
      rw [h.asked_of_operation?_eq_none hstep]
      rfl
  | some step =>
      obtain ⟨p, hc, hadvances⟩ := h.advances_of_operation? hstep
      obtain ⟨told, htold, hp⟩ := noticesIn_of_advances (obeys_tells g.layout step) hadvances
      refine Eq.trans htold (congrArg Option.toList ?_)
      rw [Option.bind_some, value?, hc]
      cases p with
      | done v => exact hp
      | ask q next =>
          obtain ⟨_, hasks, -⟩ := hp
          cases hasks <;> rfl

/-- What the leaves of the listeners hear. -/
structure Announces (g : LoggedSystem σ) (s : LoggedStore σ) : Prop where
  /-- The listeners are told once of an operation that was carried out, with its arguments, and of
  no other operation. -/
  told : ∀ n, noticesIn (s.asked n) =
    ((s.operation? n).bind fun step => (s.value? n).bind step.told?).toList
  /-- The leaves hear of it in reading order. -/
  heard : ∀ n, g.layout.deliveries (s.asked n) = (noticesIn (s.asked n)).flatMap fun notice =>
    g.layout.listeners.positions.filterMap (g.layout.listeners.heardAt notice)
  /-- So they do when notices of several clients come one after the other. -/
  heardInAll : g.layout.deliveries (s.log.map Line.exchange) =
    (noticesIn (s.log.map Line.exchange)).flatMap fun notice =>
      g.layout.listeners.positions.filterMap (g.layout.listeners.heardAt notice)

/-- In every tree of listeners a notice reaches the leaf at every position once, in reading order.
Whatever listeners a store was built with, whatever its components reply and however the operations
of clients mix, their leaves hear so of every operation that was carried out, and of nothing
else. -/
theorem announcements_in_reading_order :
    (∀ l : Listener, l.positions.Pairwise (· < ·) ∧
      (∀ path, path ∈ l.positions ↔
        ∃ number quiet, l.memberAt? path = some (.leaf number quiet)) ∧
      ∀ notice, l.notify notice = l.positions.filterMap (l.heardAt notice)) ∧
    ∀ (σ : Type) (g : LoggedSystem σ) (events : List Event),
      Announces g (run g.step g.start events) := by
  refine ⟨fun l => ⟨l.pairwise_positions, fun path => Listener.mem_positions,
    fun notice => l.notify_eq_positions notice⟩, fun σ g events => ?_⟩
  exact ⟨(consistent_run g events).noticesIn_asked, fun n => deliveries_eq g.layout _,
    deliveries_eq g.layout _⟩

end LoggedStore

end Store

end RecordStore
