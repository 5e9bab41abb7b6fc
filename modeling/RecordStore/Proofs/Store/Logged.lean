import RecordStore.Proofs.Store.Concurrent
import RecordStore.Proofs.Store.Requests

/-!
# A store with clients and a log

Clients use a store at the same time.  Each of them goes on with its own operation, one request at
a time, and between two requests of one client the others may do anything.  So a call that takes
long is a client that goes on late.

Nothing is known about the components.  Their replies come from a state that each call may change
(`LoggedStore.LoggedSystem.answer`), so a component may fail, and may fail only now and then.
Whether it is open, the store says itself.

The *log* of the store keeps the requests in the order in which they are made, with the replies.  It
ties the clients together.

* What one client asked, with the replies, is how far its operation has got
  (`LoggedStore.Consistent.advances`).
* The store tells who asks that it is open exactly as long as nobody has closed it
  (`LoggedStore.Consistent.truthful`).

What a program asks in every environment that replies at once, it asks here as well:
`Program.replay` is the environment that gives the replies of a transcript again.
-/

namespace RecordStore

/-! ## Programs that have got on -/

namespace Program

variable {I : Interface} {α : Type} {p p' : Program I α} {asked : List (Exchange I)}

/-- What is left of a program after some exchanges. -/
inductive Advances : Program I α → List (Exchange I) → Program I α → Prop where
  | rest (p : Program I α) : Advances p [] p
  | ask {r : I.Request} {next : I.Reply r → Program I α} {a : I.Reply r}
      {asked : List (Exchange I)} {p' : Program I α} (h : Advances (next a) asked p') :
      Advances (.ask r next) (⟨r, a⟩ :: asked) p'

namespace Advances

/-- Without an exchange nothing has happened. -/
theorem eq_of_nil (h : p.Advances [] p') : p' = p := by
  cases h
  rfl

/-- One more exchange. -/
theorem concat {r : I.Request} {next : I.Reply r → Program I α}
    (h : p.Advances asked (.ask r next)) (a : I.Reply r) :
    p.Advances (asked ++ [⟨r, a⟩]) (next a) := by
  generalize hp' : Program.ask r next = p' at h
  induction h with
  | rest p =>
      subst hp'
      exact .ask (.rest _)
  | ask h ih => exact .ask (ih hp')

end Advances

/-- Every exchange of a program that obeys a routine is one that the routine lists. -/
theorem Obeys.of_mem {σ : Type} {asks : σ → (r : I.Request) → (I.Reply r → σ) → Prop}
    {ends : σ → α → Prop} {s : σ} (h : p.Obeys asks ends s) (hp : p.Advances asked p')
    {e : Exchange I} (he : e ∈ asked) : ∃ s state, asks s e.1 state := by
  induction hp generalizing s with
  | rest p => cases he
  | ask hp ih =>
      obtain ⟨state, hasks, hnext⟩ := h
      cases he with
      | head => exact ⟨s, state, hasks⟩
      | tail _ he => exact ih (hnext _) he

open Classical in
/-- An environment that gives the replies of a transcript again.  After its end, and where
something else is asked, it gives a default. -/
noncomputable def replay (default : (r : I.Request) → I.Reply r) (r : I.Request) :
    List (Exchange I) → I.Reply r × List (Exchange I)
  | [] => (default r, [])
  | e :: rest => if h : e.1 = r then (h ▸ e.2, rest) else (default r, [])

section

variable (default : (r : I.Request) → I.Reply r)

theorem replay_cons (r : I.Request) (a : I.Reply r) (rest : List (Exchange I)) :
    replay default r (⟨r, a⟩ :: rest) = (a, rest) := dif_pos rfl

/-- A program asks again what it has asked, and then goes on. -/
theorem Advances.exchanges_replay (h : p.Advances asked p') :
    p.exchanges (replay default) asked = asked ++ p'.exchanges (replay default) [] := by
  induction h with
  | rest p => rfl
  | @ask r next a asked p' h ih => rw [exchanges, replay_cons, ih, List.cons_append]

theorem Advances.run_replay (h : p.Advances asked p') :
    p.run (replay default) asked = p'.run (replay default) [] := by
  induction h with
  | rest p => rfl
  | @ask r next a asked p' h ih => rw [run, replay_cons, ih]

end

end Program

/-! ## How operations begin -/

namespace Bench.StoreStep

/-- How an operation begins: it asks whether the store is open.  A shutdown closes it so. -/
def opens : StoreStep → Bool → Program.Exchange Store.Effects
  | shutdown, isOpen => ⟨.close, isOpen⟩
  | _, isOpen => ⟨.isOpen, isOpen⟩

/-- The value of an operation that finds the store closed. -/
def whenClosed : StoreStep → Value
  | isClosed => .bool true
  | _ => .storeError .closed

end Bench.StoreStep

namespace Store

open Bench (StoreStep Value)
open Program (Exchange)

/-- A reply to any request. -/
def blankReply : (q : Request) → Reply q
  | .isOpen | .close | .offer _ _ => true
  | .cache call | .backend _ call => .ok call.blank
  | .notify _ => ()

/-! ## Logs -/

/-- What stands in a list to which one element was added. -/
theorem getElem?_concat_eq_some {α : Type} {l : List α} {a b : α} {i : Nat} :
    (l ++ [a])[i]? = some b ↔ l[i]? = some b ∨ i = l.length ∧ b = a := by
  rcases Nat.lt_trichotomy i l.length with hi | hi | hi
  · rw [List.getElem?_append_left hi]
    simp [Nat.ne_of_lt hi]
  · subst hi
    simp [eq_comm]
  · have hlength : (l ++ [a]).length ≤ i := by rwa [List.length_append]
    rw [List.getElem?_eq_none hlength, List.getElem?_eq_none hi.le]
    simp [hi.ne']

/-- Whether a request closes the store. -/
def Request.closes : Request → Bool
  | .close => true
  | _ => false

/-- A request of a client, with the reply. -/
structure Line where
  client : Nat
  exchange : Exchange Effects

namespace Line

/-- Whether the client closes the store, or finds it closed by someone else. -/
def closes (line : Line) : Bool := line.exchange.1.closes

/-- What the store said, if it was asked whether it is open. -/
def told? (line : Line) : Option Bool :=
  match line.exchange with
  | ⟨.isOpen, isOpen⟩ | ⟨.close, isOpen⟩ => some isOpen
  | _ => none

end Line

/-- What a client has asked, with the replies, the earliest first. -/
def askedIn (log : List Line) (n : Nat) : List (Exchange Effects) :=
  (log.filter fun line => line.client = n).map Line.exchange

theorem askedIn_concat (log : List Line) (line : Line) (n : Nat) :
    askedIn (log ++ [line]) n
      = askedIn log n ++ if line.client = n then [line.exchange] else [] := by
  simp only [askedIn, List.filter_append, List.map_append]
  split
  next h => simp [h]
  next h => simp [h]

theorem mem_askedIn {log : List Line} {n : Nat} {e : Exchange Effects} :
    e ∈ askedIn log n ↔ ⟨n, e⟩ ∈ log := by
  rw [askedIn, List.mem_map]
  constructor
  · rintro ⟨line, hline, rfl⟩
    obtain ⟨hmem, hclient⟩ := List.mem_filter.1 hline
    obtain rfl := of_decide_eq_true hclient
    exact hmem
  · intro h
    exact ⟨_, List.mem_filter.2 ⟨h, decide_eq_true rfl⟩, rfl⟩

/-- What a client has asked before one of its lines, in it, and after it. -/
theorem askedIn_of_getElem? {log : List Line} {i : Nat} {line : Line} (h : log[i]? = some line) :
    askedIn log line.client = askedIn (log.take i) line.client ++
      line.exchange :: askedIn (log.drop (i + 1)) line.client := by
  obtain ⟨hi, hline⟩ := List.getElem?_eq_some_iff.1 h
  have hlog : log = log.take i ++ line :: log.drop (i + 1) := by
    rw [← hline, List.getElem_cons_drop, List.take_append_drop]
  conv_lhs => rw [hlog]
  simp [askedIn]

/-- The first line of a client. -/
theorem exists_first {log : List Line} {n : Nat} {e : Exchange Effects}
    {rest : List (Exchange Effects)} (h : askedIn log n = e :: rest) :
    ∃ i, log[i]? = some ⟨n, e⟩ ∧ askedIn (log.take i) n = [] := by
  obtain ⟨line, lines, hfilter, rfl, -⟩ := List.map_eq_cons_iff.1 h
  obtain ⟨before, after, rfl, hbefore, hclient, -⟩ := List.filter_eq_cons_iff.1 hfilter
  obtain rfl := of_decide_eq_true hclient
  refine ⟨before.length, by simp, ?_⟩
  rw [List.take_left, askedIn, List.filter_eq_nil_iff.2 hbefore, List.map_nil]

/-! ## Openings -/

theorem opens_of_ne_shutdown {step : StoreStep} (h : step ≠ .shutdown) (isOpen : Bool) :
    step.opens isOpen = ⟨.isOpen, isOpen⟩ := by
  cases step with
  | shutdown => exact absurd rfl h
  | _ => rfl

theorem told?_opens (step : StoreStep) (n : Nat) (isOpen : Bool) :
    Line.told? ⟨n, step.opens isOpen⟩ = some isOpen := by
  cases step <;> rfl

/-- An operation has asked nothing, or it found the store closed and ended with that, or it found
the store open. -/
theorem advances_operation {l : Layout} {step : StoreStep} {asked : List (Exchange Effects)}
    {p : Prog Value} (h : (step.operation l).Advances asked p) :
    asked = [] ∨ asked = [step.opens false] ∧ p = .done step.whenClosed ∨
      ∃ rest, asked = step.opens true :: rest := by
  have hopening : ∀ {q : Request} (isOpen : Reply q → Bool) (next : Reply q → Prog Value),
      step.operation l = .ask q next → (∀ a, (⟨q, a⟩ : Exchange Effects) = step.opens (isOpen a)) →
      (∀ a, isOpen a = false → next a = .done step.whenClosed) →
      asked = [] ∨ asked = [step.opens false] ∧ p = .done step.whenClosed ∨
        ∃ rest, asked = step.opens true :: rest := by
    intro q isOpen next hop hopens hclosed
    rw [hop] at h
    cases h with
    | rest => exact Or.inl rfl
    | @ask _ _ a _ _ h =>
        rw [hopens a]
        cases ha : isOpen a with
        | true => exact Or.inr (Or.inr ⟨_, rfl⟩)
        | false =>
            rw [hclosed a ha] at h
            cases h
            exact Or.inr (Or.inl ⟨rfl, rfl⟩)
  cases step with
  | shutdown =>
      exact hopening (q := .close) id _ rfl (fun _ => rfl) fun a ha => by cases ha; rfl
  | _ => exact hopening (q := .isOpen) id _ rfl (fun _ => rfl) fun a ha => by cases ha; rfl

/-! ## LoggedStore -/

/-- A store in use by clients. -/
structure LoggedStore (σ : Type) where
  /-- The state of the components. -/
  components : σ
  isOpen : Bool := true
  /-- The clients, in the order in which they came. -/
  clients : List Client := []
  /-- All requests, the earliest first. -/
  log : List Line := []

namespace LoggedStore

variable {σ : Type}

/-- What a store with a log is made from. -/
structure LoggedSystem (σ : Type) where
  layout : Layout
  /-- What the components reply to a request, and the state they are in then. -/
  answer : (q : Request) → σ → Reply q × σ
  initial : σ

/-- A store that nobody has used yet. -/
def LoggedSystem.start (g : LoggedSystem σ) : LoggedStore σ where
  components := g.initial

/-- What a client came for. -/
def operation? (s : LoggedStore σ) (n : Nat) : Option StoreStep := s.clients[n]?.map Client.step

/-- What a client gave back, if it has ended. -/
def value? (s : LoggedStore σ) (n : Nat) : Option Value := s.clients[n]?.bind Client.value?

/-- What a client has asked so far. -/
def asked (s : LoggedStore σ) (n : Nat) : List (Exchange Effects) := askedIn s.log n

/-- What happens at a request. -/
def reply (g : LoggedSystem σ) (s : LoggedStore σ) : (q : Request) → Reply q × σ
  | .isOpen | .close => (s.isOpen, s.components)
  | q => g.answer q s.components

/-- A client makes its next request. -/
def go (g : LoggedSystem σ) (s : LoggedStore σ) (n : Nat) : LoggedStore σ :=
  match s.clients[n]? with
  | some ⟨step, .ask q next⟩ =>
      { components := (s.reply g q).2
        isOpen := s.isOpen && !q.closes
        clients := s.clients.set n ⟨step, next (s.reply g q).1⟩
        log := s.log ++ [⟨n, q, (s.reply g q).1⟩] }
  | _ => s

/-- What can happen to a store with a log.  What cannot happen does nothing. -/
inductive Event where
  /-- A client comes. -/
  | begin (step : StoreStep)
  /-- A client goes on with its operation. -/
  | go (n : Nat)

namespace LoggedSystem

variable (g : LoggedSystem σ)

def step (s : LoggedStore σ) : Event → LoggedStore σ
  | .begin step => { s with clients := s.clients ++ [⟨step, step.operation g.layout⟩] }
  | .go n => s.go g n

end LoggedSystem

variable {g : LoggedSystem σ} {s : LoggedStore σ} {n : Nat}

/-! ### Steps -/

/-- A client that has something to ask asks it, and every other event asks nothing. -/
theorem go_cases (g : LoggedSystem σ) (s : LoggedStore σ) (n : Nat) :
    s.go g n = s ∧ (∀ step q next, s.clients[n]? ≠ some ⟨step, .ask q next⟩) ∨
      ∃ step q next, s.clients[n]? = some ⟨step, .ask q next⟩ ∧ s.go g n =
        { components := (s.reply g q).2
          isOpen := s.isOpen && !q.closes
          clients := s.clients.set n ⟨step, next (s.reply g q).1⟩
          log := s.log ++ [⟨n, q, (s.reply g q).1⟩] } := by
  rw [go]
  split
  next step q next hclient => exact Or.inr ⟨step, q, next, hclient, rfl⟩
  next hclient => exact Or.inl ⟨rfl, hclient⟩

/-! ### What holds at every time -/

/-- What a log says about the clients and about the store. -/
structure Consistent (g : LoggedSystem σ) (s : LoggedStore σ) : Prop where
  known : ∀ line ∈ s.log, line.client < s.clients.length
  /-- What a client has asked is how far it has got. -/
  advances : ∀ n (c : Client), s.clients[n]? = some c →
    (c.step.operation g.layout).Advances (s.asked n) c.program
  isOpen_eq : s.isOpen = !s.log.any Line.closes
  /-- The store says that it is open as long as nobody has closed it. -/
  truthful : ∀ (i : Nat) line isOpen, s.log[i]? = some line → line.told? = some isOpen →
    isOpen = !(s.log.take i).any Line.closes

theorem consistent_start (g : LoggedSystem σ) : Consistent g g.start where
  known := by simp [LoggedSystem.start]
  advances := by simp [LoggedSystem.start]
  isOpen_eq := rfl
  truthful := by simp [LoggedSystem.start]

theorem mem_asked {e : Exchange Effects} : e ∈ s.asked n ↔ ⟨n, e⟩ ∈ s.log := mem_askedIn

theorem asked_of_length_le (hknown : ∀ line ∈ s.log, line.client < s.clients.length)
    (hn : s.clients.length ≤ n) : s.asked n = [] := by
  rw [asked, askedIn, List.map_eq_nil_iff, List.filter_eq_nil_iff]
  intro line hline
  have := hknown line hline
  simp only [decide_eq_true_eq]
  omega

theorem told?_reply (q : Request) {isOpen : Bool}
    (h : Line.told? ⟨n, q, (s.reply g q).1⟩ = some isOpen) : isOpen = s.isOpen := by
  cases q with
  | isOpen | close => exact (Option.some.inj h).symm
  | _ => cases h

namespace Consistent

theorem begin (h : Consistent g s) (step : StoreStep) :
    Consistent g { s with clients := s.clients ++ [⟨step, step.operation g.layout⟩] } where
  known line hline := by
    rw [List.length_append]
    exact Nat.lt_add_right _ (h.known line hline)
  advances n c hc := by
    rcases getElem?_concat_eq_some.1 hc with hc | ⟨hn, rfl⟩
    · exact h.advances n c hc
    · -- the client that has just come has asked nothing
      have hasked : askedIn s.log n = [] := asked_of_length_le h.known hn.ge
      rw [asked, hasked]
      exact .rest _
  isOpen_eq := h.isOpen_eq
  truthful := h.truthful

theorem go (h : Consistent g s) (n : Nat) : Consistent g (s.go g n) := by
  obtain ⟨heq, -⟩ | ⟨step, q, next, hclient, heq⟩ := go_cases g s n
  · rwa [heq]
  · have hn : n < s.clients.length := (List.getElem?_eq_some_iff.1 hclient).1
    rw [heq]
    refine ⟨?_, ?_, ?_, ?_⟩
    · intro line hline
      rw [List.length_set]
      rcases List.mem_append.1 hline with hline | hline
      · exact h.known line hline
      · rw [List.mem_singleton.1 hline]
        exact hn
    · intro m c hc
      rw [asked, askedIn_concat]
      rw [List.getElem?_set] at hc
      split at hc
      next hm =>
        subst hm
        obtain rfl := Option.some.inj hc
        rw [if_pos rfl]
        exact (h.advances n _ hclient).concat _
      next hm =>
        rw [if_neg hm, List.append_nil]
        exact h.advances m c hc
    · simp only [List.any_append, List.any_cons, List.any_nil, Bool.or_false, Bool.not_or,
        h.isOpen_eq]
      rfl
    · intro i line isOpen hi htold
      rcases getElem?_concat_eq_some.1 hi with hi | ⟨hend, rfl⟩
      · have hlt : i < s.log.length := (List.getElem?_eq_some_iff.1 hi).1
        rw [List.take_append_of_le_length hlt.le]
        exact h.truthful i line isOpen hi htold
      · subst hend
        rw [List.take_left, told?_reply q htold, h.isOpen_eq]

theorem step (h : Consistent g s) (e : Event) : Consistent g (g.step s e) := by
  cases e with
  | begin step => exact h.begin step
  | go n => exact h.go n

theorem along_run (h : Consistent g s) (events : List Event) :
    Consistent g (run g.step s events) :=
  run_keeps (fun _ e hs => hs.step e) h events

end Consistent

theorem consistent_run (g : LoggedSystem σ) (events : List Event) :
    Consistent g (run g.step g.start events) :=
  (consistent_start g).along_run events

theorem log_step (g : LoggedSystem σ) (s : LoggedStore σ) (e : Event) :
    s.log <+: (g.step s e).log := by
  cases e with
  | begin step => exact List.prefix_refl _
  | go n =>
      obtain ⟨heq, -⟩ | ⟨step, q, next, -, heq⟩ := go_cases g s n
      · exact (congrArg log heq) ▸ List.prefix_refl _
      · exact (congrArg log heq) ▸ List.prefix_append _ _

/-- Lines are only added to a log. -/
theorem log_run (g : LoggedSystem σ) (s : LoggedStore σ) (events : List Event) :
    s.log <+: (run g.step s events).log := by
  exact run_keeps (Q := fun s' => s.log <+: s'.log) (fun s' e h => h.trans (log_step g s' e))
    (List.prefix_refl _) events

/-- Clients stay, and keep to what they came for. -/
theorem steps_step (g : LoggedSystem σ) (s : LoggedStore σ) (e : Event) :
    s.clients.map Client.step <+: (g.step s e).clients.map Client.step := by
  cases e with
  | begin step => exact (List.prefix_append _ _).map _
  | go n =>
      show _ <+: (s.go g n).clients.map _
      obtain ⟨heq, -⟩ | ⟨step, q, next, hc, heq⟩ := go_cases g s n
      · rw [heq]
      · rw [heq, Client.map_step_set hc]

theorem operation?_run (g : LoggedSystem σ) {s : LoggedStore σ} {step : StoreStep}
    (h : s.operation? n = some step) (events : List Event) :
    (run g.step s events).operation? n = some step :=
  run_keeps (Q := fun s => s.operation? n = some step)
    (fun s e hs => Client.step_of_prefix (steps_step g s e) hs) h events

/-! ### One client -/

/-- The operation of a client has found the store closed, and it has ended with that. -/
def Refused (s : LoggedStore σ) (n : Nat) : Prop :=
  ∃ step, s.operation? n = some step ∧ s.asked n = [step.opens false] ∧
    s.value? n = some step.whenClosed

/-- A client asks one thing after the other from a list, and gives a value back when it has asked
everything in the list, and not before. -/
def Performs (s : LoggedStore σ) (n : Nat) (all : List (Exchange Effects)) (value : Value) : Prop :=
  s.asked n <+: all ∧ ∀ v, s.value? n = some v ↔ s.asked n = all ∧ v = value

namespace Consistent

variable {step : StoreStep}

theorem advances_of_operation? (h : Consistent g s) (hstep : s.operation? n = some step) :
    ∃ p, s.clients[n]? = some ⟨step, p⟩ ∧
      (step.operation g.layout).Advances (s.asked n) p := by
  obtain ⟨⟨_, p⟩, hc, rfl⟩ := Option.map_eq_some_iff.1 hstep
  exact ⟨p, hc, h.advances n _ hc⟩

/-- A client has asked nothing, or the store refused it, or it found the store open. -/
theorem opening (h : Consistent g s) (hstep : s.operation? n = some step) :
    s.asked n = [] ∨ s.Refused n ∨ ∃ rest, s.asked n = step.opens true :: rest := by
  obtain ⟨p, hc, hadvances⟩ := h.advances_of_operation? hstep
  rcases advances_operation hadvances with hnone | ⟨hasked, rfl⟩ | hrest
  · exact Or.inl hnone
  · refine Or.inr (Or.inl ⟨step, hstep, hasked, ?_⟩)
    rw [value?, hc]
    rfl
  · exact Or.inr (Or.inr hrest)

theorem asked_of_operation?_eq_none (h : Consistent g s) (hn : s.operation? n = none) :
    s.asked n = [] := by
  rw [operation?, Option.map_eq_none_iff, List.getElem?_eq_none_iff] at hn
  exact asked_of_length_le h.known hn

/-- Who has a line in the log is known. -/
theorem exists_operation? (h : Consistent g s) {line : Line} (hline : line ∈ s.log) :
    ∃ step, s.operation? line.client = some step := by
  refine ⟨_, Option.map_eq_some_iff.2 ⟨_, List.getElem?_eq_getElem (h.known line hline), rfl⟩⟩

/-- Before it asks a component, a client has found the store open. -/
theorem exists_opening (h : Consistent g s) {i : Nat} {line : Line} (hline : s.log[i]? = some line)
    (htold : line.told? = none) (hstep : s.operation? line.client = some step) :
    ∃ j < i, s.log[j]? = some ⟨line.client, step.opens true⟩ := by
  have hasked := askedIn_of_getElem? hline
  have hne : ∀ isOpen, line.exchange ≠ step.opens isOpen := by
    intro isOpen heq
    have := told?_opens step line.client isOpen
    rw [← heq, htold] at this
    cases this
  rcases h.opening hstep with hnone | ⟨step', hstep', hfalse, -⟩ | ⟨rest, hrest⟩
  · rw [asked, hasked] at hnone
    simp at hnone
  · -- a client that was refused has asked no component
    rw [hstep] at hstep'
    obtain rfl := Option.some.inj hstep'
    have hmem : line.exchange ∈ s.asked line.client := by
      rw [asked, hasked]
      simp
    rw [hfalse] at hmem
    exact absurd (List.mem_singleton.1 hmem) (hne false)
  · rw [asked, hasked] at hrest
    cases hbefore : askedIn (s.log.take i) line.client with
    | nil =>
        rw [hbefore] at hrest
        exact absurd (List.cons.inj hrest).1 (hne true)
    | cons e before =>
        rw [hbefore] at hrest
        obtain rfl := (List.cons.inj hrest).1
        obtain ⟨j, hj, -⟩ := exists_first hbefore
        rw [List.getElem?_take] at hj
        split at hj
        next hlt => exact ⟨j, hlt, hj⟩
        next => cases hj

/-- The store was not closed before it said that it is open. -/
theorem le_of_closes (h : Consistent g s) {i j : Nat} {opened closed : Line}
    (hopened : s.log[i]? = some opened) (htold : opened.told? = some true)
    (hclosed : s.log[j]? = some closed) (hcloses : closed.closes = true) : i ≤ j := by
  have hnone := h.truthful i opened true hopened htold
  rw [eq_comm, Bool.not_eq_true', List.any_eq_false] at hnone
  by_contra hlt
  refine hnone closed ?_ hcloses
  obtain ⟨hj, hget⟩ := List.getElem?_eq_some_iff.1 hclosed
  exact List.mem_take_iff_getElem.2 ⟨j, by omega, hget⟩

/-- Who finds the store open comes before it is closed. -/
theorem lt_of_closes (h : Consistent g s) {i j m : Nat} (hi : s.log[i]? = some ⟨m, .isOpen, true⟩)
    (hj : s.log[j]? = some ⟨n, .close, true⟩) : i < j := by
  refine Nat.lt_of_le_of_ne (h.le_of_closes hi rfl hj rfl) ?_
  rintro rfl
  rw [hi] at hj
  cases congrArg (fun line : Line => line.exchange.1) (Option.some.inj hj)

/-- A client that found the store open does as its operation does in some environment that replies
at once, and where the store is open. -/
theorem performs (h : Consistent g s) (hstep : s.operation? n = some step)
    {rest : List (Exchange Effects)} (hrest : s.asked n = step.opens true :: rest) :
    ∃ (τ : Type) (reply : (q : Request) → τ → Reply q × τ) (t : τ),
      (reply (step.opens true).1 t).1 = (step.opens true).2 ∧
      s.Performs n ((step.operation g.layout).exchanges reply t)
        ((step.operation g.layout).run reply t).1 := by
  obtain ⟨p, hc, hadvances⟩ := h.advances_of_operation? hstep
  refine ⟨_, Program.replay (I := Effects) blankReply, s.asked n, ?_, ?_⟩
  · rw [hrest]
    exact congrArg Prod.fst (Program.replay_cons (I := Effects) blankReply _ _ rest)
  rw [hadvances.exchanges_replay, hadvances.run_replay]
  refine ⟨List.prefix_append _ _, fun v => ?_⟩
  rw [value?, hc]
  cases p with
  | done value =>
      simp only [Option.bind_some, Client.value?, Program.exchanges, Program.run, List.append_nil,
        Option.some.injEq, true_and, eq_comm]
  | ask q next => simp [Client.value?, Program.exchanges]

end Consistent

end LoggedStore

end Store

end RecordStore
