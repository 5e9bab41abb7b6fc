import RecordStore.Schedule

/-!
# Programs that are not held up

A process goes on for as long as the environment has replies (`Program.advance`).  In a schedule
the process that is first in line does so before any other process has its turn.  What it asks may
wake others, but these go to the end of the line.  So a program that gets every reply at once ends
as it would in an environment of its own (`Schedule.runsInto_of_advance`).

A program may also be told apart by what it asks: it keeps to a routine if it asks in every state
what the routine asks there (`Program.Obeys`).
-/

namespace RecordStore

/-! ## Programs that keep to a routine -/

namespace Program

variable {I : Interface} {σ α β : Type}

/-- A program that asks in every state what a routine asks there, whatever is replied, and ends
as the routine ends.  A request of the routine says to which state each reply leads. -/
def Obeys (asks : σ → (r : I.Request) → (I.Reply r → σ) → Prop) (ends : σ → α → Prop) :
    σ → Program I α → Prop
  | s, done a => ends s a
  | s, ask r next => ∃ state, asks s r state ∧
      ∀ reply, (next reply).Obeys asks ends (state reply)

variable {asks : σ → (r : I.Request) → (I.Reply r → σ) → Prop} {s : σ}
  {program : Program I α}

theorem Obeys.bind {ends : σ → α → Prop} {ends' : σ → β → Prop} {f : α → Program I β}
    (h : program.Obeys asks ends s) (hf : ∀ s a, ends s a → (f a).Obeys asks ends' s) :
    (program.bind f).Obeys asks ends' s := by
  induction program generalizing s with
  | done a => exact hf s a h
  | ask r next ih =>
      obtain ⟨state, hasks, hnext⟩ := h
      exact ⟨state, hasks, fun reply => ih reply (hnext reply)⟩

theorem Obeys.imp {ends ends' : σ → α → Prop} (h : program.Obeys asks ends s)
    (hends : ∀ s a, ends s a → ends' s a) : program.Obeys asks ends' s := by
  induction program generalizing s with
  | done a => exact hends s a h
  | ask r next ih =>
      obtain ⟨state, hasks, hnext⟩ := h
      exact ⟨state, hasks, fun reply => ih reply (hnext reply)⟩

end Program

/-! ## Programs that go on -/

namespace Program

variable {I : Interface} {σ α β : Type} {env : Environment I σ} {caller : Nat} {s s' : σ}

/-- Runs a program until it has ended or has no reply. -/
def advance (env : Environment I σ) (caller : Nat) : Program I α → σ → Program I α × σ
  | done a, s => (done a, s)
  | ask q next, s =>
      match env.reply? caller q s with
      | (some a, s) => (next a).advance env caller s
      | (none, s) => (ask q next, s)

section

variable {q : I.Request} {next : I.Reply q → Program I α}

theorem advance_ask {a : I.Reply q} (h : env.reply? caller q s = (some a, s')) :
    (ask q next).advance env caller s = (next a).advance env caller s' := by
  rw [advance, h]

theorem advance_of_waits (h : env.reply? caller q s = (none, s')) :
    (ask q next).advance env caller s = (ask q next, s') := by
  rw [advance, h]

end

theorem advance_bind {p : Program I α} {a : α} (f : α → Program I β)
    (h : p.advance env caller s = (.done a, s')) :
    (p.bind f).advance env caller s = (f a).advance env caller s' := by
  induction p generalizing s with
  | done a' =>
      cases h
      rfl
  | ask q next ih =>
      rw [advance] at h
      rw [bind, advance]
      split at h
      next b s₁ hb => exact ih b h
      next => cases h

theorem advance_bind_of_waits {p p' : Program I α} (f : α → Program I β)
    (h : p.advance env caller s = (p', s')) (hp : ∀ a, p' ≠ .done a) :
    (p.bind f).advance env caller s = (p'.bind f, s') := by
  induction p generalizing s with
  | done a =>
      cases h
      exact absurd rfl (hp a)
  | ask q next ih =>
      rw [advance] at h
      rw [bind, advance]
      split at h
      next b s₁ hb => exact ih b h
      next =>
        cases h
        rfl

end Program

namespace Schedule

variable {I : Interface} {σ ρ : Type} {env : Environment I σ} {s s' s'' : Schedule I σ ρ}

/-- One schedule runs into another. -/
def RunsInto (env : Environment I σ) (s s' : Schedule I σ ρ) : Prop :=
  ∃ k, ∀ n, s.settle env (n + k) = s'.settle env n

theorem RunsInto.refl : s.RunsInto env s := ⟨0, fun _ => rfl⟩

theorem RunsInto.step (hstep : s.step? env = some s') (h : s'.RunsInto env s'') :
    s.RunsInto env s'' := by
  obtain ⟨k, hk⟩ := h
  refine ⟨k + 1, fun n => ?_⟩
  rw [← Nat.add_assoc, settle, hstep]
  exact hk n

/-- The process that is first in line has its result before any other goes on. -/
theorem runsInto_of_advance {p : Process I ρ} {rest : List (Process I ρ)} {r : ρ} {state : σ}
    (hline : s.line = p :: rest)
    (h : p.left.advance env p.number s.state = (.done (.result r), state)) :
    ∃ line parked, s.RunsInto env
      { state, line, parked, results := s.results ++ [(p.number, r)] } := by
  obtain ⟨number, left, body⟩ := p
  induction left generalizing s rest with
  | done e =>
      cases h
      refine ⟨rest, s.parked, .step ?_ .refl⟩
      rw [step?, hline]
  | ask q next ih =>
      simp only at h
      rw [Program.advance] at h
      split at h
      next a state' ha =>
        -- whoever is woken by the reply stands behind
        let woken : Schedule I σ ρ :=
          wake env { s with state := state', line := ⟨number, next a, body⟩ :: rest }
        have hwoken : s.step? env = some woken := by
          simp only [step?, hline, ha]
          rfl
        have hline' : woken.line = ⟨number, next a, body⟩ :: _ := rfl
        obtain ⟨line, parked, hinto⟩ := ih a hline' h
        exact ⟨line, parked, .step hwoken hinto⟩
      next => cases h

end Schedule

end RecordStore
