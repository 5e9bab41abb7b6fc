/-!
# Runs

The systems of this library take one step at each event: a cache with jobs, a cache with its worker
and its callers, a store with its clients, caches before caches.  A *run* is what a list of events
does, one after the other.  Something is so *along* a run if it is so of every event and of the
state in which the event happens.

What every step keeps is kept by every run (`run_keeps`).  What steps keep on a condition is kept by
the runs along which the condition holds (`run_induction`).

Who takes part in a system has a place in a list, by a number that stays the same.  The lemmas on
lists say what stands at a number when another place is set, and when somebody is added.
-/

namespace RecordStore

variable {σ ε : Type} (step : σ → ε → σ)

/-- What a list of events does, one after the other. -/
def run (s : σ) (events : List ε) : σ := events.foldl step s

@[simp] theorem run_nil (s : σ) : run step s [] = s := rfl

theorem run_cons (s : σ) (e : ε) (events : List ε) :
    run step s (e :: events) = run step (step s e) events := rfl

theorem run_append (s : σ) (first second : List ε) :
    run step s (first ++ second) = run step (run step s first) second := List.foldl_append

theorem run_concat (s : σ) (events : List ε) (e : ε) :
    run step s (events ++ [e]) = step (run step s events) e := run_append step s events [e]

/-- Something is so of every event of a list, and of the state in which it happens. -/
def Along (P : σ → ε → Prop) : σ → List ε → Prop
  | _, [] => True
  | s, e :: events => P s e ∧ Along P (step s e) events

instance instDecidableAlong (P : σ → ε → Prop) [∀ s e, Decidable (P s e)] :
    (s : σ) → (events : List ε) → Decidable (Along step P s events)
  | _, [] => isTrue trivial
  | s, e :: events =>
      have := instDecidableAlong P (step s e) events
      inferInstanceAs (Decidable (P s e ∧ Along step P (step s e) events))

variable {step} {P : σ → ε → Prop} {Q : σ → Prop} {s : σ}

theorem along_append {first second : List ε} : Along step P s (first ++ second) ↔
    Along step P s first ∧ Along step P (run step s first) second := by
  induction first generalizing s with
  | nil => exact (iff_of_eq (true_and _)).symm
  | cons e first ih => exact (and_congr_right fun _ => ih).trans and_assoc.symm

theorem along_of_forall {events : List ε} (h : ∀ e ∈ events, ∀ s, P s e) (s : σ) :
    Along step P s events := by
  induction events generalizing s with
  | nil => trivial
  | cons e events ih =>
      obtain ⟨he, h⟩ := List.forall_mem_cons.1 h
      exact ⟨he s, ih h _⟩

/-- What every event of a run keeps holds after the run. -/
theorem run_induction {events : List ε} (halong : Along step P s events) (h : Q s)
    (hstep : ∀ s e, Q s → P s e → Q (step s e)) : Q (run step s events) := by
  induction events generalizing s with
  | nil => exact h
  | cons e events ih => exact ih halong.2 (hstep s e h halong.1)

theorem run_of_forall {events : List ε} (hstep : ∀ e ∈ events, ∀ s, Q s → Q (step s e)) (h : Q s) :
    Q (run step s events) :=
  run_induction (along_of_forall hstep s) h fun _ _ hs he => he hs

/-- What the steps of two systems keep between them is kept by their runs. -/
theorem run_related {σ' : Type} {step' : σ' → ε → σ'} {R : σ → σ' → Prop}
    (hstep : ∀ s s' e, R s s' → R (step s e) (step' s' e)) {s' : σ'} (h : R s s')
    (events : List ε) : R (run step s events) (run step' s' events) := by
  induction events generalizing s s' with
  | nil => exact h
  | cons e events ih => exact ih (hstep s s' e h)

theorem run_keeps (hstep : ∀ s e, Q s → Q (step s e)) (h : Q s) (events : List ε) :
    Q (run step s events) :=
  run_of_forall (fun e _ s => hstep s e) h

/-! ## Those who take part -/

variable {α : Type} {l : List α} {m n : Nat} {a b : α}

/-- What stands in a list of which a place is set stands there anew, or it stood there before. -/
theorem getElem?_set_cases (h : (l.set n a)[m]? = some b) :
    m = n ∧ b = a ∨ m ≠ n ∧ l[m]? = some b := by
  rw [List.getElem?_set] at h
  split at h
  next hnm =>
    split at h
    · exact Or.inl ⟨hnm.symm, (Option.some.inj h).symm⟩
    · cases h
  next hnm => exact Or.inr ⟨Ne.symm hnm, h⟩

/-- What stands in a list that something was added to was there, or it is what was added. -/
theorem getElem?_concat_cases (h : (l ++ [a])[n]? = some b) :
    l[n]? = some b ∨ n = l.length ∧ b = a := by
  rcases Nat.lt_trichotomy n l.length with hn | rfl | hn
  · rw [List.getElem?_append_left hn] at h
    exact Or.inl h
  · rw [List.getElem?_concat_length] at h
    exact Or.inr ⟨rfl, (Option.some.inj h).symm⟩
  · rw [List.getElem?_eq_none (by rw [List.length_append]; exact hn)] at h
    cases h

/-- One in a list counts or does not, and so does what it is replaced by. -/
theorem countP_of_getElem? (h : l[n]? = some a) (P : α → Bool) :
    ∃ rest, l.countP P = rest + (P a).toNat ∧
      ∀ b, (l.set n b).countP P = rest + (P b).toNat := by
  obtain ⟨hn, rfl⟩ := List.getElem?_eq_some_iff.1 h
  refine ⟨l.countP P - (P l[n]).toNat, ?_, fun b => ?_⟩
  · cases hP : P l[n] with
    | true =>
        have hpos : 0 < l.countP P := List.countP_pos_iff.2 ⟨_, List.getElem_mem hn, hP⟩
        exact (Nat.sub_add_cancel hpos).symm
    | false => rfl
  · rw [List.countP_set hn]
    cases P l[n] <;> cases P b <;> rfl

end RecordStore
