import RecordStore.Worker

/-!
# Workers that go on, and workers that end

A worker goes on for good if it was not told to stop and its ticks are apart (`Worker.Lasting`).
Whatever is submitted to it meanwhile, it keeps its tasks and runs them. Nothing that a worker is
given makes it end.  It ends when it has taken up the request to stop, or as soon as it begins if
its tick would never pause.
-/

namespace RecordStore

namespace Worker

variable {τ : Type} {w : Worker τ}

/-! ## Lasting workers -/

/-- A worker that goes on for good: it was not told to stop, and its ticks are apart. -/
structure Lasting (w : Worker τ) : Prop where
  goesOn : w.stopping = false
  running : w.hasEnded = false
  period : ∃ n, w.period = some (n + 1)

theorem Lasting.create (capacity : Nat) {interval : Nat} (h : 1 ≤ interval) :
    (create capacity (some interval) : Worker τ).Lasting :=
  ⟨rfl, rfl, interval - 1, by simp only [Worker.create, Nat.sub_add_cancel h]⟩

theorem Lasting.begin (h : w.Lasting) (now : Nat) :
    (w.begin now).Lasting ∧ (w.begin now).queue = w.queue := by
  obtain ⟨n, hn⟩ := h.period
  simp only [Worker.begin, hn, and_true]
  exact ⟨h.goesOn, rfl, n, rfl⟩

theorem Lasting.take (h : w.Lasting) (now : Nat) (e : Event τ) : (w.take now e).Lasting := by
  cases e with
  | task t | tick | stop => exact ⟨h.goesOn, rfl, h.period⟩

/-- A worker that waits takes up a ready event, or none is ready. -/
theorem next_cases (w : Worker τ) (now : Nat) :
    (∃ e ∈ w.ready now, w.next now = (some e, w.take now e)) ∨
      w.next now = (none, { w with phase := .idle }) := by
  simp only [next]
  split
  next e rest he => exact Or.inl ⟨e, by rw [he]; exact List.mem_cons_self, rfl⟩
  next => exact Or.inr rfl

/-- A task that is ready is the first of the queue. -/
theorem queue_of_ready {now : Nat} {t : τ} (h : .task t ∈ w.ready now) :
    w.queue = t :: w.queue.tail := by
  simp only [ready, List.mem_append, List.mem_map] at h
  rcases h with (⟨t', ht, heq⟩ | h) | h
  · cases heq
    cases hq : w.queue with
    | nil => simp [hq] at ht
    | cons a rest =>
        rw [hq] at ht
        simp only [List.head?_cons, Option.toList_some, List.mem_singleton] at ht
        rw [ht, List.tail_cons]
  · split at h <;> simp at h
  · split at h <;> simp at h

theorem Lasting.stop_not_ready (h : w.Lasting) (now : Nat) : .stop ∉ w.ready now := by
  simp [ready, h.goesOn]

/-- A task comes into the queue or into the line, and the others stay. -/
theorem Lasting.submit (h : w.Lasting) (caller : Nat) (t : τ) :
    (w.submit caller t).2.Lasting ∧ ∀ u ∈ w.queue, u ∈ (w.submit caller t).2.queue := by
  simp only [Worker.submit, h.running, Bool.false_eq_true, if_false]
  split
  · exact ⟨⟨h.goesOn, h.running, h.period⟩, fun u hu => List.mem_append_left _ hu⟩
  · split
    · exact ⟨h, fun u hu => hu⟩
    · exact ⟨⟨h.goesOn, h.running, h.period⟩, fun u hu => hu⟩

/-! ## Workers that have ended -/

theorem hasEnded_submit (w : Worker τ) (caller : Nat) (t : τ) :
    (w.submit caller t).2.hasEnded = w.hasEnded := by
  simp only [submit]
  split
  · rfl
  · split
    · rfl
    · split <;> rfl

theorem hasEnded_take (w : Worker τ) (now : Nat) (e : Event τ) :
    (w.take now e).hasEnded = false := by
  cases e <;> rfl

end Worker

end RecordStore
