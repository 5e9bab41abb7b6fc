import RecordStore.Proofs.Filter.Saturation
import RecordStore.Proofs.Shifts

/-!
# The words that move tags

A filter draws words to choose the tags that give way.  The step from one word to the
next combines the word with three shifted copies, one after the other.  Each of these
can be undone, so the step permutes the words (`bijective_nextWord`), and only zero is
followed by zero.

Nothing but the step ever changes the word of a filter.  Moves make as many steps as
they draw words, and all else makes none (`comesTo_perform`).  So the words of a filter
in use are those that the step makes of the first one, and none of them is zero
(`generator_runs_on`).  From zero on, every word would be zero, and the first place of a
bucket would give way every time.
-/

namespace RecordStore

namespace Filter

/-! ## The step -/

theorem toBitVec_nextWord (x : UInt64) :
    (nextWord x).toBitVec = (Shift.up 64).combine 17
      ((Shift.down 64).combine 7 ((Shift.up 64).combine 13 x.toBitVec)) := rfl

theorem nextWord_injective : Function.Injective nextWord := by
  intro x y h
  have hbits := congrArg UInt64.toBitVec h
  rw [toBitVec_nextWord, toBitVec_nextWord] at hbits
  have hlast := ((Shift.up 64).bijective_combine (by decide)).injective hbits
  have hmiddle := ((Shift.down 64).bijective_combine (by decide)).injective hlast
  have hfirst := ((Shift.up 64).bijective_combine (by decide)).injective hmiddle
  exact UInt64.toBitVec_inj.1 hfirst

/-- The step permutes the words. -/
theorem bijective_nextWord : Function.Bijective nextWord :=
  Finite.injective_iff_bijective.1 nextWord_injective

theorem nextWord_eq_zero_iff (x : UInt64) : nextWord x = 0 ↔ x = 0 :=
  nextWord_injective.eq_iff' rfl

/-! ## Many steps -/

/-- A number of steps leads from one word to another. -/
def ComesTo (x y : UInt64) : Prop := ∃ steps, y = nextWord^[steps] x

namespace ComesTo

variable {x y z : UInt64}

theorem refl (x : UInt64) : ComesTo x x := ⟨0, rfl⟩

theorem step (h : ComesTo (nextWord x) y) : ComesTo x y := by
  obtain ⟨steps, rfl⟩ := h
  exact ⟨steps + 1, (Function.iterate_succ_apply nextWord steps x).symm⟩

theorem trans (hxy : ComesTo x y) (hyz : ComesTo y z) : ComesTo x z := by
  obtain ⟨m, rfl⟩ := hxy
  obtain ⟨n, rfl⟩ := hyz
  exact ⟨n + m, (Function.iterate_add_apply nextWord n m x).symm⟩

theorem eq_zero_iff (h : ComesTo x y) : y = 0 ↔ x = 0 := by
  obtain ⟨steps, rfl⟩ := h
  induction steps with
  | zero => exact Iff.rfl
  | succ steps ih =>
      rw [Function.iterate_succ_apply', nextWord_eq_zero_iff]
      exact ih

end ComesTo

/-! ## The word of a filter -/

/-- Moving tags makes a step for each move. -/
theorem comesTo_walk {bits : Nat} (moves : Nat) (b : Buckets bits) (word : UInt64)
    (i : Position bits) (tag : UInt8) : ComesTo word (walk moves b word i tag).word := by
  induction moves generalizing b word i tag with
  | zero => exact .refl word
  | succ moves ih =>
      rw [walk_succ]
      dsimp only
      split
      · exact .step (.refl _)
      · exact .step (ih _ _ _ _)

section

variable {f g : Filter} {a : UInt64}

theorem comesTo_insert (h : f.insert a = .ok g) : ComesTo f.word g.word := by
  cases (accepts_of_insert h).2 with
  | home hroom => exact .refl _
  | partner hhome hroom => exact .refl _
  -- one step chooses the bucket, the others the places in it
  | moved hhome hpartner => exact .step (comesTo_walk _ _ _ _ _)

theorem word_erase? (h : f.erase? a = some g) : g.word = f.word := by
  obtain ⟨b, stray, rfl⟩ := erase?_frame h
  rfl

theorem word_clear (f : Filter) : f.clear.word = f.word := rfl

theorem comesTo_perform (f : Filter) (request : Request) :
    ComesTo f.word (f.perform request).1.word := by
  cases request with
  | insert a =>
      simp only [perform]
      split
      next g hg => exact comesTo_insert hg
      next => exact .refl _
  | contains a => exact .refl _
  | delete a =>
      simp only [perform]
      split
      next g hg =>
        rw [word_erase? hg]
        exact .refl _
      next => exact .refl _
  | clear => exact .refl _

end

theorem comesTo_run (capacity : Nat) (requests : List Request) :
    ComesTo firstWord (Usage.run capacity requests).filter.word :=
  run_keeps (Q := fun u : Usage => ComesTo firstWord u.filter.word)
    (fun u request h => h.trans (comesTo_perform u.filter request)) (.refl _) requests

/-- The step permutes the words, and only zero is followed by zero.  A clear leaves the word
of a filter as it is.  After any requests the word of a filter is not zero, nor is it in the
middle of an insertion that follows, after any number of moves. -/
theorem generator_runs_on :
    Function.Bijective nextWord ∧ (∀ x, nextWord x = 0 ↔ x = 0) ∧
      (∀ f : Filter, f.clear.word = f.word) ∧
      ∀ capacity requests,
        let f := (Usage.run capacity requests).filter
        f.word ≠ 0 ∧
          ∀ a moves, (walk moves f.buckets (nextWord f.word) (f.start a) (tagOf a)).word ≠ 0 := by
  refine ⟨bijective_nextWord, nextWord_eq_zero_iff, word_clear, fun capacity requests => ?_⟩
  have hfirst : firstWord ≠ 0 := by decide
  have hrun := comesTo_run capacity requests
  refine ⟨fun hzero => hfirst (hrun.eq_zero_iff.1 hzero), fun a moves hzero => ?_⟩
  exact hfirst ((hrun.trans (.step (comesTo_walk _ _ _ _ _))).eq_zero_iff.1 hzero)

end Filter

end RecordStore
