import RecordStore.Proofs.Cache.Duties
import RecordStore.Proofs.Cache.WriteBack

/-!
# How the worker and the callers of a cache change its view

At a cache with callers one pass is under way at most: the worker's, or the last one, with which a
shutdown flushes the cache.  A program that goes on makes a move, or one of two things
happen that are no moves (`View.Proceeds`).  The backend may fail to delete what it is told
to delete again, or do so in part.  And a shutdown that has written all slots empties the
cache.  Kept records stay kept (`View.Kept.proceeds`), so the cache and the backend account for
every record that was admitted and not removed since (`View.AccountsFor`).
-/

namespace RecordStore

namespace Cache

open Service (Prog)

/-- The cache with jobs whose moves those of a cache with callers are.  No program is begun by
them. -/
def WithCallers.CallerSystem.jobSystem (g : WithCallers.CallerSystem) : JobSystem Empty where
  config := g.config
  initial := g.initial
  program := nofun
  steady _ := false

namespace Contents

@[simp] theorem candidates_clear (c : Contents) : c.clear.slots.candidates = [] := rfl

theorem grows_clear (c : Contents) : c.Grows c.clear where
  lastVersion := Nat.le_refl _
  nextBatch := Nat.le_refl _
  slots d hd := by cases hd

end Contents

/-- What happens to a view when a program goes on. -/
inductive View.Proceeds (g : WithCallers.CallerSystem) (v : View) : View → Prop where
  | advance {n now : Nat} {v' : View} (hm : Move g.jobSystem v (.advance n now) v') :
      Proceeds g v v'
  | answer {n : Nat} {verdict : Verdict} {v' : View}
      (hm : Move g.jobSystem v (.answer n verdict) v') : Proceeds g v v'
  /-- Only a part is deleted again, and the pass is given up. -/
  | lapse (n : Nat) (p : Pass) (written : Bool) {ids part : List EntryId}
      (hstage : v.stage n = .deleting p written ids) (hpart : part ⊆ ids) :
      Proceeds g v (View.enter { v with stored := v.stored.apply (.deleteBatch part) } n .resting)
  /-- All slots that are left are those of a pass that was written, and they are removed. -/
  | empty (n : Nat) (hopen : (v.stage n).open? = none)
      (hslots : ∀ d ∈ v.contents.slots.candidates,
        ∃ p, v.stage n = .dropping p ∧ d ∈ p.candidates) :
      Proceeds g v (View.enter { v with contents := v.contents.clear } n .resting)

variable {g : WithCallers.CallerSystem} {v v' : View} {id : EntryId} {r : Record}
    {version first : Nat}

namespace View

theorem Proceeds.refl (v : View) : v.Proceeds g v := .advance (.aside 0 0)

theorem Proceeds.sound (hp : v.Proceeds g v') (h : v.Sound) : v'.Sound := by
  cases hp with
  | advance hm => exact hm.sound h
  | answer hm => exact hm.sound h
  | lapse n p written hstage hpart =>
      exact (h.congr _ v.calls).enter (by rw [hstage]; rfl) fun q hq => by cases hq
  | empty n hopen hslots =>
      have h' : View.Sound { v with contents := v.contents.clear } :=
        h.remark Slots.sound_clear (Contents.grows_clear _) (fun _ => ⟨rfl, rfl⟩)
          (List.map_id _).symm rfl
      exact h'.enter hopen.symm fun q hq => by cases hq

/-- The stages of the others, when a program rests. -/
theorem stage_enter_resting {w : View} {n k : Nat} {p : Pass}
    (hp : ((w.enter n .resting).stage k).pass? = some p) :
    k ≠ n ∧ (w.enter n .resting).stage k = w.stage k := by
  by_cases hk : k = n
  · subst hk
    rw [stage_enter_self] at hp
    cases hp
  · exact ⟨hk, stage_enter_of_ne hk⟩

/-- A program gives its pass up or ends it. -/
theorem Current.rest (h : v.Current id r version first) (n : Nat) :
    (v.enter n .resting).Current id r version first where
  first_le := h.first_le
  slot := h.slot
  older k p hp := by
    rw [(stage_enter_resting hp).2] at hp
    exact h.older k p hp
  newer k p hp := by
    rw [(stage_enter_resting hp).2] at hp
    exact h.newer k p hp
  unmarked := h.unmarked
  redeletes k p written ids hstage := by
    have hp : ((v.enter n .resting).stage k).pass? = some p := by rw [hstage]; rfl
    rw [(stage_enter_resting hp).2] at hstage
    exact h.redeletes k p written ids hstage

/-- A slot under the address of an admitted record is known to passes that began later. -/
theorem Current.first_le_batch (h : v.Current id r version first) {n : Nat} {p : Pass}
    (hp : (v.stage n).pass? = some p) {d : Candidate} (hd : d ∈ v.contents.slots.candidates)
    (hmem : d ∈ p.candidates) (hid : d.slot.id = id) : first ≤ p.batch := by
  refine Nat.le_of_not_lt fun hlt => ?_
  have hless := h.older n p hp hlt d hmem hid
  rw [(h.slot d hd hid).1] at hless
  exact Nat.lt_irrefl _ hless

namespace Kept

/-- A pass whose marks are not all deleted again. -/
theorem lapse (h : v.Kept id r version first) (hserial : v.Serial) {n : Nat} {p : Pass}
    {written : Bool} {ids part : List EntryId} (hstage : v.stage n = .deleting p written ids)
    (hpart : part ⊆ ids) :
    (View.enter { v with stored := v.stored.apply (.deleteBatch part) } n .resting).Kept
      id r version first := by
  have hnone : ∀ k q, ((View.enter { v with stored := v.stored.apply (.deleteBatch part) } n
      .resting).stage k).pass? ≠ some q := by
    intro k q hq
    obtain ⟨hk, hsame⟩ := stage_enter_resting hq
    rw [hsame] at hq
    refine hk (hserial k n (fun hr => ?_) (by rw [hstage]; exact nofun))
    rw [show v.stage k = .resting from hr] at hq
    cases hq
  refine ⟨(h.current.congr _ v.calls).rest n, fun k q hq => ?_, fun hgone => ⟨?_, ?_⟩⟩
  · exact absurd (Stage.pass?_of_written? hq) (hnone k q)
  · obtain ⟨hstored, hfirst⟩ := h.dropped hgone
    have hid : id ∉ part := by
      intro hid
      have hlt := h.current.redeletes n p written ids hstage (hpart hid)
      exact absurd (hfirst n p (by rw [hstage]; rfl)) (Nat.not_le_of_gt hlt)
    show v.stored.apply (.deleteBatch part) id = some r
    rw [Records.deleteBatch_apply, if_neg hid, hstored]
  · exact fun k q hq => absurd hq (hnone k q)

/-- All slots are removed after they were written. -/
theorem empty (h : v.Kept id r version first) (hserial : v.Serial) {n : Nat}
    (hslots : ∀ d ∈ v.contents.slots.candidates,
      ∃ p, v.stage n = .dropping p ∧ d ∈ p.candidates) :
    (View.enter { v with contents := v.contents.clear } n .resting).Kept id r version first where
  current := by
    have h' : View.Current { v with contents := v.contents.clear } id r version first :=
      ⟨h.current.first_le, fun _ => nofun, h.current.older, h.current.newer,
        h.current.unmarked, h.current.redeletes⟩
    exact h'.rest n
  written k q hq hle hid := by
    rw [(stage_enter_resting (Stage.pass?_of_written? hq)).2] at hq
    exact h.written k q hq hle hid
  dropped _ := by
    by_cases hgone : ∀ d ∈ v.contents.slots.candidates, d.slot.id ≠ id
    · refine ⟨(h.dropped hgone).1, fun k q hq => ?_⟩
      rw [(stage_enter_resting hq).2] at hq
      exact (h.dropped hgone).2 k q hq
    · simp only [not_forall, not_not] at hgone
      obtain ⟨d, hd, hid⟩ := hgone
      obtain ⟨p, hstage, hmem⟩ := hslots d hd
      have hpass : (v.stage n).pass? = some p := by rw [hstage]; rfl
      have hle := h.current.first_le_batch hpass hd hmem hid
      refine ⟨h.written n p (by rw [hstage]; rfl) hle (Pass.mem_ids.2 ⟨d, hmem, hid⟩), ?_⟩
      intro k q hq
      obtain ⟨hk, hsame⟩ := stage_enter_resting hq
      rw [hsame] at hq
      refine absurd (hserial k n (fun hr => ?_) (by rw [hstage]; exact nofun)) hk
      rw [show v.stage k = .resting from hr] at hq
      cases hq

/-- A record stays kept when a program goes on, as long as one pass is under way at most. -/
theorem proceeds (h : v.Kept id r version first) (hs : v.Sound) (hserial : v.Serial)
    (hp : v.Proceeds g v') : v'.Kept id r version first := by
  cases hp with
  | advance hm => exact h.move hs hserial hm (fun _ => nofun) rfl
  | answer hm => exact h.move hs hserial hm (fun _ => nofun) rfl
  | lapse n p written hstage hpart => exact h.lapse hserial hstage hpart
  | empty n hopen hslots => exact h.empty hserial hslots

end Kept

end View

/-! ## The steps of a pass -/

namespace View.Proceeds

variable {n : Nat} {p : Pass}

theorem save (verdict : Verdict) (hstage : v.stage n = .saving p) : ∃ calls,
    v.Proceeds g (View.enter { v with
      stored := verdict.carryOut v.stored (.saveBatch p.entries), calls } n
      (.finishing p (isAccepted (verdict.outcome (.saveBatch p.entries))))) := by
  cases verdict with
  | done => exact ⟨_, .answer (.save n .done p hstage)⟩
  | refused =>
      exact ⟨_, .answer (.fail n .refused p v.stored v.calls hstage rfl fun _ => Or.inl rfl)⟩
  | failed cause part =>
      refine ⟨v.calls, .answer (.fail n (.failed cause part) p _ _ hstage rfl fun id => ?_)⟩
      rcases Records.saveBatch_cases (p.entries.take part) v.stored with hid | ⟨e, he, hid⟩
      · exact Or.inl hid
      · obtain ⟨d, hd, rfl⟩ := Pass.mem_entries.1 (List.mem_of_mem_take he)
        exact Or.inr ⟨d, hd, hid⟩

theorem finish {written : Bool} (hstage : v.stage n = .finishing p written) :
    v.Proceeds g (View.enter { v with contents := (v.contents.finish p.batch).2 } n
      (passMarked (fun st => st) .dropping .resting p written (v.contents.finish p.batch).1)) := by
  simp only [passMarked]
  split
  next hclean =>
    refine .advance (.finish n 0 p written _ hstage ?_ (List.isEmpty_iff.1 hclean))
    cases written with
    | true => exact .drop
    | false => exact .rest
  next hmarked =>
    exact .advance (.finishMarked n 0 p written hstage fun h => hmarked (List.isEmpty_iff.2 h))

theorem redelete {written : Bool} {ids : List EntryId} (verdict : Verdict)
    (hstage : v.stage n = .deleting p written ids) : ∃ calls,
    v.Proceeds g (View.enter { v with
      stored := verdict.carryOut v.stored (.deleteBatch ids), calls } n
      (if written then passEnd .dropping .resting p (verdict.outcome (.deleteBatch ids))
        else .resting)) := by
  have hdone : ∀ verdict : Verdict, v.Proceeds g
      ((v.carryOut (some p.batch) (.deleteBatch ids)).enter n
        (if written then .dropping p else .resting)) := by
    intro verdict
    refine .answer (.redelete n verdict p written ids _ hstage ?_)
    cases written with
    | true => exact .drop
    | false => exact .rest
  cases verdict with
  | done => exact ⟨_, hdone .done⟩
  | refused => exact ⟨_, hdone .refused⟩
  | failed cause part =>
      refine ⟨v.calls, ?_⟩
      have hlapse := lapse (g := g) n p written hstage (List.take_subset part ids)
      cases written with
      | true => exact hlapse
      | false => exact hlapse

theorem drop (capacity : Nat) (hstage : v.stage n = .dropping p) :
    v.Proceeds g (View.enter { v with
      contents := (v.contents.dropAllWritten p.candidates).2.rebuild capacity } n .resting) :=
  .advance (.drop n 0 p capacity hstage)

theorem look {candidates : List Candidate} (hstage : v.stage n = .resting)
    (hsub : candidates.Sublist v.contents.slots.candidates) :
    v.Proceeds g (View.enter { v with
      contents := (v.contents.begin (candidates.map (·.slot))).2 } n
      (.saving ⟨v.contents.nextBatch, candidates⟩)) :=
  .advance (.look n 0 candidates hstage hsub)

end View.Proceeds

/-! ## Routines with a pass in them -/

section

variable {σ : Type} {inside : Stage → σ} {after : Pass → σ} {gaveUp : σ} (stage : σ → Stage)
  {x : σ} {n : Nat}

theorem stage_passMarked (hinside : ∀ st, stage (inside st) = st)
    (hafter : ∀ p, stage (after p) = .dropping p) (hgaveUp : stage gaveUp = .resting) (p : Pass)
    (written : Bool) (ids : List EntryId) : stage (passMarked inside after gaveUp p written ids)
      = passMarked (fun st => st) .dropping .resting p written ids := by
  simp only [passMarked]
  split
  · split
    · exact hafter p
    · exact hgaveUp
  · exact hinside _

theorem stage_passEnd (hafter : ∀ p, stage (after p) = .dropping p)
    (hgaveUp : stage gaveUp = .resting) (p : Pass) (result : Except Failure Unit) :
    stage (passEnd after gaveUp p result) = passEnd .dropping .resting p result := by
  cases result with
  | ok a => exact hafter p
  | error e => exact hgaveUp

/-- A pass goes on with its batch. -/
theorem PassAsks.proceeds {q : Request} {state : Reply q → σ}
    (h : PassAsks inside after gaveUp x q state) (hinside : ∀ st, stage (inside st) = st)
    (hafter : ∀ p, stage (after p) = .dropping p) (hgaveUp : stage gaveUp = .resting)
    {r r' : Running} {caller now : Nat} {a : Reply q} (hr : r.reply? caller now q = (some a, r'))
    (hstage : v.stage n = stage x) (hcontents : v.contents = r.cache.contents) :
    v.Proceeds g (View.enter { v with contents := r'.cache.contents } n (stage (state a))) := by
  cases h with
  | save p => cases hr
  | delete p written ids => cases hr
  | finish p written =>
      rw [hinside] at hstage
      cases hr
      rw [stage_passMarked stage hinside hafter hgaveUp]
      simp only [← hcontents]
      exact .finish hstage

/-- The backend deals with a call of a pass. -/
theorem PassAsks.answered {call : Call} {state : Reply (.backend call) → σ}
    (h : PassAsks inside after gaveUp x (.backend call) state)
    (hinside : ∀ st, stage (inside st) = st) (hafter : ∀ p, stage (after p) = .dropping p)
    (hgaveUp : stage gaveUp = .resting) (verdict : Verdict) (hstage : v.stage n = stage x) :
    ∃ calls, v.Proceeds g (View.enter { v with
      stored := verdict.carryOut v.stored call, calls } n
        (stage (state (verdict.outcome call)))) := by
  cases h with
  | save p =>
      rw [hinside] at hstage
      rw [hinside]
      exact View.Proceeds.save verdict hstage
  | delete p written ids =>
      rw [hinside] at hstage
      have hend : stage (if written then passEnd after gaveUp p (verdict.outcome (.deleteBatch ids))
            else gaveUp)
          = if written then passEnd .dropping .resting p (verdict.outcome (.deleteBatch ids))
            else .resting := by
        split
        · exact stage_passEnd stage hafter hgaveUp p _
        · exact hgaveUp
      rw [hend]
      exact View.Proceeds.redelete verdict hstage

end

namespace View.Proceeds

/-- Slots only go. -/
theorem mem_slots (hp : v.Proceeds g v') (hs : v.Sound) {d : Candidate}
    (hd : d ∈ v'.contents.slots.candidates) : d ∈ v.contents.slots.candidates := by
  cases hp with
  | advance hm => exact hm.mem_slots hs rfl hd rfl
  | answer hm => exact hm.mem_slots hs rfl hd rfl
  | lapse => exact hd
  | empty => cases hd

/-- Where no pass is under way and none begins, the slots stay. -/
theorem candidates_of_resting (hp : v.Proceeds g v') (hrest : ∀ n, v.stage n = .resting)
    (hrest' : ∀ n, v'.stage n = .resting) :
    v'.contents.slots.candidates = v.contents.slots.candidates := by
  cases hp with
  | @advance n now v' hm =>
      have hn := hrest n
      cases hm with
      | aside => rfl
      | look =>
          have hn' := hrest' n
          rw [stage_enter_self] at hn'
          cases hn'
      | finish _ _ _ _ _ hstage => cases hn.symm.trans hstage
      | finishMarked _ _ _ _ hstage => cases hn.symm.trans hstage
      | drop _ _ _ _ hstage => cases hn.symm.trans hstage
  | @answer n verdict v' hm =>
      have hn := hrest n
      cases hm with
      | idle => rfl
      | save _ _ _ hstage => cases hn.symm.trans hstage
      | fail _ _ _ _ _ hstage => cases hn.symm.trans hstage
      | redelete _ _ _ _ _ _ hstage => cases hn.symm.trans hstage
  | lapse n p written hstage => cases (hrest n).symm.trans hstage
  | empty n hopen hslots =>
      refine (List.eq_nil_iff_forall_not_mem.2 fun d hd => ?_).symm
      obtain ⟨p, hstage, -⟩ := hslots d hd
      cases (hrest n).symm.trans hstage

end View.Proceeds

/-! ## Accounts -/

/-- Every record that was admitted and not removed since is kept, and every slot has the record
that was admitted last under its address. -/
structure View.AccountsFor (v : View) (admitted : Records) : Prop where
  sound : v.Sound
  kept : ∀ id r, admitted id = some r → ∃ version first, v.Kept id r version first
  slots : ∀ d ∈ v.contents.slots.candidates, admitted d.slot.id = some d.slot.record

namespace View.AccountsFor

variable {admitted : Records}

theorem start (g : WithCallers.CallerSystem) :
    View.AccountsFor ⟨.empty g.config.maxEntries, g.initial, [], fun _ => .resting⟩
      (fun _ => none) where
  sound := g.jobSystem.view_sound
  kept _ _ := nofun
  slots _ := nofun

theorem put (h : v.AccountsFor admitted) (hserial : v.Serial) {key : Key} {record : Record}
    (htakes : g.config.takes record = true) :
    View.AccountsFor { v with contents := v.contents.put key record }
      (admitted.put (key, record)) := by
  have hm : Move g.jobSystem v (.offer key record)
      { v with contents := v.contents.put key record } := .accept key record htakes
  refine ⟨hm.sound h.sound, fun id r hr => ?_, fun d hd => ?_⟩
  · by_cases hid : id = record.idAt key
    · subst hid
      rw [Records.put_self] at hr
      cases hr
      exact ⟨_, _, .of_accept h.sound key record⟩
    · rw [Records.put_of_ne hid] at hr
      obtain ⟨version, first, hkept⟩ := h.kept id r hr
      refine ⟨version, first, hkept.move h.sound hserial hm nofun ?_⟩
      simp [Event.concerns, Event.admits, Event.removes, Ne.symm hid]
  · rcases (Contents.mem_slots_put h.sound.slots).1 hd with rfl | ⟨hd, hid⟩
    · exact Records.put_self _ _ _
    · rw [Records.put_of_ne hid]
      exact h.slots d hd

/-- Entries are removed from the cache. -/
theorem remove (h : v.AccountsFor admitted) (hserial : v.Serial) {e : Event Empty}
    (hm : Move g.jobSystem v e v') (hown : ∀ call, e ≠ .own call)
    (hadmits : ∀ id, e.admits g.config id = false)
    (hgone : ∀ d ∈ v'.contents.slots.candidates, e.removes d.slot.id = false) :
    v'.AccountsFor fun id => if e.removes id then none else admitted id := by
  refine ⟨hm.sound h.sound, fun id r hr => ?_, fun d hd => ?_⟩
  · cases hremoves : e.removes id with
    | true => simp [hremoves] at hr
    | false =>
        simp only [hremoves, Bool.false_eq_true, if_false] at hr
        obtain ⟨version, first, hkept⟩ := h.kept id r hr
        refine ⟨version, first, hkept.move h.sound hserial hm hown ?_⟩
        simp only [Event.concerns, hremoves, Bool.or_false]
        exact hadmits id
  · simp only [hgone d hd, Bool.false_eq_true, if_false]
    exact h.slots d (hm.mem_slots h.sound (hadmits _) hd rfl)

theorem proceeds (h : v.AccountsFor admitted) (hserial : v.Serial) (hp : v.Proceeds g v') :
    v'.AccountsFor admitted where
  sound := hp.sound h.sound
  kept id r hr := by
    obtain ⟨version, first, hkept⟩ := h.kept id r hr
    exact ⟨version, first, hkept.proceeds h.sound hserial hp⟩
  slots d hd := h.slots d (hp.mem_slots h.sound hd)

end View.AccountsFor

end Cache

end RecordStore
