import RecordStore.Proofs.Filter.Holdings

/-!
# When a filter is saturated

A filter with a stray refuses every insertion.  The stray is there because nothing is
left for it, and it goes as soon as something is.

*Moves.*  A walk begins in a full bucket and goes on only where the next bucket is full,
so the place that it takes is never free (`carefulWalk_eq`).  Both buckets of the tag in
hand are full all the way: one because the walk goes on there, the other because the walk
has just put a tag into it.  So a tag that is left over is *crowded out*
(`CrowdedOut.walk`).

*Deletions.*  A deletion that takes a tag out of a bucket tries to settle the stray.  A
stray that stays is crowded out again (`strayCrowdedOut_settleStray`), and it stays exactly
where the tag was taken out of neither of its buckets (`stray_settleStray_without`).

So after any requests a filter is *sound in saturation* (`run_soundInSaturation`): it
refuses only what it has no place for.
-/

namespace RecordStore

namespace Filter

/-! ## Positions -/

/-- The bucket of a word is chosen by a mask. -/
theorem Position.ofWord_val (bits : Nat) (w : UInt64) :
    (Position.ofWord bits w).val = w.toNat &&& (bucketCount bits - 1) :=
  (Nat.and_two_pow_sub_one_eq_mod w.toNat bits).symm

/-- The partner of a bucket is chosen by a mask. -/
theorem partner_val_eq_and {bits : Nat} (i : Position bits) (tag : UInt8) :
    (partner i tag).val
      = (i.val ^^^ (Fingerprint.avalanche tag.toUInt64).toNat) &&& (bucketCount bits - 1) :=
  (Nat.and_two_pow_sub_one_eq_mod _ bits).symm

/-! ## Full buckets -/

namespace Buckets

variable {bits : Nat} {b c : Buckets bits} {i j : Position bits} {tag : UInt8}

theorem lt_bucketCount (i : Position bits) : i.val < bucketCount bits := i.isLt

/-- Puts a tag into a place of a bucket, whatever stands there. -/
def trade (b : Buckets bits) (i : Position bits) (place : Fin 4) (tag : UInt8) : Buckets bits :=
  b.set i ((b.get i).set place tag place.isLt) (lt_bucketCount i)

/-- A bucket without room has a tag in every place. -/
theorem hasRoom_eq_false_iff : b.hasRoom i = false ↔ ∀ t ∈ b.get i, t ≠ 0 := by
  have hmem : b.hasRoom i = true ↔ 0 ∈ b.get i := Vector.contains_iff_mem
  rw [← Bool.not_eq_true, hmem]
  constructor
  · intro h t ht hzero
    exact h (hzero ▸ ht)
  · intro h hzero
    exact h 0 hzero rfl

theorem hasRoom_congr (h : c.get i = b.get i) : c.hasRoom i = b.hasRoom i := by
  show (c.get i).contains 0 = (b.get i).contains 0
  rw [h]

/-- Trading a tag makes no room anywhere. -/
theorem hasRoom_trade {place : Fin 4} (htag : tag ≠ 0) (hj : b.hasRoom j = false) :
    (b.trade i place tag).hasRoom j = false := by
  by_cases hij : j = i
  · subst hij
    have hget : (b.trade j place tag).get j = (b.get j).set place tag place.isLt :=
      Vector.getElem_set_self j.isLt
    rw [hasRoom_eq_false_iff] at hj ⊢
    rw [hget]
    intro t ht
    rcases Vector.mem_or_eq_of_mem_set ht with hold | hnew
    · exact hj t hold
    · rw [hnew]
      exact htag
  · have hget : (b.trade i place tag).get j = b.get j :=
      Vector.getElem_set_ne i.isLt j.isLt fun e => hij (Fin.ext e.symm)
    rw [hasRoom_congr hget]
    exact hj

theorem hasRoom_exchange_of_ne {old new : UInt8} (hj : j ≠ i) :
    (b.exchange i old new).hasRoom j = b.hasRoom j := by
  have hget : (b.exchange i old new).get j = b.get j :=
    Vector.getElem_set_ne i.isLt j.isLt fun e => hj (Fin.ext e.symm)
  exact hasRoom_congr hget

/-- There is room where a tag was taken out. -/
theorem hasRoom_take (h : b.holds i tag = true) : (b.take i tag).hasRoom i = true := by
  have hget : (b.take i tag).get i = (b.get i).replace tag 0 := Vector.getElem_set_self i.isLt
  have hcontains : (b.get i).contains tag = true := h
  have hold : 0 < (b.get i).count tag :=
    Vector.count_pos_iff.2 (Vector.contains_iff_mem.1 hcontains)
  have hzero : 0 < ((b.take i tag).get i).count 0 := by
    rw [hget, Vector.count_replace, if_pos hcontains]
    by_cases htag : tag = 0
    · subst htag
      simpa using hold
    · simp [htag]
  exact Vector.contains_iff_mem.2 (Vector.count_pos_iff.1 hzero)

/-- A full bucket holds four tags. -/
theorem countP_of_full (h : b.hasRoom i = false) : (b.get i).countP (· != 0) = 4 := by
  rw [Vector.countP_eq_size]
  intro t ht
  simpa using hasRoom_eq_false_iff.1 h t ht

/-- Where there is a full bucket, there are four tags. -/
theorem four_le_count (h : b.hasRoom i = false) : 4 ≤ b.count (everything bits) := by
  calc 4 = (b.get i).countP (· != 0) := (countP_of_full h).symm
    _ ≤ b.count (everything bits) :=
        Finset.single_le_sum (f := fun i => (b.get i).countP (· != 0)) (fun _ _ => Nat.zero_le _)
          (Finset.mem_univ i)

/-- A tag in hand that has no place in either of its buckets. -/
structure CrowdedOut (b : Buckets bits) (i : Position bits) (tag : UInt8) : Prop where
  ne_zero : tag ≠ 0
  here : b.hasRoom i = false
  there : b.hasRoom (partner i tag) = false

/-- The partner bucket will do as well for a start. -/
theorem CrowdedOut.partner (h : b.CrowdedOut i tag) : b.CrowdedOut (partner i tag) tag where
  ne_zero := h.ne_zero
  here := h.there
  there := by
    rw [partner_partner]
    exact h.here

end Buckets

/-! ## Moves -/

section

variable {bits : Nat} {b : Buckets bits} {i : Position bits} {tag : UInt8}

/-- The place that gives way at a word of the generator. -/
def placeOf (word : UInt64) : Fin 4 := Fin.ofNat 4 word.toNat

/-- Moves tags as `walk` does, but gives up when the place to take is free. -/
def carefulWalk : Nat → Buckets bits → UInt64 → Position bits → UInt8 → Option (Walk bits)
  | 0, b, word, i, tag => some ⟨b, word, some ⟨i, tag⟩⟩
  | moves + 1, b, word, i, tag =>
      let word := nextWord word
      let displaced := (b.get i).get (placeOf word)
      if displaced = 0 then none
      else
        let b := b.trade i (placeOf word) tag
        let j := partner i displaced
        if b.hasRoom j then some ⟨b.put j displaced, word, none⟩
        else carefulWalk moves b word j displaced

theorem walk_succ (moves : Nat) (b : Buckets bits) (word : UInt64) (i : Position bits)
    (tag : UInt8) :
    walk (moves + 1) b word i tag =
      (let word := nextWord word
       let displaced := (b.get i).get (placeOf word)
       let b := b.trade i (placeOf word) tag
       let j := partner i displaced
       if b.hasRoom j then ⟨b.put j displaced, word, none⟩ else walk moves b word j displaced) :=
  rfl

/-- In a full bucket there is a tag in every place. -/
theorem displaced_ne_zero (h : b.hasRoom i = false) (place : Fin 4) :
    (b.get i).get place ≠ 0 := by
  exact Buckets.hasRoom_eq_false_iff.1 h _ (Vector.getElem_mem place.isLt)

/-- A tag that was displaced into a full bucket is crowded out: the bucket that it comes
from is full too. -/
theorem Buckets.CrowdedOut.trade {place : Fin 4} (h : b.CrowdedOut i tag)
    (hfull : (b.trade i place tag).hasRoom (Filter.partner i ((b.get i).get place)) = false) :
    (b.trade i place tag).CrowdedOut (Filter.partner i ((b.get i).get place))
      ((b.get i).get place) where
  ne_zero := displaced_ne_zero h.here place
  here := hfull
  there := by
    rw [partner_partner]
    exact Buckets.hasRoom_trade h.ne_zero h.here

/-- What a walk leaves over is crowded out. -/
theorem Buckets.CrowdedOut.walk (moves : Nat) (word : UInt64) (h : b.CrowdedOut i tag) :
    ∀ s, (walk moves b word i tag).stray = some s →
      (walk moves b word i tag).buckets.CrowdedOut s.position s.tag := by
  induction moves generalizing b word i tag with
  | zero =>
      intro s hs
      cases hs
      exact h
  | succ moves ih =>
      intro s hs
      rw [walk_succ] at hs ⊢
      dsimp only at hs ⊢
      split at hs
      next => cases hs
      next hfull =>
        rw [if_neg hfull]
        exact ih _ (h.trade (Bool.eq_false_iff.2 hfull)) s hs

/-- A walk that begins with a tag that is crowded out never takes a free place. -/
theorem carefulWalk_eq (moves : Nat) (word : UInt64) (h : b.CrowdedOut i tag) :
    carefulWalk moves b word i tag = some (walk moves b word i tag) := by
  induction moves generalizing b word i tag with
  | zero => rfl
  | succ moves ih =>
      rw [walk_succ, carefulWalk]
      dsimp only
      rw [if_neg (displaced_ne_zero h.here _)]
      split
      next => rfl
      next hfull => exact ih _ (h.trade (Bool.eq_false_iff.2 hfull))

end

/-! ## Insertions -/

section

variable {f g : Filter} {a : UInt64}

/-- An insertion with both buckets full moves tags. -/
theorem insert_eq_afterWalk (hstray : f.stray = none)
    (h : f.buckets.CrowdedOut (f.home a) (tagOf a)) :
    f.insert a
      = .ok (f.afterWalk (walk maxMoves f.buckets (nextWord f.word) (f.start a) (tagOf a))) := by
  simp only [insert, hstray, h.here, h.there]
  rfl

theorem crowdedOut_start (h : f.buckets.CrowdedOut (f.home a) (tagOf a)) :
    f.buckets.CrowdedOut (f.start a) (tagOf a) := by
  rw [start]
  split
  · exact h
  · exact h.partner

/-- Whatever stray there is, both of its buckets are full. -/
def StrayCrowdedOut (f : Filter) : Prop :=
  ∀ s, f.stray = some s → f.buckets.CrowdedOut s.position s.tag

theorem strayCrowdedOut_of_none (h : f.stray = none) : f.StrayCrowdedOut := by
  intro s hs
  rw [h] at hs
  cases hs

theorem strayCrowdedOut_insert (h : f.insert a = .ok g) : g.StrayCrowdedOut := by
  obtain ⟨hstray, haccepts⟩ := accepts_of_insert h
  cases haccepts with
  | home hroom => exact strayCrowdedOut_of_none hstray
  | partner hhome hroom => exact strayCrowdedOut_of_none hstray
  | moved hhome hpartner =>
      have hout : f.buckets.CrowdedOut (f.home a) (tagOf a) :=
        ⟨tagOf_ne_zero a, hhome, hpartner⟩
      exact (crowdedOut_start hout).walk maxMoves (nextWord f.word)

/-! ## Deletions -/

theorem settleStray_eq {s : Stray f.bits} (hs : f.stray = some s) :
    f.settleStray =
      if f.buckets.hasRoom s.position then
        { f with buckets := f.buckets.put s.position s.tag, stray := none }
      else if f.buckets.hasRoom (partner s.position s.tag) then
        { f with buckets := f.buckets.put (partner s.position s.tag) s.tag, stray := none }
      else f := by
  simp only [settleStray]
  split
  next hnone =>
    rw [hs] at hnone
    cases hnone
  next s' hs' =>
    rw [hs] at hs'
    cases hs'
    rfl

/-- The stray is settled exactly when one of its buckets has room. -/
theorem stray_settleStray {s : Stray f.bits} (hs : f.stray = some s) :
    f.settleStray.stray = none
      ↔ f.buckets.hasRoom s.position = true
        ∨ f.buckets.hasRoom (partner s.position s.tag) = true := by
  rw [settleStray_eq hs]
  by_cases hi : f.buckets.hasRoom s.position = true
  · rw [if_pos hi]
    simp [hi]
  by_cases hj : f.buckets.hasRoom (partner s.position s.tag) = true
  · rw [if_neg hi, if_pos hj]
    simp [hj]
  · rw [if_neg hi, if_neg hj]
    simp [hi, hj, hs]

/-- A stray that is not settled is crowded out. -/
theorem strayCrowdedOut_settleStray (h : ∀ s, f.stray = some s → s.tag ≠ 0) :
    f.settleStray.StrayCrowdedOut := by
  cases hs : f.stray with
  | none =>
      have hsame : f.settleStray = f := by simp only [settleStray, hs]
      rw [hsame]
      exact strayCrowdedOut_of_none hs
  | some s =>
      rw [settleStray_eq hs]
      split
      next => exact strayCrowdedOut_of_none rfl
      next hi =>
        split
        next => exact strayCrowdedOut_of_none rfl
        next hj =>
          intro s' hs'
          rw [hs] at hs'
          cases hs'
          exact ⟨h s hs, Bool.eq_false_iff.2 hi, Bool.eq_false_iff.2 hj⟩

/-- The bucket that a deletion takes a tag out of, if it finds the tag in a bucket. -/
def takesFrom? (f : Filter) (a : UInt64) : Option (Position f.bits) :=
  if f.buckets.holds (f.home a) (tagOf a) then some (f.home a)
  else if f.buckets.holds (partner (f.home a) (tagOf a)) (tagOf a) then
    some (partner (f.home a) (tagOf a))
  else none

/-- The filter without the tag of a fingerprint in a bucket, before the stray is settled. -/
def without (f : Filter) (p : Position f.bits) (a : UInt64) : Filter :=
  { f with buckets := f.buckets.take p (tagOf a), len := f.len - 1 }

theorem holds_of_takesFrom? {p : Position f.bits} (h : f.takesFrom? a = some p) :
    f.buckets.holds p (tagOf a) = true := by
  simp only [takesFrom?] at h
  split at h
  next hi =>
    cases h
    exact hi
  next =>
    split at h
    next hj =>
      cases h
      exact hj
    next => cases h

theorem erase?_of_takesFrom? {p : Position f.bits} (h : f.takesFrom? a = some p) :
    f.erase? a = some (f.without p a).settleStray := by
  simp only [takesFrom?] at h
  split at h
  next hi =>
    cases h
    simp only [erase?, hi, if_true]
    rfl
  next hi =>
    split at h
    next hj =>
      cases h
      simp only [erase?, hi, hj, if_true]
      rfl
    next => cases h

theorem takesFrom?_eq_none_iff : f.takesFrom? a = none ↔
    f.buckets.holds (f.home a) (tagOf a) = false ∧
      f.buckets.holds (partner (f.home a) (tagOf a)) (tagOf a) = false := by
  simp only [takesFrom?]
  split
  next hi => simp [hi]
  next hi =>
    split
    next hj => simp [hj]
    next hj => simp [hi, hj]

/-- Where no bucket has the tag, a deletion can only take the stray. -/
theorem stray_of_takesFrom?_eq_none (h : f.takesFrom? a = none) (hg : f.erase? a = some g) :
    g.stray = none := by
  obtain ⟨hi, hj⟩ := takesFrom?_eq_none_iff.1 h
  simp only [erase?, hi, hj, Bool.false_eq_true, if_false] at hg
  split at hg
  next =>
    cases hg
    rfl
  next => cases hg

theorem strayCrowdedOut_erase? (h : f.StrayCrowdedOut) (hg : f.erase? a = some g) :
    g.StrayCrowdedOut := by
  cases hp : f.takesFrom? a with
  | none => exact strayCrowdedOut_of_none (stray_of_takesFrom?_eq_none hp hg)
  | some p =>
      rw [erase?_of_takesFrom? hp] at hg
      cases hg
      exact strayCrowdedOut_settleStray fun s hs => (h s hs).ne_zero

/-- A tag that is taken out of a bucket lets the stray in exactly if it is one of the
stray's two. -/
theorem stray_settleStray_without {s : Stray f.bits} {p : Position f.bits}
    (h : f.StrayCrowdedOut) (hs : f.stray = some s) (hp : f.buckets.holds p (tagOf a) = true) :
    (f.without p a).settleStray.stray = none
      ↔ p = s.position ∨ p = partner s.position s.tag := by
  have hsettled : (f.without p a).settleStray.stray = none
      ↔ (f.buckets.take p (tagOf a)).hasRoom s.position = true
        ∨ (f.buckets.take p (tagOf a)).hasRoom (partner s.position s.tag) = true :=
    stray_settleStray hs
  have hroom : ∀ j, f.buckets.hasRoom j = false →
      ((f.buckets.take p (tagOf a)).hasRoom j = true ↔ p = j) := by
    intro j hj
    by_cases hpj : j = p
    · subst hpj
      simp [Buckets.hasRoom_take hp]
    · have hsame : (f.buckets.take p (tagOf a)).hasRoom j = f.buckets.hasRoom j :=
        Buckets.hasRoom_exchange_of_ne hpj
      rw [hsame, hj]
      simp [Ne.symm hpj]
  rw [hsettled, hroom _ (h s hs).here, hroom _ (h s hs).there]

end

/-! ## Filters in use -/

/-- What a filter keeps to, whether it is saturated or not. -/
structure SoundInSaturation (f : Filter) : Prop where
  /-- No tag is the mark of a free place: the taken places and the stray make up the
  length. -/
  len : f.len = f.buckets.count (everything f.bits) + if f.stray.isSome then 1 else 0
  tag : ∀ s, f.stray = some s → s.tag ≠ 0
  /-- Every bucket that is computed is one of the filter, and chosen by a mask. -/
  home : ∀ a, (f.home a).val < bucketCount f.bits ∧
    (f.home a).val = a.toNat &&& (bucketCount f.bits - 1)
  partner : ∀ (i : Position f.bits) tag, (Filter.partner i tag).val < bucketCount f.bits ∧
    (Filter.partner i tag).val
      = (i.val ^^^ (Fingerprint.avalanche tag.toUInt64).toNat) &&& (bucketCount f.bits - 1)
  position : ∀ s, f.stray = some s → s.position.val < bucketCount f.bits
  /-- An insertion that moves tags takes no free place on the way. -/
  moves : ∀ a, f.stray = none → f.buckets.hasRoom (f.home a) = false →
    f.buckets.hasRoom (Filter.partner (f.home a) (tagOf a)) = false →
    ∃ w, carefulWalk maxMoves f.buckets (nextWord f.word) (f.start a) (tagOf a) = some w ∧
      f.insert a = .ok (f.afterWalk w)
  /-- Every place in both buckets of the stray has a tag. -/
  full : ∀ s, f.stray = some s → (∀ t ∈ f.buckets.get s.position, t ≠ 0) ∧
    ∀ t ∈ f.buckets.get (Filter.partner s.position s.tag), t ≠ 0
  /-- A refused insertion finds five tags at least, and changes nothing. -/
  refused : ∀ a e, f.insert a = .error e → 5 ≤ f.len ∧ f.perform (.insert a) = (f, false)
  /-- Taking a tag out of a bucket settles the stray exactly when the bucket is one of its
  two.  Any insertion is accepted then. -/
  settled : ∀ s a p, f.stray = some s → f.takesFrom? a = some p →
    ∃ g, f.erase? a = some g ∧
      (g.stray = none ↔ p = s.position ∨ p = Filter.partner s.position s.tag) ∧
      (g.stray = none → ∀ b, ∃ g', g.insert b = .ok g')

section

variable {f : Filter}

theorem insert_eq_ok_of_stray (h : f.stray = none) (a : UInt64) : ∃ g, f.insert a = .ok g := by
  cases hinsert : f.insert a with
  | ok g => exact ⟨g, rfl⟩
  | error e =>
      have hsome := (insert_eq_error_iff.1 hinsert).1
      rw [h] at hsome
      cases hsome

/-- The stray counts like any other tag. -/
theorem StrayCrowdedOut.weightOf_stray (h : f.StrayCrowdedOut) :
    (everything f.bits).weightOf f.stray = if f.stray.isSome then 1 else 0 := by
  cases hs : f.stray with
  | none => rfl
  | some s =>
      have hne : (everything f.bits).has s.position s.tag = true := by
        simpa [everything] using (h s hs).ne_zero
      simp [Region.weightOf, Region.weight, hne]

theorem StrayCrowdedOut.soundInSaturation (h : f.StrayCrowdedOut)
    (hlen : f.len = f.count everything) : f.SoundInSaturation := by
  have htags : f.len = f.buckets.count (everything f.bits) + if f.stray.isSome then 1 else 0 := by
    rw [hlen, count, h.weightOf_stray]
  constructor
  case len => exact htags
  case tag => exact fun s hs => (h s hs).ne_zero
  case home => exact fun a => ⟨(f.home a).isLt, Position.ofWord_val f.bits a⟩
  case partner => exact fun i tag => ⟨(Filter.partner i tag).isLt, partner_val_eq_and i tag⟩
  case position => exact fun s _ => s.position.isLt
  case moves =>
    intro a hnone hi hj
    have hout : f.buckets.CrowdedOut (f.home a) (tagOf a) := ⟨tagOf_ne_zero a, hi, hj⟩
    exact ⟨_, carefulWalk_eq maxMoves (nextWord f.word) (crowdedOut_start hout),
      insert_eq_afterWalk hnone hout⟩
  case full =>
    intro s hs
    exact ⟨Buckets.hasRoom_eq_false_iff.1 (h s hs).here,
      Buckets.hasRoom_eq_false_iff.1 (h s hs).there⟩
  case refused =>
    intro a e he
    have hsome := (insert_eq_error_iff.1 he).1
    obtain ⟨s, hs⟩ := Option.isSome_iff_exists.1 hsome
    have hfour := Buckets.four_le_count (h s hs).here
    rw [if_pos hsome] at htags
    refine ⟨by omega, ?_⟩
    simp only [perform, he]
  case settled =>
    intro s a p hs hp
    exact ⟨_, erase?_of_takesFrom? hp, stray_settleStray_without h hs (holds_of_takesFrom? hp),
      insert_eq_ok_of_stray⟩

theorem StrayCrowdedOut.perform (h : f.StrayCrowdedOut) (request : Request) :
    (f.perform request).1.StrayCrowdedOut := by
  cases request with
  | insert a =>
      simp only [Filter.perform]
      split
      next g hg => exact strayCrowdedOut_insert hg
      next => exact h
  | contains a => exact h
  | delete a =>
      simp only [Filter.perform]
      split
      next g hg => exact strayCrowdedOut_erase? h hg
      next => exact h
  | clear => exact strayCrowdedOut_of_none rfl

theorem strayCrowdedOut_run (capacity : Nat) (requests : List Request) :
    (Usage.run capacity requests).filter.StrayCrowdedOut :=
  run_keeps (Q := fun u : Usage => u.filter.StrayCrowdedOut)
    (fun _ request h => h.perform request) (strayCrowdedOut_of_none rfl) requests

end

/-- After any requests, a filter refuses only what it has no place for, and only as long as
it has none. -/
theorem run_soundInSaturation (capacity : Nat) (requests : List Request) :
    (Usage.run capacity requests).filter.SoundInSaturation := by
  have hlen := (Usage.balanced_run capacity requests).len
  exact (strayCrowdedOut_run capacity requests).soundInSaturation hlen

/-- Five fingerprints with one tag, whose two buckets are the same, saturate a filter. -/
example : ((Usage.run 4 (List.replicate 5 (.insert 0))).filter.stray.isSome,
    (Usage.run 4 (List.replicate 6 (.insert 0))).filter.len) = (true, 5) := by decide +kernel

end Filter

end RecordStore
