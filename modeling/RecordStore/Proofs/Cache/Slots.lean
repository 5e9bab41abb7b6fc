import Mathlib.Data.List.Sort
import RecordStore.Cache.Slots

/-!
# Slots as an ordered list

The slots of a cache are looked at through `Slots.candidates`, the list of the slots with
their numbers, by increasing number.  Each change of the slots is one change of that
list: an admission appends to it or changes an entry in place, and a removal filters it.

`Slots.Sound` says that the index finds exactly the slots, and that numbers and versions
were given out before.  Every change keeps it.  Under it an address has one slot at most
(`Sound.nodup_ids`), and the look-ups by address read the list.
-/

namespace RecordStore

namespace Cache

namespace Slots

variable {s : Slots} {c d : Candidate} {id : EntryId}

/-! ## The list of candidates -/

theorem mem_candidates : c ∈ s.candidates ↔ s.bySeq[c.seq]? = some c.slot := by
  simp only [candidates, List.mem_map]
  constructor
  · rintro ⟨p, hp, rfl⟩
    exact Std.TreeMap.mem_toList_iff_getElem?_eq_some.1 hp
  · intro h
    exact ⟨(c.seq, c.slot), Std.TreeMap.mem_toList_iff_getElem?_eq_some.2 h, rfl⟩

theorem pairwise_candidates : s.candidates.Pairwise (·.seq < ·.seq) := by
  simp only [candidates, List.pairwise_map]
  exact Std.TreeMap.ordered_keys_toList.imp fun h => Nat.compare_eq_lt.1 h

theorem nodup_candidates : s.candidates.Nodup := by
  refine pairwise_candidates.imp fun {a b} h => ?_
  rintro rfl
  exact Nat.lt_irrefl _ h

@[simp] theorem length_candidates : s.candidates.length = s.len := by
  simp [candidates, len]

/-- A list in the order of the numbers is determined by its members. -/
theorem eq_of_pairwise {l m : List Candidate} (hl : l.Pairwise (·.seq < ·.seq))
    (hm : m.Pairwise (·.seq < ·.seq)) (h : ∀ c, c ∈ l ↔ c ∈ m) : l = m := by
  have hirrefl : Std.Irrefl fun a b : Candidate => a.seq < b.seq :=
    ⟨fun a => Nat.lt_irrefl a.seq⟩
  have hantisymm : Std.Antisymm fun a b : Candidate => a.seq < b.seq :=
    ⟨fun a b hab hba => absurd hab (Nat.lt_asymm hba)⟩
  exact hl.eq_of_mem_iff hm h

/-- The candidates are any ordered list with the right members. -/
theorem candidates_eq {l : List Candidate} (hl : l.Pairwise (·.seq < ·.seq))
    (h : ∀ c, c ∈ l ↔ s.bySeq[c.seq]? = some c.slot) : s.candidates = l :=
  eq_of_pairwise pairwise_candidates hl fun c => mem_candidates.trans (h c).symm

theorem eq_of_seq_eq (hc : c ∈ s.candidates) (hd : d ∈ s.candidates) (h : c.seq = d.seq) :
    c = d := by
  rw [mem_candidates] at hc hd
  rw [h, hd] at hc
  cases c
  cases d
  simp_all

/-! ## Soundness -/

/-- What every change of the slots keeps. -/
structure Sound (s : Slots) : Prop where
  index_of_mem : ∀ c ∈ s.candidates, s.index[c.slot.id]? = some c.seq
  mem_of_index : ∀ id seq, s.index[id]? = some seq →
    ∃ slot, ⟨seq, slot⟩ ∈ s.candidates ∧ slot.id = id
  seq_lt : ∀ c ∈ s.candidates, c.seq < s.nextSeq
  version_le : ∀ c ∈ s.candidates, c.slot.version ≤ s.lastVersion
  version_inj : ∀ c ∈ s.candidates, ∀ d ∈ s.candidates,
    c.slot.version = d.slot.version → c = d

theorem sound_empty : ({} : Slots).Sound where
  index_of_mem := by simp [candidates]
  mem_of_index := by simp
  seq_lt := by simp [candidates]
  version_le := by simp [candidates]
  version_inj := by simp [candidates]

namespace Sound

/-- An address has one slot at most. -/
theorem eq_of_id_eq (h : s.Sound) (hc : c ∈ s.candidates) (hd : d ∈ s.candidates)
    (hid : c.slot.id = d.slot.id) : c = d := by
  have hi := h.index_of_mem c hc
  rw [hid, h.index_of_mem d hd] at hi
  exact eq_of_seq_eq hc hd (Option.some.inj hi).symm

theorem nodup_ids (h : s.Sound) : (s.toList.map Slot.id).Nodup := by
  rw [toList, List.map_map]
  exact nodup_candidates.map_on fun c hc d hd hid => h.eq_of_id_eq hc hd hid

theorem find?_eq_some_iff (h : s.Sound) :
    s.find? id = some c ↔ c ∈ s.candidates ∧ c.slot.id = id := by
  constructor
  · intro hf
    simp only [find?, Option.bind_eq_some_iff, Option.map_eq_some_iff] at hf
    obtain ⟨seq, hi, slot, hs, rfl⟩ := hf
    obtain ⟨slot', hmem, hid⟩ := h.mem_of_index id seq hi
    have : slot' = slot := by
      rw [mem_candidates] at hmem
      simpa [hs] using hmem.symm
    subst this
    exact ⟨hmem, hid⟩
  · rintro ⟨hc, rfl⟩
    simp [find?, h.index_of_mem c hc, mem_candidates.1 hc]

theorem find?_eq_none_iff (h : s.Sound) :
    s.find? id = none ↔ ∀ c ∈ s.candidates, c.slot.id ≠ id := by
  constructor
  · intro hf c hc hid
    rw [h.find?_eq_some_iff.2 ⟨hc, hid⟩] at hf
    cases hf
  · intro hall
    cases hf : s.find? id with
    | none => rfl
    | some c =>
        obtain ⟨hc, hid⟩ := h.find?_eq_some_iff.1 hf
        exact absurd hid (hall c hc)

end Sound

/-- The look-up of a slot is that of a candidate. -/
theorem get?_eq : s.get? id = (s.find? id).map (·.slot) := by
  simp only [get?, find?, Option.map_bind, Function.comp_def, Option.map_map]
  cases s.index[id]? with
  | none => rfl
  | some seq => simp

/-- The record of the slot with an address, found by going through the slots. -/
def recordAt? (s : Slots) (id : EntryId) : Option Record :=
  (s.toList.find? fun slot => slot.id == id).map (·.record)

theorem Sound.recordAt?_eq (h : s.Sound) : s.recordAt? id = (s.get? id).map (·.record) := by
  rw [recordAt?, get?_eq, toList, List.find?_map, Option.map_map, Option.map_map]
  congr 1
  cases hf : s.find? id with
  | none =>
      refine List.find?_eq_none.2 fun c hc => ?_
      simpa using h.find?_eq_none_iff.1 hf c hc
  | some c =>
      obtain ⟨hc, hid⟩ := h.find?_eq_some_iff.1 hf
      cases hl : s.candidates.find? ((fun slot => slot.id == id) ∘ Candidate.slot) with
      | none => exact absurd hid (by simpa using List.find?_eq_none.1 hl c hc)
      | some d =>
          have hd := List.find?_some hl
          simp only [Function.comp_apply, beq_iff_eq] at hd
          rw [h.eq_of_id_eq (List.mem_of_find?_eq_some hl) hc (hd.trans hid.symm)]

theorem Sound.recordAt?_of_mem (h : s.Sound) (hc : c ∈ s.candidates) :
    s.recordAt? c.slot.id = some c.slot.record := by
  rw [h.recordAt?_eq, get?_eq, h.find?_eq_some_iff.2 ⟨hc, rfl⟩]
  rfl

theorem recordAt?_eq_none_iff : s.recordAt? id = none ↔ ∀ c ∈ s.candidates, c.slot.id ≠ id := by
  simp [recordAt?, toList, List.find?_eq_none]

/-! ## Admission -/

/-- The candidate that an admission leaves at its address. -/
def admitted (s : Slots) (key : Key) (record : Record) : Candidate where
  seq := ((s.find? (record.idAt key)).map (·.seq)).getD s.nextSeq
  slot := ⟨s.lastVersion + 1, key, record⟩

@[simp] theorem id_admitted (key : Key) (record : Record) :
    (s.admitted key record).slot.id = record.idAt key := rfl

/-- An admission under a new address appends. -/
theorem candidates_insert_of_none {key : Key} {record : Record} (h : s.Sound)
    (hf : s.find? (record.idAt key) = none) :
    (s.insert key record).2.candidates = s.candidates ++ [s.admitted key record] := by
  have hnew : s.admitted key record = ⟨s.nextSeq, ⟨s.lastVersion + 1, key, record⟩⟩ := by
    simp [admitted, hf]
  have hlt : ∀ c ∈ s.candidates, c.seq < (s.admitted key record).seq := by
    rw [hnew]
    exact h.seq_lt
  apply candidates_eq
  · rw [List.pairwise_append]
    exact ⟨pairwise_candidates, List.pairwise_singleton _ _, by simpa using hlt⟩
  · intro c
    rw [List.mem_append, mem_candidates, List.mem_singleton, hnew]
    simp only [insert, hf, Std.TreeMap.getElem?_insert, Nat.compare_eq_eq]
    by_cases hseq : s.nextSeq = c.seq
    · have hnone : s.bySeq[c.seq]? = none := by
        cases hb : s.bySeq[c.seq]? with
        | none => rfl
        | some slot =>
            have := h.seq_lt ⟨c.seq, slot⟩ (mem_candidates.2 hb)
            exact absurd this (by simp [← hseq])
      simp only [hnone, hseq, if_true]
      cases c
      simp [eq_comm]
    · simp only [hseq, if_false, or_iff_left_iff_imp]
      rintro rfl
      exact absurd rfl hseq

/-- An admission under the address of a slot changes that slot in place. -/
theorem candidates_insert_of_some {key : Key} {record : Record} (h : s.Sound)
    (hf : s.find? (record.idAt key) = some d) :
    (s.insert key record).2.candidates
      = s.candidates.map fun c => if c.seq = d.seq then s.admitted key record else c := by
  obtain ⟨hd, hid⟩ := h.find?_eq_some_iff.1 hf
  have hnew : s.admitted key record = ⟨d.seq, ⟨s.lastVersion + 1, key, record⟩⟩ := by
    simp [admitted, hf]
  have hkey : d.slot.key = key := congrArg EntryId.key hid
  apply candidates_eq
  · rw [List.pairwise_map]
    refine pairwise_candidates.imp fun {a b} hab => ?_
    have : ∀ c : Candidate, (if c.seq = d.seq then s.admitted key record else c).seq = c.seq := by
      intro c
      split
      next hc => rw [hnew, hc]
      next => rfl
    rw [this, this]
    exact hab
  · intro c
    simp only [List.mem_map, insert, hf, Std.TreeMap.getElem?_insert, Nat.compare_eq_eq]
    by_cases hseq : d.seq = c.seq
    · simp only [hseq, if_true, Option.some.injEq]
      constructor
      · rintro ⟨a, -, ha⟩
        split at ha
        next => rw [← ha, hnew, hkey]
        next hne => exact absurd (congrArg Candidate.seq ha) hne
      · intro hslot
        refine ⟨d, hd, ?_⟩
        rw [if_pos hseq, hnew, hseq, ← hkey]
        cases c
        simp_all
    · simp only [hseq, if_false]
      rw [← mem_candidates]
      constructor
      · rintro ⟨a, ha, hac⟩
        split at hac
        next => exact absurd (by rw [← hac, hnew]) hseq
        next => exact hac ▸ ha
      · intro hc
        exact ⟨c, hc, if_neg fun e => hseq e.symm⟩

/-- After an admission the address has the admitted candidate, and every other address has
what it had. -/
theorem mem_candidates_insert {key : Key} {record : Record} (h : s.Sound) :
    c ∈ (s.insert key record).2.candidates ↔
      c = s.admitted key record ∨ c ∈ s.candidates ∧ c.slot.id ≠ record.idAt key := by
  cases hf : s.find? (record.idAt key) with
  | none =>
      rw [candidates_insert_of_none h hf, List.mem_append, List.mem_singleton, Or.comm]
      refine or_congr_right ⟨fun hc => ⟨hc, ?_⟩, And.left⟩
      exact h.find?_eq_none_iff.1 hf c hc
  | some d =>
      obtain ⟨hd, hid⟩ := h.find?_eq_some_iff.1 hf
      rw [candidates_insert_of_some h hf, List.mem_map]
      constructor
      · rintro ⟨a, ha, rfl⟩
        split
        next => exact Or.inl rfl
        next hne => exact Or.inr ⟨ha, fun e => hne (by rw [h.eq_of_id_eq ha hd (e.trans hid.symm)])⟩
      · rintro (rfl | ⟨hc, hne⟩)
        · exact ⟨d, hd, if_pos rfl⟩
        · exact ⟨c, hc, if_neg fun e => hne (by rw [eq_of_seq_eq hc hd e, hid])⟩

/-- The addresses of the slots, the oldest first. -/
def ids (s : Slots) : List EntryId := s.candidates.map (·.slot.id)

theorem mem_ids : id ∈ s.ids ↔ ∃ c ∈ s.candidates, c.slot.id = id := List.mem_map

/-- An address that is new comes last, and any other keeps its place. -/
theorem ids_insert {key : Key} {record : Record} (h : s.Sound) : (s.insert key record).2.ids
    = if s.ids.contains (record.idAt key) then s.ids else s.ids ++ [record.idAt key] := by
  cases hf : s.find? (record.idAt key) with
  | none =>
      have hnot : s.ids.contains (record.idAt key) = false := by
        rw [← Bool.not_eq_true, List.contains_iff_mem, mem_ids]
        rintro ⟨c, hc, hid⟩
        exact h.find?_eq_none_iff.1 hf c hc hid
      rw [hnot, ids, candidates_insert_of_none h hf, List.map_append]
      rfl
  | some d =>
      obtain ⟨hd, hid⟩ := h.find?_eq_some_iff.1 hf
      rw [List.contains_iff_mem.2 (mem_ids.2 ⟨d, hd, hid⟩), ids, candidates_insert_of_some h hf,
        List.map_map]
      refine List.map_congr_left fun c hc => ?_
      rw [Function.comp_apply]
      split
      next hseq => rw [id_admitted, eq_of_seq_eq hc hd hseq, hid]
      next => rfl

/-- Slots that are left keep their places. -/
theorem ids_of_subset {t : Slots} (h : s.Sound) (hsub : ∀ c ∈ t.candidates, c ∈ s.candidates) :
    t.ids = s.ids.filter fun id => t.ids.contains id := by
  have hleft : t.candidates = s.candidates.filter fun c => t.ids.contains c.slot.id := by
    refine eq_of_pairwise pairwise_candidates (pairwise_candidates.filter _) fun c => ?_
    rw [List.mem_filter, List.contains_iff_mem, mem_ids]
    constructor
    · exact fun hc => ⟨hsub c hc, c, hc, rfl⟩
    · rintro ⟨hc, d, hd, hid⟩
      rwa [← h.eq_of_id_eq (hsub d hd) hc hid]
  rw [ids, ids, List.filter_map, ← ids]
  exact congrArg (List.map fun c => c.slot.id) hleft

theorem lastVersion_insert (key : Key) (record : Record) :
    (s.insert key record).2.lastVersion = s.lastVersion + 1 := by
  simp only [insert]
  split <;> rfl

theorem nextSeq_le_insert (key : Key) (record : Record) :
    s.nextSeq ≤ (s.insert key record).2.nextSeq := by
  simp only [insert]
  split
  · exact Nat.le_refl _
  · exact Nat.le_succ _

theorem seq_admitted_lt {key : Key} {record : Record} (h : s.Sound) :
    (s.admitted key record).seq < (s.insert key record).2.nextSeq := by
  simp only [admitted, insert]
  cases hf : s.find? (record.idAt key) with
  | none => simp
  | some d =>
      simp only [Option.map_some, Option.getD_some]
      exact h.seq_lt d (h.find?_eq_some_iff.1 hf).1

theorem index_insert {key : Key} {record : Record} (h : s.Sound) (id : EntryId) :
    (s.insert key record).2.index[id]?
      = if record.idAt key = id then some (s.admitted key record).seq else s.index[id]? := by
  cases hf : s.find? (record.idAt key) with
  | none =>
      simp only [insert, hf, admitted, Option.map_none, Option.getD_none,
        Std.TreeMap.getElem?_insert, Std.LawfulEqCmp.compare_eq_iff_eq]
  | some d =>
      obtain ⟨hd, hid⟩ := h.find?_eq_some_iff.1 hf
      simp only [insert, hf, admitted, Option.map_some, Option.getD_some]
      split
      next e => rw [← e, ← hid, h.index_of_mem d hd]
      next => rfl

theorem Sound.insert (h : s.Sound) (key : Key) (record : Record) :
    (s.insert key record).2.Sound where
  index_of_mem c hc := by
    rw [index_insert h]
    rcases (mem_candidates_insert h).1 hc with rfl | ⟨hc, hne⟩
    · rw [if_pos (id_admitted key record).symm]
    · rw [if_neg fun e => hne e.symm, h.index_of_mem c hc]
  mem_of_index id seq hi := by
    rw [index_insert h] at hi
    split at hi
    next e =>
      cases hi
      exact ⟨(s.admitted key record).slot, (mem_candidates_insert h).2 (Or.inl rfl), e⟩
    next hne =>
      obtain ⟨slot, hmem, hid⟩ := h.mem_of_index id seq hi
      refine ⟨slot, (mem_candidates_insert h).2 (Or.inr ⟨hmem, fun e => hne ?_⟩), hid⟩
      exact e.symm.trans hid
  seq_lt c hc := by
    rcases (mem_candidates_insert h).1 hc with rfl | ⟨hc, -⟩
    · exact seq_admitted_lt h
    · exact Nat.lt_of_lt_of_le (h.seq_lt c hc) (nextSeq_le_insert key record)
  version_le c hc := by
    rw [lastVersion_insert]
    rcases (mem_candidates_insert h).1 hc with rfl | ⟨hc, -⟩
    · exact Nat.le_refl _
    · exact Nat.le_succ_of_le (h.version_le c hc)
  version_inj c hc d hd e := by
    rcases (mem_candidates_insert h).1 hc with rfl | ⟨hc, -⟩ <;>
      rcases (mem_candidates_insert h).1 hd with rfl | ⟨hd, -⟩
    · rfl
    · have := h.version_le d hd
      simp only [admitted] at e
      omega
    · have := h.version_le c hc
      simp only [admitted] at e
      omega
    · exact h.version_inj c hc d hd e

/-! ## Removal -/

/-- Erasing a slot filters the list. -/
theorem candidates_erase (seq : Nat) (id : EntryId) :
    (s.erase seq id).candidates = s.candidates.filter fun c => c.seq != seq := by
  apply candidates_eq
  · exact pairwise_candidates.filter _
  · intro c
    simp only [List.mem_filter, mem_candidates, erase, Std.TreeMap.getElem?_erase,
      Nat.compare_eq_eq, bne_iff_ne]
    by_cases hseq : seq = c.seq
    · simp [hseq]
    · simp [hseq, Ne.symm hseq]

theorem Sound.erase (h : s.Sound) (hc : c ∈ s.candidates) : (s.erase c.seq c.slot.id).Sound where
  index_of_mem d hd := by
    rw [candidates_erase, List.mem_filter] at hd
    have hne : c.slot.id ≠ d.slot.id := by
      intro e
      rw [h.eq_of_id_eq hc hd.1 e] at hd
      simp at hd
    simp only [Slots.erase, Std.TreeMap.getElem?_erase, Std.LawfulEqCmp.compare_eq_iff_eq,
      if_neg hne]
    exact h.index_of_mem d hd.1
  mem_of_index id seq hi := by
    simp only [Slots.erase, Std.TreeMap.getElem?_erase,
      Std.LawfulEqCmp.compare_eq_iff_eq] at hi
    split at hi
    next => cases hi
    next hne =>
      obtain ⟨slot, hmem, hid⟩ := h.mem_of_index id seq hi
      refine ⟨slot, ?_, hid⟩
      rw [candidates_erase, List.mem_filter]
      refine ⟨hmem, bne_iff_ne.2 fun e => hne ?_⟩
      rw [eq_of_seq_eq hc hmem e.symm, hid]
  seq_lt d hd := by
    rw [candidates_erase, List.mem_filter] at hd
    exact h.seq_lt d hd.1
  version_le d hd := by
    rw [candidates_erase, List.mem_filter] at hd
    exact h.version_le d hd.1
  version_inj d hd d' hd' := by
    rw [candidates_erase, List.mem_filter] at hd hd'
    exact h.version_inj d hd.1 d' hd'.1

theorem mem_candidates_erase (hc : c ∈ s.candidates) :
    d ∈ (s.erase c.seq c.slot.id).candidates ↔ d ∈ s.candidates ∧ d ≠ c := by
  rw [candidates_erase, List.mem_filter, bne_iff_ne]
  refine and_congr_right fun hd => not_congr ⟨fun e => eq_of_seq_eq hd hc e, ?_⟩
  rintro rfl
  rfl

/-- Erasing takes away just the one slot. -/
theorem perm_erase (hc : c ∈ s.candidates) :
    s.candidates.Perm (c :: (s.erase c.seq c.slot.id).candidates) := by
  have hnot : c ∉ (s.erase c.seq c.slot.id).candidates := fun h =>
    ((mem_candidates_erase hc).1 h).2 rfl
  refine (List.perm_ext_iff_of_nodup nodup_candidates
    (List.nodup_cons.2 ⟨hnot, nodup_candidates⟩)).2 fun d => ?_
  rw [List.mem_cons, mem_candidates_erase hc]
  by_cases hd : d = c
  · simp [hd, hc]
  · simp [hd]

/-- A removal by address finds what the look-up finds. -/
theorem remove_eq (h : s.Sound) (id : EntryId) :
    s.remove id = match s.find? id with
      | some c => (some c.slot, s.erase c.seq id)
      | none => (none, s) := by
  simp only [remove]
  cases hf : s.find? id with
  | none =>
      cases hi : s.index[id]? with
      | none => rfl
      | some seq =>
          obtain ⟨slot, hmem, hid⟩ := h.mem_of_index id seq hi
          exact absurd hid (h.find?_eq_none_iff.1 hf _ hmem)
  | some c =>
      obtain ⟨hc, rfl⟩ := h.find?_eq_some_iff.1 hf
      simp only [h.index_of_mem c hc, mem_candidates.1 hc]

theorem Sound.remove (h : s.Sound) (id : EntryId) : (s.remove id).2.Sound := by
  rw [remove_eq h]
  cases hf : s.find? id with
  | none => exact h
  | some c =>
      obtain ⟨hc, rfl⟩ := h.find?_eq_some_iff.1 hf
      exact h.erase hc

theorem mem_candidates_remove (h : s.Sound) :
    c ∈ (s.remove id).2.candidates ↔ c ∈ s.candidates ∧ c.slot.id ≠ id := by
  rw [remove_eq h]
  cases hf : s.find? id with
  | none => exact ⟨fun hc => ⟨hc, h.find?_eq_none_iff.1 hf c hc⟩, And.left⟩
  | some d =>
      obtain ⟨hd, rfl⟩ := h.find?_eq_some_iff.1 hf
      simp only [mem_candidates_erase hd]
      refine and_congr_right fun hc => not_congr ⟨fun e => by rw [e], fun e => ?_⟩
      exact h.eq_of_id_eq hc hd e

/-- A removal by number and version takes the slot away if it is there as it was. -/
theorem removeIfVersion_eq (seq version : Nat) :
    (∃ c ∈ s.candidates, c.seq = seq ∧ c.slot.version = version ∧
      s.removeIfVersion seq version = (some c.slot, s.erase c.seq c.slot.id)) ∨
    ((∀ c ∈ s.candidates, c.seq = seq → c.slot.version ≠ version) ∧
      s.removeIfVersion seq version = (none, s)) := by
  simp only [removeIfVersion]
  cases hb : s.bySeq[seq]? with
  | none =>
      refine Or.inr ⟨?_, rfl⟩
      rintro c hc rfl
      rw [mem_candidates, hb] at hc
      cases hc
  | some slot =>
      have hmem : (⟨seq, slot⟩ : Candidate) ∈ s.candidates := mem_candidates.2 hb
      by_cases hv : slot.version = version
      · exact Or.inl ⟨⟨seq, slot⟩, hmem, rfl, hv, if_pos hv⟩
      · refine Or.inr ⟨?_, if_neg hv⟩
        rintro c hc rfl
        rwa [eq_of_seq_eq hc hmem rfl]

theorem Sound.removeIfVersion (h : s.Sound) (seq version : Nat) :
    (s.removeIfVersion seq version).2.Sound := by
  rcases s.removeIfVersion_eq seq version with ⟨c, hc, -, -, heq⟩ | ⟨-, heq⟩
  · rw [heq]
    exact h.erase hc
  · rw [heq]
    exact h

theorem mem_candidates_removeIfVersion {seq version : Nat} :
    c ∈ (s.removeIfVersion seq version).2.candidates ↔
      c ∈ s.candidates ∧ ¬(c.seq = seq ∧ c.slot.version = version) := by
  rcases s.removeIfVersion_eq seq version with ⟨d, hd, rfl, rfl, heq⟩ | ⟨hall, heq⟩
  · rw [heq, mem_candidates_erase hd]
    refine and_congr_right fun hc => not_congr ⟨?_, fun e => eq_of_seq_eq hc hd e.1⟩
    rintro rfl
    exact ⟨rfl, rfl⟩
  · rw [heq]
    exact ⟨fun hc => ⟨hc, fun e => hall c hc e.1 e.2⟩, And.left⟩

/-- Erasing several slots, one after the other. -/
def eraseAll (s : Slots) (l : List Candidate) : Slots :=
  l.foldl (fun s c => s.erase c.seq c.slot.id) s

theorem eraseAll_sound {l : List Candidate} (h : s.Sound) (hn : l.Nodup)
    (hl : ∀ c ∈ l, c ∈ s.candidates) :
    (s.eraseAll l).Sound ∧ s.candidates.Perm (l ++ (s.eraseAll l).candidates) := by
  induction l generalizing s with
  | nil => exact ⟨h, List.Perm.refl _⟩
  | cons c l ih =>
      obtain ⟨hc, hl⟩ := List.forall_mem_cons.1 hl
      obtain ⟨hcl, hn⟩ := List.nodup_cons.1 hn
      have hl' : ∀ d ∈ l, d ∈ (s.erase c.seq c.slot.id).candidates := by
        intro d hd
        refine (mem_candidates_erase hc).2 ⟨hl d hd, ?_⟩
        rintro rfl
        exact hcl hd
      obtain ⟨hs, hp⟩ := ih (h.erase hc) hn hl'
      exact ⟨hs, (perm_erase hc).trans (hp.cons c)⟩

theorem removeKind_eq (kind : Kind) :
    s.removeKind kind = ((s.candidates.filter fun c => c.slot.kind == kind).map (·.slot),
      s.eraseAll (s.candidates.filter fun c => c.slot.kind == kind)) := rfl

theorem removeKind_sound (h : s.Sound) (kind : Kind) :
    (s.removeKind kind).2.Sound ∧ s.candidates.Perm
      ((s.candidates.filter fun c => c.slot.kind == kind) ++ (s.removeKind kind).2.candidates) :=
  eraseAll_sound h (nodup_candidates.filter _) fun _ hc => (List.mem_filter.1 hc).1

theorem Sound.removeKind (h : s.Sound) (kind : Kind) : (s.removeKind kind).2.Sound :=
  (removeKind_sound h kind).1

theorem mem_candidates_removeKind (h : s.Sound) {kind : Kind} :
    c ∈ (s.removeKind kind).2.candidates ↔ c ∈ s.candidates ∧ c.slot.kind ≠ kind := by
  have hp := (removeKind_sound h kind).2
  have hdisjoint := List.nodup_append.1 (hp.nodup_iff.1 nodup_candidates)
  rw [hp.mem_iff, List.mem_append, List.mem_filter]
  constructor
  · intro hc
    refine ⟨Or.inr hc, fun e => ?_⟩
    have hin : c ∈ s.candidates.filter fun c => c.slot.kind == kind :=
      List.mem_filter.2 ⟨hp.mem_iff.2 (List.mem_append_right _ hc), beq_iff_eq.2 e⟩
    exact hdisjoint.2.2 c hin c hc rfl
  · rintro ⟨⟨-, e⟩ | hc, hne⟩
    · exact absurd (beq_iff_eq.1 e) hne
    · exact hc

@[simp] theorem candidates_clear : s.clear.candidates = [] := rfl

theorem sound_clear : s.clear.Sound where
  index_of_mem := by simp
  mem_of_index := by simp [clear]
  seq_lt := by simp
  version_le := by simp
  version_inj := by simp

/-! ## Versions given out -/

theorem lastVersion_eraseAll (l : List Candidate) (s : Slots) :
    (s.eraseAll l).lastVersion = s.lastVersion := by
  induction l generalizing s with
  | nil => rfl
  | cons c l ih => exact ih (s.erase c.seq c.slot.id)

theorem lastVersion_remove : (s.remove id).2.lastVersion = s.lastVersion := by
  simp only [remove]
  split <;> rfl

theorem lastVersion_removeIfVersion (seq version : Nat) :
    (s.removeIfVersion seq version).2.lastVersion = s.lastVersion := by
  rcases s.removeIfVersion_eq seq version with ⟨c, -, -, -, heq⟩ | ⟨-, heq⟩ <;> rw [heq]
  rfl

end Slots

end Cache

end RecordStore
