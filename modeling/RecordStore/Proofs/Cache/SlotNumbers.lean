import RecordStore.Proofs.Cache.Eviction
import RecordStore.Proofs.Cache.EntryList

/-!
# Numbers of slots that come and go

A slot has its number for as long as it is there, and no number is given out twice.  So what became
of the slots is told by their numbers: the numbers that were given out are those of the slots that
are there and of the slots that went away, each once.

`Slots.Turns` says this of one change.  An admission appends a number or none
(`Slots.turns_insert`).  A change that only takes slots away gives out no number
(`Slots.turns_of_loses`).
-/

namespace RecordStore

namespace Cache

namespace Slots

variable {s t : Slots}

/-- The numbers of the slots, the oldest first. -/
def numbers (s : Slots) : List Nat := s.candidates.map (·.seq)

theorem nodup_numbers : s.numbers.Nodup := by
  rw [numbers, List.Nodup, List.pairwise_map]
  exact pairwise_candidates.imp fun h => Nat.ne_of_lt h

theorem length_numbers : s.numbers.length = s.len := by
  rw [numbers, List.length_map, length_candidates]

/-- The numbers of the slots that are there no more. -/
def gone (s t : Slots) : List Nat := s.numbers.filter fun n => !t.numbers.contains n

/-- Where slots only go away, those that are left and those that went are all that there were. -/
theorem perm_gone (h : s.Loses t) : (t.numbers ++ s.gone t).Perm s.numbers := by
  have hsub : ∀ n ∈ t.numbers, n ∈ s.numbers := by
    intro n hn
    obtain ⟨c, hc, rfl⟩ := List.mem_map.1 hn
    exact List.mem_map.2 ⟨c, h c hc, rfl⟩
  have hleft : t.numbers.Perm (s.numbers.filter fun n => t.numbers.contains n) := by
    refine (List.perm_ext_iff_of_nodup nodup_numbers (nodup_numbers.filter _)).2 fun n => ?_
    rw [List.mem_filter, List.contains_iff_mem]
    exact ⟨fun hn => ⟨hsub n hn, hn⟩, And.right⟩
  exact (hleft.append_right _).trans (List.filter_append_perm _ _)

/-- How the numbers of slots change: some are given out, and some slots go away. -/
structure Turns (s t : Slots) (given gone : List Nat) : Prop where
  given_eq : List.range t.nextSeq = List.range s.nextSeq ++ given
  perm : (t.numbers ++ gone).Perm (s.numbers ++ given)

namespace Turns

theorem refl (s : Slots) : s.Turns s [] [] := ⟨(List.append_nil _).symm, .refl _⟩

theorem trans {u : Slots} {given given' gone gone' : List Nat} (h : s.Turns t given gone)
    (h' : t.Turns u given' gone') : s.Turns u (given ++ given') (gone' ++ gone) where
  given_eq := by rw [h'.given_eq, h.given_eq, List.append_assoc]
  perm := by
    rw [← List.append_assoc, ← List.append_assoc]
    have hmiddle : (t.numbers ++ given' ++ gone).Perm (t.numbers ++ gone ++ given') := by
      rw [List.append_assoc, List.append_assoc]
      exact List.perm_append_comm.append_left _
    exact (h'.perm.append_right gone).trans (hmiddle.trans (h.perm.append_right given'))

/-- The order in which slots went away is of no account. -/
theorem of_perm {given gone gone' : List Nat} (h : s.Turns t given gone) (hgone : gone.Perm gone') :
    s.Turns t given gone' := ⟨h.given_eq, (hgone.symm.append_left _).trans h.perm⟩

theorem of_loses (h : s.Loses t) (hnext : t.nextSeq = s.nextSeq) : s.Turns t [] (s.gone t) where
  given_eq := by rw [hnext, List.append_nil]
  perm := by
    rw [List.append_nil]
    exact perm_gone h

end Turns

/-- The number that an admission gives out, if it appends a slot. -/
def given (s : Slots) (key : Key) (record : Record) : List Nat :=
  if (s.insert key record).1 = .appended then [s.nextSeq] else []

/-- A record that replaces another one takes over its slot with the number. -/
theorem numbers_insert (h : s.Sound) (key : Key) (record : Record) :
    (s.insert key record).2.numbers = s.numbers ++ s.given key record := by
  cases hf : s.find? (record.idAt key) with
  | none =>
      have hgiven : s.given key record = [s.nextSeq] := by simp only [given, insert, hf, if_true]
      have hseq : (s.admitted key record).seq = s.nextSeq := by
        simp only [admitted, hf, Option.map_none, Option.getD_none]
      rw [numbers, candidates_insert_of_none h hf, List.map_append, hgiven, List.map_singleton,
        hseq, numbers]
  | some d =>
      have hgiven : s.given key record = [] := by simp [given, insert, hf]
      rw [numbers, candidates_insert_of_some h hf, List.map_map, hgiven, List.append_nil, numbers]
      refine List.map_congr_left fun c _ => ?_
      rw [Function.comp_apply]
      split
      next hc => simp only [admitted, hf, Option.map_some, Option.getD_some, hc]
      next => rfl

theorem range_nextSeq_insert (key : Key) (record : Record) :
    List.range (s.insert key record).2.nextSeq = List.range s.nextSeq ++ s.given key record := by
  cases hf : s.find? (record.idAt key) with
  | none => simp [given, insert, hf, List.range_succ]
  | some d => simp [given, insert, hf]

theorem turns_insert (h : s.Sound) (key : Key) (record : Record) :
    s.Turns (s.insert key record).2 (s.given key record) [] where
  given_eq := range_nextSeq_insert key record
  perm := .of_eq (by rw [List.append_nil, numbers_insert h])

/-- A removal by number and version takes one slot away or none. -/
theorem len_removeIfVersion (seq version : Nat) :
    (s.removeIfVersion seq version).1.isSome.toNat + (s.removeIfVersion seq version).2.len
      = s.len := by
  rcases s.removeIfVersion_eq seq version with ⟨c, hc, -, -, heq⟩ | ⟨-, heq⟩
  · rw [heq, ← length_candidates, ← length_candidates, (perm_erase hc).length_eq]
    exact Nat.add_comm _ _
  · rw [heq]
    exact Nat.zero_add _

end Slots

namespace Contents

theorem nextSeq_dropAllWritten (l : List Candidate) (c : Contents) :
    (c.dropAllWritten l).2.slots.nextSeq = c.slots.nextSeq := by
  induction l generalizing c with
  | nil => rfl
  | cons d l ih =>
      rw [dropAllWritten_cons, ih, slots_dropWritten, Slots.nextSeq_removeIfVersion]

theorem fst_dropWritten (c : Contents) (d : Candidate) : (c.dropWritten d).1
    = (c.slots.removeIfVersion d.seq d.slot.version).1.isSome := by
  simp only [dropWritten]
  split
  next h => rw [h]; rfl
  next h => rw [h]; rfl

/-- What is dropped is counted. -/
theorem fst_dropAllWritten_add_len (l : List Candidate) (c : Contents) :
    (c.dropAllWritten l).1 + (c.dropAllWritten l).2.slots.len = c.slots.len := by
  induction l generalizing c with
  | nil => exact Nat.zero_add _
  | cons d l ih =>
      have hfirst := c.slots.len_removeIfVersion d.seq d.slot.version
      have hrest := ih (c.dropWritten d).2
      rw [← fst_dropWritten] at hfirst
      rw [slots_dropWritten] at hrest
      have hcount : (c.dropAllWritten (d :: l)).1
          = (c.dropWritten d).1.toNat + ((c.dropWritten d).2.dropAllWritten l).1 := by
        simp only [dropAllWritten]
        cases (c.dropWritten d).1 with
        | false => exact (Nat.zero_add _).symm
        | true => exact Nat.add_comm _ 1
      rw [hcount, dropAllWritten_cons]
      omega

end Contents

end Cache

end RecordStore
