import Mathlib.Data.List.Sort
import RecordStore.Memory
import RecordStore.Proofs.Keys

/-!
# Keys by their beginning

The keys of one form that begin with given bytes stand together in the order of keys, and the key
of just these bytes comes first among them (`Key.le_of_begins`, `Key.begins_of_lt`).  So a scan of a
table, which stops at the first other key, finds all of them (`Table.scan_eq_filter`).

A set that is put together from values is the one sorted list of them (`sortedSet_eq`).
-/

namespace RecordStore

/-! ## Sorted lists -/

section

variable {α : Type} {accept : α → Bool} {l : List α}

/-- Where nothing is accepted after something that is not, what is accepted comes first. -/
theorem takeWhile_eq_filter (h : l.Pairwise fun a b => accept b = true → accept a = true) :
    l.takeWhile accept = l.filter accept := by
  induction l with
  | nil => rfl
  | cons a l ih =>
      rw [List.pairwise_cons] at h
      rw [List.takeWhile_cons, List.filter_cons, ih h.2]
      cases ha : accept a with
      | true => rfl
      | false =>
          have hnone : l.filter accept = [] := by
            refine List.filter_eq_nil_iff.2 fun b hb haccept => ?_
            rw [h.1 b hb haccept] at ha
            cases ha
          exact hnone.symm

/-- What is not accepted is left then. -/
theorem dropWhile_eq_filter (h : l.Pairwise fun a b => accept b = true → accept a = true) :
    l.dropWhile accept = l.filter fun a => !accept a := by
  induction l with
  | nil => rfl
  | cons a l ih =>
      rw [List.pairwise_cons] at h
      rw [List.dropWhile_cons, List.filter_cons, ih h.2]
      cases ha : accept a with
      | true => rfl
      | false =>
          have hall : (l.filter fun b => !accept b) = l := by
            refine List.filter_eq_self.2 fun b hb => ?_
            cases hb' : accept b with
            | false => rfl
            | true =>
                rw [h.1 b hb hb'] at ha
                cases ha
          rw [hall]
          rfl

end

section

variable {α : Type} [Ord α] [Std.TransOrd α] {values : List α}

theorem pairwise_sortedSet : (sortedSet values).Pairwise fun a b => compare a b = .lt :=
  Std.TreeMap.ordered_keys

variable [Std.LawfulEqOrd α]

theorem mem_sortedSet {v : α} : v ∈ sortedSet values ↔ v ∈ values := by
  classical
  have hmap : (values.map fun v => (v, ())).map Prod.fst = values := by
    rw [List.map_map]
    exact List.map_id values
  rw [sortedSet, Std.TreeMap.mem_keys, Std.TreeMap.mem_ofList, hmap, List.contains_iff_mem]

/-- The set of values is the sorted list of them. -/
theorem sortedSet_eq {l : List α} (hl : l.Pairwise fun a b => compare a b = .lt)
    (h : ∀ v, v ∈ l ↔ v ∈ values) : sortedSet values = l := by
  have hirrefl : Std.Irrefl fun a b : α => compare a b = .lt :=
    ⟨fun a => by simp [Std.ReflOrd.compare_self]⟩
  have hantisymm : Std.Antisymm fun a b : α => compare a b = .lt :=
    ⟨fun a b hab hba => by
      rw [Std.OrientedOrd.eq_swap, hba] at hab
      cases hab⟩
  exact pairwise_sortedSet.eq_of_mem_iff hl fun v => mem_sortedSet.trans (h v).symm

end

/-! ## Byte strings -/

namespace Bytes

theorem compare_cons_cons (a b : UInt8) (as bs : Bytes) :
    compare (a :: as) (b :: bs) = (compare a b).then (compare as bs) :=
  List.compareLex_cons_cons

/-- A string is not greater than what it begins. -/
theorem isLE_compare_of_prefix {start bs : Bytes} (h : start <+: bs) :
    (compare start bs).isLE = true := by
  obtain ⟨rest, rfl⟩ := h
  induction start with
  | nil => cases rest <;> rfl
  | cons b start ih =>
      rw [List.cons_append, compare_cons_cons, Std.ReflOrd.compare_self]
      exact ih

/-- Between a string and something that it begins, it begins everything. -/
theorem prefix_of_lt {start a b : Bytes} (ha : (compare start a).isLE = true)
    (hab : compare a b = .lt) (hb : start <+: b) : start <+: a := by
  induction start generalizing a b with
  | nil => exact List.nil_prefix
  | cons x start ih =>
      obtain ⟨rest, rfl⟩ := hb
      cases a with
      | nil => cases ha
      | cons y a =>
          rw [List.cons_append, compare_cons_cons] at hab
          rw [compare_cons_cons] at ha
          cases hxy : compare x y with
          | lt =>
              rw [Std.OrientedOrd.eq_swap, hxy] at hab
              cases hab
          | gt =>
              rw [hxy] at ha
              cases ha
          | eq =>
              obtain rfl := Std.LawfulEqOrd.eq_of_compare hxy
              rw [hxy] at ha hab
              exact List.cons_prefix_cons.2 ⟨rfl, ih ha hab (List.prefix_append start rest)⟩

end Bytes

/-! ## Keys -/

namespace Key

/-- Whether a key is of the form of another one, and begins with its bytes. -/
def begins (start k : Key) : Bool := k.form == start.form && k.startsWith start.bytes

variable {start a b k : Key}

theorem begins_iff : start.begins k = true ↔ k.form = start.form ∧ start.bytes <+: k.bytes := by
  rw [begins, startsWith, Bool.and_eq_true, beq_iff_eq, List.isPrefixOf_iff_prefix]

theorem compare_eq (a b : Key) :
    compare a b = (compare a.form b.form).then (compare a.bytes b.bytes) := rfl

/-- Of the keys that begin alike the shortest comes first. -/
theorem le_of_begins (h : start.begins k = true) : start ≤ k := by
  obtain ⟨hform, hbytes⟩ := begins_iff.1 h
  rw [le_iff, compare_eq, hform, Std.ReflOrd.compare_self]
  exact Bytes.isLE_compare_of_prefix hbytes

/-- Keys that begin alike stand together. -/
theorem begins_of_lt (ha : start ≤ a) (hab : a < b) (hb : start.begins b = true) :
    start.begins a = true := by
  obtain ⟨hform, hbytes⟩ := begins_iff.1 hb
  rw [le_iff, compare_eq] at ha
  rw [lt_iff, compare_eq, hform] at hab
  cases hcompare : compare start.form a.form with
  | lt =>
      rw [Std.OrientedOrd.eq_swap, hcompare] at hab
      cases hab
  | gt =>
      rw [hcompare] at ha
      cases ha
  | eq =>
      have hsame : start.form = a.form := Std.LawfulEqOrd.eq_of_compare hcompare
      rw [hcompare] at ha
      rw [← hsame, Std.ReflOrd.compare_self] at hab
      exact begins_iff.2 ⟨hsame.symm, Bytes.prefix_of_lt ha hab hbytes⟩

end Key

/-! ## Tables -/

namespace Table

theorem pairwise_keys (t : Table) : t.keys.Pairwise (· < ·) := by
  rw [keys, List.pairwise_map]
  exact Std.TreeMap.ordered_keys_toList

theorem mem_keys {t : Table} {k : Key} : k ∈ t.keys ↔ t.contains k = true := by
  rw [keys, entries, Std.TreeMap.map_fst_toList_eq_keys, Std.TreeMap.mem_keys,
    Std.TreeMap.contains_iff_mem]

/-- A scan finds every key of the form that begins with the bytes, and nothing else. -/
theorem scan_eq_filter (t : Table) (start : Key) : t.scan start = t.keys.filter start.begins := by
  have hbelow : t.keys.Pairwise fun a b =>
      decide (b < start) = true → decide (a < start) = true :=
    t.pairwise_keys.imp fun hab hb => decide_eq_true (hab.trans (of_decide_eq_true hb))
  have hrest : (t.keys.filter fun k => !decide (k < start)).Pairwise
      fun a b => start.begins b = true → start.begins a = true := by
    refine (t.pairwise_keys.filter _).imp_of_mem fun ha _ hab => Key.begins_of_lt ?_ hab
    simpa using (List.mem_filter.1 ha).2
  have hscan : t.scan start = (t.keys.dropWhile fun k => k < start).takeWhile start.begins := rfl
  rw [hscan, dropWhile_eq_filter hbelow, takeWhile_eq_filter hrest, List.filter_filter]
  refine List.filter_congr fun k _ => ?_
  cases hbegins : start.begins k with
  | false => rfl
  | true => simpa using Key.le_of_begins hbegins

end Table

end RecordStore
