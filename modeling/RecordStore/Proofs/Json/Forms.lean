import RecordStore.Proofs.Json.Grammar
import RecordStore.Record.Json

/-!
# Keys and records are read back from their forms

A structure is written as an object of its fields.  `Json.ReadsBack` says what its reader makes
of that text and of others.

* The written text gives the same value again.
* So does every text of an object that gives the same fields, wherever they stand among members
  that are no fields (`Json.Gives`).  A field that may be left out may be left out when it is
  `null`.
* So does every text of an array of the values in the order of the fields.
* A text that leaves out another field, repeats a field, or is an array of another length is
  refused.

Texts are those of the grammar (`Json.IsText`), so blanks may stand between the tokens, and
names and short names may be escaped in any way (`Json.Alike`).

The reader of members is taken apart once, by the members that bear a name (`Json.bearing`): it
accepts when no field has two of them (`fields?_isSome_iff`), and then the value of a field is
the first of them (`get?_of_fields?`).
-/

namespace RecordStore

namespace Json

variable {α : Type} {v w : Json} {members : List (List Char × Json)} {names : List String}
  {name : String} {given : Fields} {fields : List (String × Json)} {optional : List String}

/-! ## Members of an object -/

/-- The values of the members that bear a name, however it is escaped. -/
def bearing (members : List (List Char × Json)) (name : String) : List Json :=
  (members.filter fun m => name? m.1 == some name.toList).map (·.2)

/-- Two values that no reader of names tells apart: at most the escapes of a string differ. -/
def Alike (v w : Json) : Prop :=
  v = w ∨ ∃ raw raw' n, name? raw = some n ∧ name? raw' = some n ∧ v = string raw ∧ w = string raw'

/-- The members of an object give the fields of a structure.  Each field is given once, or is
`null` and left out where that is allowed.  The other members have names that can be read, and
values that may be skipped. -/
structure Gives (members : List (List Char × Json)) (fields : List (String × Json))
    (optional : List String) : Prop where
  given : ∀ f ∈ fields, (∃ v, bearing members f.1 = [v] ∧ v.Alike f.2) ∨
    bearing members f.1 = [] ∧ f.1 ∈ optional ∧ f.2 = null
  others : ∀ m ∈ members, ∃ n, name? m.1 = some n ∧
    (n ∈ fields.map (fun f => f.1.toList) ∨ m.2.isSkippable = true)

/-- What a reader makes of the written form of a structure, and of other texts with the same
fields. -/
structure ReadsBack (names optional : List String) (fields : α → List (String × Json))
    (toJson : α → Json) (read? : String → Option α) : Prop where
  form (a : α) : toJson a = ofMembers (fields a) ∧ (fields a).map (·.1) = names
  written (a : α) : read? (toJson a).text = some a
  ofObject (a : α) {text : String} {members : List (List Char × Json)}
    (htext : IsText text.toList (object members)) (hgives : Gives members (fields a) optional) :
    read? text = some a
  ofArray (a : α) {text : String} {items : List Json} (htext : IsText text.toList (array items))
    (hitems : List.Forall₂ Alike items ((fields a).map (·.2))) : read? text = some a
  leftOut {text : String} {members : List (List Char × Json)} {name : String}
    (htext : IsText text.toList (object members)) (hname : name ∈ names)
    (hrequired : name ∉ optional) (hnone : bearing members name = []) : read? text = none
  repeated {text : String} {members : List (List Char × Json)} {name : String}
    (htext : IsText text.toList (object members)) (hname : name ∈ names)
    (htwo : 2 ≤ (bearing members name).length) : read? text = none
  otherLength {text : String} {items : List Json} (htext : IsText text.toList (array items))
    (hlength : items.length ≠ names.length) : read? text = none

/-! ## Values -/

theorem Alike.refl (v : Json) : v.Alike v := Or.inl rfl

theorem Alike.eq (h : v.Alike w) (hw : ∀ raw, w ≠ string raw) : v = w := by
  rcases h with h | ⟨raw, raw', n, -, -, -, h⟩
  · exact h
  · exact absurd h (hw raw')

theorem choice?_alike (h : v.Alike w) (ofName? : String → Option α) :
    choice? ofName? v = choice? ofName? w := by
  rcases h with rfl | ⟨raw, raw', n, hraw, hraw', rfl, rfl⟩
  · rfl
  · simp only [choice?, hraw, hraw']

theorem decimal_toDigits (n : Nat) : decimal (Nat.toDigits 10 n) = n :=
  Nat.ofDigitChars_ten_toDigits

theorem natBelow?_ofNat {n bound : Nat} (h : n < bound) : natBelow? bound (ofNat n) = some n := by
  have hdigits : (Nat.toDigits 10 n).all isDigit = true :=
    List.all_eq_true.2 fun c => isDigit_of_mem_toDigits
  simp [natBelow?, ofNat, hdigits, decimal_toDigits, h]

theorem byte?_ofNat (b : UInt8) : byte? (ofNat b.toNat) = some b := by
  rw [byte?, natBelow?_ofNat b.toNat_lt]
  simp

theorem byteString?_ofBytes (bs : Bytes) : byteString? (ofBytes bs) = some bs := by
  induction bs with
  | nil => rfl
  | cons b bs ih =>
      simp only [byteString?, ofBytes] at ih
      simp [byteString?, ofBytes, byte?_ofNat, ih]

theorem spells_ofBytes (bs : Bytes) : Spells (ofBytes bs).write (ofBytes bs) := by
  refine spells_array fun v hv => ?_
  obtain ⟨b, -, rfl⟩ := List.mem_map.1 hv
  exact spells_ofNat b.toNat

theorem spells_ofName {s : String} (h : isClosed s.toList = true) :
    Spells (ofName s).write (ofName s) := .string h

/-! ## Reading members -/

/-- The names of all members are read, one by one. -/
theorem map_of_mapM (h : members.mapM (fun m => (name? m.1).map fun n => (n, m.2)) = some given) :
    members.map (fun m => (name? m.1, m.2)) = given.map fun m => (some m.1, m.2) := by
  induction members generalizing given with
  | nil =>
      cases h
      rfl
  | cons m members ih =>
      simp only [List.mapM_cons, Option.bind_eq_bind, Option.bind_eq_some_iff,
        Option.map_eq_some_iff, Option.pure_def, Option.some.injEq] at h
      obtain ⟨_, ⟨n, hn, rfl⟩, rest, hrest, rfl⟩ := h
      simp only [List.map_cons, hn, ih hrest]

theorem isSome_mapM_iff :
    (members.mapM fun m => (name? m.1).map fun n => (n, m.2)).isSome = true ↔
      ∀ m ∈ members, (name? m.1).isSome = true := by
  induction members with
  | nil => simp
  | cons m members ih =>
      rw [List.forall_mem_cons, ← ih, List.mapM_cons]
      cases name? m.1 with
      | none => simp
      | some n => simp [Option.isSome_bind]

/-- The values of a name among the members read. -/
theorem bearing_eq_filter
    (h : members.mapM (fun m => (name? m.1).map fun n => (n, m.2)) = some given) (name : String) :
    bearing members name = (given.filter fun m => m.1 == name.toList).map (·.2) := by
  have hmap := congrArg (fun l => (l.filter fun m => m.1 == some name.toList).map (·.2))
    (map_of_mapM h)
  simp only [List.filter_map, List.map_map] at hmap
  simpa [bearing, Function.comp_def] using hmap

/-- What the reader of members asks: every name can be read, what is skipped may be skipped, and no
field has two members. -/
theorem fields?_eq_some_iff : fields? names members = some given ↔
    members.mapM (fun m => (name? m.1).map fun n => (n, m.2)) = some given ∧
    (∀ m ∈ given, m.1 ∈ names.map String.toList ∨ m.2.isSkippable = true) ∧
    ∀ name ∈ names, (bearing members name).length ≤ 1 := by
  cases h : members.mapM fun m => (name? m.1).map fun n => (n, m.2) with
  | none => simp [fields?, h]
  | some read =>
      simp only [fields?, h, bearing_eq_filter h, Option.bind_eq_bind, Option.bind_some]
      rw [ite_eq_iff]
      have hcondition : ((read.filter fun m => !(names.map String.toList).contains m.1).all
            (fun m => m.2.isSkippable) && (names.map String.toList).all
            (fun n => decide ((read.filter fun m => m.1 == n).length ≤ 1))) = true ↔
          (∀ m ∈ read, m.1 ∈ names.map String.toList ∨ m.2.isSkippable = true) ∧
          ∀ name ∈ names, (read.filter fun m => m.1 == name.toList).length ≤ 1 := by
        simp
      simp only [hcondition, List.length_map, Option.pure_def, Option.some.injEq, reduceCtorEq,
        and_false, or_false]
      constructor
      · rintro ⟨hall, rfl⟩
        exact ⟨rfl, hall⟩
      · rintro ⟨rfl, hall⟩
        exact ⟨hall, rfl⟩

/-- The value of a field is that of the first member that bears its name. -/
theorem get?_of_fields? (h : fields? names members = some given) (name : String) :
    given.get? name = (bearing members name).head? := by
  rw [bearing_eq_filter (fields?_eq_some_iff.1 h).1, List.head?_map, List.head?_filter]
  rfl

theorem fields?_of_repeated (hname : name ∈ names) (htwo : 2 ≤ (bearing members name).length) :
    fields? names members = none := by
  refine Option.eq_none_iff_forall_ne_some.2 fun given h => ?_
  have honce := (fields?_eq_some_iff.1 h).2.2 name hname
  omega

/-- An object that gives the fields is accepted, and every field is found as it was given. -/
theorem Gives.fields? (h : Gives members fields optional) :
    ∃ given, Json.fields? (fields.map (·.1)) members = some given ∧ ∀ f ∈ fields,
      (∃ v, given.get? f.1 = some v ∧ v.Alike f.2) ∨
        given.get? f.1 = none ∧ f.1 ∈ optional ∧ f.2 = null := by
  have hnames : ∀ m ∈ members, (name? m.1).isSome = true := by
    intro m hm
    obtain ⟨n, hn, -⟩ := h.others m hm
    rw [hn, Option.isSome_some]
  obtain ⟨given, hread⟩ := Option.isSome_iff_exists.1 (isSome_mapM_iff.2 hnames)
  have hskip : ∀ m ∈ given,
      m.1 ∈ (fields.map (·.1)).map String.toList ∨ m.2.isSkippable = true := by
    intro m hm
    have hmem : (some m.1, m.2) ∈ members.map fun m => (name? m.1, m.2) := by
      rw [map_of_mapM hread]
      exact List.mem_map_of_mem hm
    obtain ⟨m', hm', heq⟩ := List.mem_map.1 hmem
    obtain ⟨n, hn, hcase⟩ := h.others m' hm'
    obtain ⟨hname, hvalue⟩ := Prod.mk.inj heq
    rw [hn, Option.some.injEq] at hname
    rw [← hname, ← hvalue, List.map_map]
    exact hcase
  have honce : ∀ name ∈ fields.map (·.1), (bearing members name).length ≤ 1 := by
    intro name hname
    obtain ⟨f, hf, rfl⟩ := List.mem_map.1 hname
    rcases h.given f hf with ⟨v, hv, -⟩ | ⟨hv, -⟩ <;> simp [hv]
  have hfields := fields?_eq_some_iff.2 ⟨hread, hskip, honce⟩
  refine ⟨given, hfields, fun f hf => ?_⟩
  rw [get?_of_fields? hfields]
  rcases h.given f hf with ⟨v, hv, halike⟩ | ⟨hv, hnull⟩
  · exact Or.inl ⟨v, by rw [hv, List.head?_cons], halike⟩
  · exact Or.inr ⟨by rw [hv, List.head?_nil], hnull⟩

/-! ## Objects of the fields in any order -/

theorem bearing_append (members members' : List (List Char × Json)) (name : String) :
    bearing (members ++ members') name = bearing members name ++ bearing members' name := by
  simp [bearing]

theorem bearing_perm {members' : List (List Char × Json)} (h : members.Perm members')
    (name : String) : (bearing members name).Perm (bearing members' name) :=
  (h.filter _).map _

theorem bearing_eq_nil (h : ∀ m ∈ members, name? m.1 ≠ some name.toList) :
    bearing members name = [] := by
  rw [bearing, List.filter_eq_nil_iff.2 fun m hm => by simpa using h m hm, List.map_nil]

/-- Fields of which the names differ and need no escapes are each given once. -/
theorem bearing_fields {f : String × Json} (hnodup : (fields.map (·.1)).Nodup)
    (hplain : ∀ f ∈ fields, name? f.1.toList = some f.1.toList) (hf : f ∈ fields) :
    bearing (fields.map fun f => (f.1.toList, f.2)) f.1 = [f.2] := by
  induction fields with
  | nil => cases hf
  | cons g fields ih =>
      rw [List.map_cons, List.nodup_cons] at hnodup
      obtain ⟨hg, hrest⟩ := List.forall_mem_cons.1 hplain
      rw [List.map_cons, ← List.singleton_append, bearing_append]
      rcases List.mem_cons.1 hf with rfl | hf
      · have hone : bearing [(f.1.toList, f.2)] f.1 = [f.2] := by simp [bearing, hg]
        have hnone : bearing (fields.map fun f => (f.1.toList, f.2)) f.1 = [] := by
          refine bearing_eq_nil fun m hm hname => hnodup.1 ?_
          obtain ⟨g, hg, rfl⟩ := List.mem_map.1 hm
          rw [hrest g hg, Option.some.injEq, String.toList_inj] at hname
          exact List.mem_map.2 ⟨g, hg, hname⟩
        rw [hone, hnone, List.append_nil]
      · have hnone : bearing [(g.1.toList, g.2)] f.1 = [] := by
          refine bearing_eq_nil fun m hm hname => hnodup.1 ?_
          rw [List.mem_singleton.1 hm, hg, Option.some.injEq, String.toList_inj] at hname
          exact List.mem_map.2 ⟨f, hf, hname.symm⟩
        rw [hnone, List.nil_append, ih hnodup.2 hrest hf]

/-- The fields in any order, among members that are no fields, are given by the object. -/
theorem gives_of_perm (others : List (List Char × Json)) (hnodup : (fields.map (·.1)).Nodup)
    (hplain : ∀ f ∈ fields, name? f.1.toList = some f.1.toList)
    (hperm : (fields.map (fun f => (f.1.toList, f.2)) ++ others).Perm members)
    (hothers : ∀ m ∈ others, m.2.isSkippable = true ∧
      ∃ n, name? m.1 = some n ∧ n ∉ fields.map fun f => f.1.toList) :
    Gives members fields optional := by
  constructor
  · intro f hf
    have hnone : bearing others f.1 = [] := by
      refine bearing_eq_nil fun m hm hname => ?_
      obtain ⟨-, n, hn, hnot⟩ := hothers m hm
      rw [hname, Option.some.injEq] at hn
      exact hnot (hn ▸ List.mem_map_of_mem hf)
    have hone := bearing_perm hperm f.1
    rw [bearing_append, bearing_fields hnodup hplain hf, hnone, List.append_nil,
      List.singleton_perm] at hone
    exact Or.inl ⟨f.2, hone.symm, .refl f.2⟩
  · intro m hm
    rcases List.mem_append.1 (hperm.mem_iff.2 hm) with hfield | hother
    · obtain ⟨f, hf, rfl⟩ := List.mem_map.1 hfield
      exact ⟨_, hplain f hf, Or.inl (List.mem_map_of_mem hf)⟩
    · obtain ⟨hskip, n, hn, -⟩ := hothers m hother
      exact ⟨n, hn, Or.inr hskip⟩

/-! ## From values to texts -/

theorem read?_text {ofJson? : Json → Option α} {s : String} (h : IsText s.toList v) :
    (Json.read? s.toList).bind ofJson? = ofJson? v := by
  rw [read?_of_isText h, Option.bind_some]

/-- A structure is read back from texts when it is read back from values. -/
theorem ReadsBack.of_values {fields : α → List (String × Json)} {toJson : α → Json}
    {ofJson? : Json → Option α} (hnodup : names.Nodup)
    (hplain : ∀ name ∈ names, name? name.toList = some name.toList ∧ isClosed name.toList = true)
    (hform : ∀ a, toJson a = ofMembers (fields a) ∧ (fields a).map (·.1) = names)
    (hspells : ∀ a, ∀ f ∈ fields a, Spells f.2.write f.2)
    (hobject : ∀ a members, Gives members (fields a) optional → ofJson? (object members) = some a)
    (harray : ∀ a items, List.Forall₂ Alike items ((fields a).map (·.2)) →
      ofJson? (array items) = some a)
    (hrefused : ∀ members, Json.fields? names members = none → ofJson? (object members) = none)
    (hleftOut : ∀ members given name, Json.fields? names members = some given → name ∈ names →
      name ∉ optional → given.get? name = none → ofJson? (object members) = none)
    (hlength : ∀ items, items.length ≠ names.length → ofJson? (array items) = none) :
    ReadsBack names optional fields toJson fun s => (Json.read? s.toList).bind ofJson? where
  form := hform
  written a := by
    have hname : ∀ f ∈ fields a, f.1 ∈ names := by
      intro f hf
      rw [← (hform a).2]
      exact List.mem_map_of_mem hf
    have htext : IsText (toJson a).text.toList (toJson a) := by
      refine ⟨[], (toJson a).write, [], blank_nil, ?_, blank_nil, by simp [text]⟩
      rw [(hform a).1]
      refine spells_object fun m hm => ?_
      obtain ⟨f, hf, rfl⟩ := List.mem_map.1 hm
      exact ⟨(hplain f.1 (hname f hf)).2, hspells a f hf⟩
    have hgives : Gives ((fields a).map fun f => (f.1.toList, f.2)) (fields a) optional := by
      refine gives_of_perm [] ?_ (fun f hf => (hplain f.1 (hname f hf)).1) ?_ ?_
      · rw [(hform a).2]
        exact hnodup
      · rw [List.append_nil]
      · exact fun m hm => by cases hm
    simp only [read?_text htext]
    rw [(hform a).1]
    exact hobject a _ hgives
  ofObject a text members htext hgives := by
    simp only [read?_text htext]
    exact hobject a members hgives
  ofArray a text items htext hitems := by
    simp only [read?_text htext]
    exact harray a items hitems
  leftOut htext hname hrequired hnone := by
    rename_i text members name
    simp only [read?_text htext]
    cases hfields : Json.fields? names members with
    | none => exact hrefused members hfields
    | some given =>
        refine hleftOut members given name hfields hname hrequired ?_
        rw [get?_of_fields? hfields, hnone, List.head?_nil]
  repeated htext hname htwo := by
    simp only [read?_text htext]
    exact hrefused _ (fields?_of_repeated hname htwo)
  otherLength htext hlen := by
    simp only [read?_text htext]
    exact hlength _ hlen

end Json

/-! ## Keys and records -/

theorem KeyForm.ofJson?_alike {f : KeyForm} {v : Json} (h : v.Alike f.toJson) :
    ofJson? v = some f := by
  rw [ofJson?, Json.choice?_alike h]
  cases f <;> decide

theorem Kind.ofJson?_alike {k : Kind} {v : Json} (h : v.Alike k.toJson) : ofJson? v = some k := by
  rw [ofJson?, Json.choice?_alike h]
  cases k <;> decide

theorem Json.byteString?_alike {bs : Bytes} {v : Json} (h : v.Alike (ofBytes bs)) :
    v.byteString? = some bs := by
  rw [h.eq (fun raw h => by cases h), byteString?_ofBytes]

theorem Json.bool?_alike {b : Bool} {v : Json} (h : v.Alike (.bool b)) : v.bool? = some b := by
  rw [h.eq (fun raw h => by cases h), bool?]

/-- Bytes that may be absent, as a record has them. -/
theorem Json.optional?_alike {bs : Option Bytes} {v : Json}
    (h : v.Alike ((bs.map ofBytes).getD .null)) : v.optional? byteString? = some bs := by
  cases bs with
  | none =>
      rw [h.eq (fun raw h => by cases h)]
      rfl
  | some bs =>
      have hbytes := byteString?_alike h
      rw [h.eq (fun raw h => by cases h)] at hbytes ⊢
      exact congrArg (Option.map some) hbytes

namespace Key

/-- The fields of a key, with their values. -/
def fields (k : Key) : List (String × Json) :=
  [("kind", k.form.toJson), ("bytes", .ofBytes k.bytes)]

theorem ofFields?_alike {k : Key} {form bytes : Json} (hform : form.Alike k.form.toJson)
    (hbytes : bytes.Alike (.ofBytes k.bytes)) : ofFields? form bytes = some k := by
  simp only [ofFields?, KeyForm.ofJson?_alike hform, Json.byteString?_alike hbytes,
    Option.bind_eq_bind, Option.bind_some, Option.pure_def]

theorem ofJson?_of_gives {k : Key} {members : List (List Char × Json)}
    (h : Json.Gives members k.fields []) : ofJson? (.object members) = some k := by
  obtain ⟨given, hgiven, hall⟩ := h.fields?
  have hfind : ∀ name w, (name, w) ∈ k.fields → ∃ v, given.get? name = some v ∧ v.Alike w :=
    fun name w hf => (hall (name, w) hf).resolve_right fun h => by cases h.2.1
  obtain ⟨form, hform, hformAlike⟩ := hfind "kind" k.form.toJson (by simp [fields])
  obtain ⟨bytes, hbytes, hbytesAlike⟩ := hfind "bytes" (.ofBytes k.bytes) (by simp [fields])
  have hnames : k.fields.map (·.1) = ["kind", "bytes"] := rfl
  rw [hnames] at hgiven
  simp only [ofJson?, hgiven, hform, hbytes, Option.bind_eq_bind, Option.bind_some]
  exact ofFields?_alike hformAlike hbytesAlike

theorem ofJson?_of_alike {k : Key} {items : List Json}
    (h : List.Forall₂ Json.Alike items (k.fields.map (·.2))) : ofJson? (.array items) = some k := by
  change List.Forall₂ Json.Alike items [k.form.toJson, .ofBytes k.bytes] at h
  obtain _ | ⟨hform, _ | ⟨hbytes, _ | _⟩⟩ := h
  exact ofFields?_alike hform hbytes

theorem readsBack : Json.ReadsBack ["kind", "bytes"] [] fields toJson read? := by
  refine .of_values (by decide) (by decide +kernel) (fun k => ⟨rfl, rfl⟩) ?_
    (fun k members => ofJson?_of_gives) (fun k items => ofJson?_of_alike) ?_ ?_ ?_
  · intro k f hf
    simp only [fields, List.mem_cons, List.not_mem_nil, or_false] at hf
    obtain rfl | rfl := hf
    · exact Json.spells_ofName (by cases k.form <;> decide)
    · exact Json.spells_ofBytes k.bytes
  · intro members h
    simp only [ofJson?, h, Option.bind_eq_bind, Option.bind_none]
  · intro members given name h hname _ hnone
    simp only [ofJson?, h, Option.bind_eq_bind, Option.bind_some]
    simp only [List.mem_cons, List.not_mem_nil, or_false] at hname
    obtain rfl | rfl := hname
    · rw [hnone, Option.bind_none]
    · simp only [hnone, Option.bind_none, Option.bind_fun_none]
  · intro items h
    rw [ofJson?.eq_def]
    split
    next heq => cases heq
    next heq =>
      cases heq
      exact absurd rfl h
    next => rfl

end Key

namespace Record

/-- The fields of a record, with their values. -/
def fields (r : Record) : List (String × Json) :=
  [("kind", r.kind.toJson), ("bytes", .ofBytes r.bytes),
    ("metadata", (r.metadata.map Json.ofBytes).getD .null), ("exists", .bool r.present)]

theorem ofFields?_alike {r : Record} {kind bytes metadata present : Json}
    (hkind : kind.Alike r.kind.toJson) (hbytes : bytes.Alike (.ofBytes r.bytes))
    (hmetadata : metadata.Alike ((r.metadata.map Json.ofBytes).getD .null))
    (hpresent : present.Alike (.bool r.present)) :
    ofFields? kind bytes metadata present = some r := by
  simp only [ofFields?, Kind.ofJson?_alike hkind, Json.byteString?_alike hbytes,
    Json.optional?_alike hmetadata, Json.bool?_alike hpresent, Option.bind_eq_bind,
    Option.bind_some, Option.pure_def]

theorem ofJson?_of_gives {r : Record} {members : List (List Char × Json)}
    (h : Json.Gives members r.fields ["metadata"]) : ofJson? (.object members) = some r := by
  obtain ⟨given, hgiven, hall⟩ := h.fields?
  have hfind : ∀ name w, (name, w) ∈ r.fields → name ≠ "metadata" →
      ∃ v, given.get? name = some v ∧ v.Alike w := fun name w hf hne =>
    (hall (name, w) hf).resolve_right fun h => hne (List.mem_singleton.1 h.2.1)
  obtain ⟨kind, hkind, hkindAlike⟩ := hfind "kind" r.kind.toJson (by simp [fields]) (by decide)
  obtain ⟨bytes, hbytes, hbytesAlike⟩ :=
    hfind "bytes" (.ofBytes r.bytes) (by simp [fields]) (by decide)
  obtain ⟨present, hpresent, hpresentAlike⟩ :=
    hfind "exists" (.bool r.present) (by simp [fields]) (by decide)
  have hmetadata : ((given.get? "metadata").getD .null).Alike
      ((r.metadata.map Json.ofBytes).getD .null) := by
    rcases hall ("metadata", (r.metadata.map Json.ofBytes).getD .null) (by simp [fields]) with
      ⟨v, hv, halike⟩ | ⟨hnone, -, hnull⟩
    · simp only [hv, Option.getD_some]
      exact halike
    · simp only [hnone, Option.getD_none]
      exact Or.inl hnull.symm
  have hnames : r.fields.map (·.1) = ["kind", "bytes", "metadata", "exists"] := rfl
  rw [hnames] at hgiven
  simp only [ofJson?, hgiven, hkind, hbytes, hpresent, Option.bind_eq_bind, Option.bind_some]
  exact ofFields?_alike hkindAlike hbytesAlike hmetadata hpresentAlike

theorem ofJson?_of_alike {r : Record} {items : List Json}
    (h : List.Forall₂ Json.Alike items (r.fields.map (·.2))) : ofJson? (.array items) = some r := by
  change List.Forall₂ Json.Alike items [r.kind.toJson, .ofBytes r.bytes,
    (r.metadata.map Json.ofBytes).getD .null, .bool r.present] at h
  obtain _ | ⟨hkind, _ | ⟨hbytes, _ | ⟨hmetadata, _ | ⟨hpresent, _ | _⟩⟩⟩⟩ := h
  exact ofFields?_alike hkind hbytes hmetadata hpresent

theorem readsBack :
    Json.ReadsBack ["kind", "bytes", "metadata", "exists"] ["metadata"] fields toJson read? := by
  refine .of_values (by decide) (by decide +kernel) (fun r => ⟨rfl, rfl⟩) ?_
    (fun r members => ofJson?_of_gives) (fun r items => ofJson?_of_alike) ?_ ?_ ?_
  · intro r f hf
    simp only [fields, List.mem_cons, List.not_mem_nil, or_false] at hf
    obtain rfl | rfl | rfl | rfl := hf
    · exact Json.spells_ofName (by cases r.kind <;> decide)
    · exact Json.spells_ofBytes r.bytes
    · cases r.metadata with
      | none => exact Json.spells_null
      | some bs => exact Json.spells_ofBytes bs
    · exact Json.spells_bool r.present
  · intro members h
    simp only [ofJson?, h, Option.bind_eq_bind, Option.bind_none]
  · intro members given name h hname hrequired hnone
    simp only [ofJson?, h, Option.bind_eq_bind, Option.bind_some]
    simp only [List.mem_cons, List.not_mem_nil, or_false] at hname
    obtain rfl | rfl | rfl | rfl := hname
    · rw [hnone, Option.bind_none]
    · simp only [hnone, Option.bind_none, Option.bind_fun_none]
    · exact absurd (List.mem_singleton_self _) hrequired
    · simp only [hnone, Option.bind_none, Option.bind_fun_none]
  · intro items h
    rw [ofJson?.eq_def]
    split
    next heq => cases heq
    next heq =>
      cases heq
      exact absurd rfl h
    next => rfl

end Record

/-- Every key and every record is read back from its written form, from every object that gives its
fields and from the array of their values.  An object that leaves out a field other than `metadata`
or repeats a field is refused. -/
theorem formsReadBack :
    Json.ReadsBack ["kind", "bytes"] [] Key.fields Key.toJson Key.read? ∧
    Json.ReadsBack ["kind", "bytes", "metadata", "exists"] ["metadata"] Record.fields Record.toJson
      Record.read? :=
  ⟨Key.readsBack, Record.readsBack⟩

example : Record.read?
      " \x7b\"a\":[\x7b\x7d],\"exists\":true,\"bytes\":[7] ,\"kind\":\"t\\u0061g\"\x7d"
    = some (Record.ofBytes .tag [7]) := by decide +kernel

end RecordStore
