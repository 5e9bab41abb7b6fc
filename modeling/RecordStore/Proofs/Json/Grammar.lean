import Mathlib.Data.List.DropRight
import RecordStore.Json.Reader

/-!
# The grammar of JSON texts

`Json.Spells` says which texts spell a value, rule by rule and without a reader.  Blanks may
stand before and after every token of an array and an object, and `Json.IsText` lets them stand
around the whole.  Whether the escapes of a string are right is left open, as in a value itself.

The reader accepts every text of the grammar, and gives the value that it spells
(`read?_of_isText`).  A derivation knows where a token ends and the reader does not, so what
comes after a value must not go on with it.  That matters for numbers alone, and what may come
after a value is the end, a blank, a comma or a closing bracket (`Delimited`).

What is written by `Json.write` is spelled by the grammar, item by item (`spells_array`,
`spells_object`).
-/

namespace RecordStore

namespace Json

/-! ## Tokens -/

/-- Nothing but blanks. -/
def Blank (s : List Char) : Prop := ∀ c ∈ s, isBlank c = true

/-- Whether no quote and no backslash is left open in the characters of a string. -/
def isClosed : List Char → Bool
  | [] => true
  | '"' :: _ => false
  | ['\\'] => false
  | '\\' :: _ :: s => isClosed s
  | _ :: s => isClosed s

/-- One or more digits. -/
def AreDigits (s : List Char) : Prop := s ≠ [] ∧ ∀ c ∈ s, isDigit c = true

/-- Digits without a leading zero. -/
def IsWhole (s : List Char) : Prop := s = ['0'] ∨ AreDigits s ∧ s.head? ≠ some '0'

/-- Nothing, or a point and digits. -/
def IsFraction (s : List Char) : Prop := s = [] ∨ ∃ ds, AreDigits ds ∧ s = '.' :: ds

/-- Nothing, or an exponent mark, perhaps a sign, and digits. -/
def IsExponent (s : List Char) : Prop :=
  s = [] ∨ ∃ mark sign ds, (mark = 'e' ∨ mark = 'E') ∧ (sign = [] ∨ sign = ['+'] ∨ sign = ['-']) ∧
    AreDigits ds ∧ s = mark :: (sign ++ ds)

/-- A number. -/
def IsNumber (s : List Char) : Prop :=
  ∃ minus whole fraction exponent, (minus = [] ∨ minus = ['-']) ∧ IsWhole whole ∧
    IsFraction fraction ∧ IsExponent exponent ∧ s = minus ++ (whole ++ (fraction ++ exponent))

/-! ## Values -/

mutual

/-- A text spells a value, from its first character to its last. -/
inductive Spells : List Char → Json → Prop
  | null : Spells "null".toList null
  | yes : Spells "true".toList (bool true)
  | no : Spells "false".toList (bool false)
  | number {digits : List Char} (h : IsNumber digits) : Spells digits (number digits)
  | string {raw : List Char} (h : isClosed raw = true) : Spells (quoted raw) (string raw)
  | emptyArray {b : List Char} (hb : Blank b) : Spells ('[' :: (b ++ [']'])) (array [])
  | array {s : List Char} {items : List Json} (h : SpellsItems s items) :
      Spells ('[' :: s) (array items)
  | emptyObject {b : List Char} (hb : Blank b) : Spells ('{' :: (b ++ ['}'])) (object [])
  | object {s : List Char} {members : List (List Char × Json)} (h : SpellsMembers s members) :
      Spells ('{' :: s) (object members)

/-- A text spells the items of an array, one at least, and the closing bracket. -/
inductive SpellsItems : List Char → List Json → Prop
  | last {b s b' : List Char} {v : Json} (hb : Blank b) (h : Spells s v) (hb' : Blank b') :
      SpellsItems (b ++ (s ++ (b' ++ [']']))) [v]
  | more {b s b' t : List Char} {v : Json} {items : List Json} (hb : Blank b) (h : Spells s v)
      (hb' : Blank b') (ht : SpellsItems t items) :
      SpellsItems (b ++ (s ++ (b' ++ ',' :: t))) (v :: items)

/-- A text spells the members of an object, one at least, and the closing brace. -/
inductive SpellsMembers : List Char → List (List Char × Json) → Prop
  | last {b name b₁ b₂ s b' : List Char} {v : Json} (hb : Blank b) (hname : isClosed name = true)
      (hb₁ : Blank b₁) (hb₂ : Blank b₂) (h : Spells s v) (hb' : Blank b') :
      SpellsMembers (b ++ (quoted name ++ (b₁ ++ ':' :: (b₂ ++ (s ++ (b' ++ ['}']))))))
        [(name, v)]
  | more {b name b₁ b₂ s b' t : List Char} {v : Json} {members : List (List Char × Json)}
      (hb : Blank b) (hname : isClosed name = true) (hb₁ : Blank b₁) (hb₂ : Blank b₂)
      (h : Spells s v) (hb' : Blank b') (ht : SpellsMembers t members) :
      SpellsMembers (b ++ (quoted name ++ (b₁ ++ ':' :: (b₂ ++ (s ++ (b' ++ ',' :: t))))))
        ((name, v) :: members)

end

/-- A text spells a value, with blanks around it. -/
def IsText (text : List Char) (v : Json) : Prop :=
  ∃ b s b', Blank b ∧ Spells s v ∧ Blank b' ∧ text = b ++ (s ++ b')

/-! ## Reading tokens -/

variable {s t rest b : List Char} {v : Json} {c : Char}

theorem blank_nil : Blank [] := fun _ h => by cases h

theorem skipBlanks_append (hb : Blank b) (s : List Char) : skipBlanks (b ++ s) = skipBlanks s :=
  List.dropWhile_append_of_pos hb

theorem skipBlanks_of_blank (hb : Blank b) : skipBlanks b = [] := by
  rw [← List.append_nil b, skipBlanks_append hb]
  rfl

theorem skipBlanks_cons (hc : isBlank c = false) (s : List Char) :
    skipBlanks (c :: s) = c :: s := List.dropWhile_cons_of_neg (by simp [hc])

theorem string?_append (h : isClosed s = true) (rest : List Char) :
    string? (s ++ '"' :: rest) = some (s, rest) := by
  fun_induction isClosed s with
  | case1 => rfl
  | case2 => cases h
  | case3 => cases h
  | case4 c s ih => simp [string?, ih h]
  | case5 c s hquote hlast hback ih =>
      have hne : c ≠ '\\' := by
        rintro rfl
        cases s with
        | nil => exact hlast rfl rfl
        | cons d s => exact hback d s rfl rfl
      rw [List.cons_append, string?.eq_def]
      split <;> simp_all

/-- What may come after a value: the end, a blank, a comma or a closing bracket. -/
def Delimited (rest : List Char) : Prop :=
  ∀ c ∈ rest.head?, isBlank c = true ∨ c = ',' ∨ c = ']' ∨ c = '}'

theorem delimited_append (hb : Blank b) (hc : c = ',' ∨ c = ']' ∨ c = '}') :
    Delimited (b ++ c :: rest) := by
  intro d hd
  cases b with
  | nil => exact Or.inr (by cases hd; exact hc)
  | cons e b =>
      cases hd
      exact Or.inl (hb _ List.mem_cons_self)

theorem delimited_of_blank (hb : Blank b) : Delimited b := by
  intro c hc
  exact Or.inl (hb c (List.mem_of_mem_head? hc))

/-- No digit comes after digits. -/
def EndsDigits (rest : List Char) : Prop := ∀ c ∈ rest.head?, isDigit c = false

theorem digits?_append (h : AreDigits s) (hrest : EndsDigits rest) :
    digits? (s ++ rest) = some (s, rest) := by
  obtain ⟨hne, hall⟩ := h
  have htake : (s ++ rest).takeWhile isDigit = s := by
    rw [List.takeWhile_append_of_pos hall]
    cases rest with
    | nil => rw [List.takeWhile_nil, List.append_nil]
    | cons c rest => rw [List.takeWhile_cons_of_neg (by simp [hrest c rfl]), List.append_nil]
  have hdrop : (s ++ rest).dropWhile isDigit = rest := by
    rw [List.dropWhile_append_of_pos hall]
    cases rest with
    | nil => rfl
    | cons c rest => rw [List.dropWhile_cons_of_neg (by simp [hrest c rfl])]
  simp only [digits?, digits, htake, hdrop]
  rw [if_neg (by simpa using hne)]

theorem whole?_append (h : IsWhole s) (hrest : EndsDigits rest) :
    whole? (s ++ rest) = some (s, rest) := by
  rcases h with rfl | ⟨hdigits, hzero⟩
  · rfl
  · have hread := digits?_append hdigits hrest
    cases s with
    | nil => exact absurd rfl hdigits.1
    | cons c s =>
        rw [whole?.eq_def]
        split
        next heq =>
          cases heq
          exact absurd rfl hzero
        next => exact hread

/-- What may come after a number and does not go on with it. -/
structure EndsNumber (rest : List Char) : Prop where
  digits : EndsDigits rest
  point : rest.head? ≠ some '.'
  mark : ∀ c ∈ rest.head?, c ≠ 'e' ∧ c ≠ 'E'

theorem Delimited.endsNumber (h : Delimited rest) : EndsNumber rest := by
  have hall : ∀ c ∈ rest.head?, c = ' ' ∨ c = '\t' ∨ c = '\n' ∨ c = '\r' ∨ c = ',' ∨ c = ']' ∨
      c = '}' := by
    intro c hc
    rcases h c hc with hblank | rfl | rfl | rfl
    · simp only [isBlank, Bool.or_eq_true, beq_iff_eq] at hblank
      rcases hblank with ((h | h) | h) | h <;> simp [h]
    all_goals simp
  refine ⟨fun c hc => ?_, fun hc => ?_, fun c hc => ?_⟩
  · rcases hall c hc with rfl | rfl | rfl | rfl | rfl | rfl | rfl <;> decide
  · simpa using hall '.' hc
  · rcases hall c hc with rfl | rfl | rfl | rfl | rfl | rfl | rfl <;> decide

theorem exponent?_append (h : IsExponent s) (hrest : EndsNumber rest) :
    exponent? (s ++ rest) = some (s, rest) := by
  rcases h with rfl | ⟨mark, sg, ds, hmark, hsign, hdigits, rfl⟩
  · cases rest with
    | nil => rfl
    | cons c rest =>
        obtain ⟨he, hE⟩ := hrest.mark c rfl
        simp [exponent?, he, hE]
  · have hread := digits?_append hdigits hrest.digits
    have hsigned : sign (sg ++ (ds ++ rest)) = (sg, ds ++ rest) := by
      rcases hsign with rfl | rfl | rfl
      · obtain ⟨hne, hall⟩ := hdigits
        cases ds with
        | nil => exact absurd rfl hne
        | cons d ds =>
            have hd := hall d List.mem_cons_self
            rw [List.nil_append, sign.eq_def]
            split
            next heq => cases heq; exact absurd hd (by decide)
            next heq => cases heq; exact absurd hd (by decide)
            next => rfl
      · rfl
      · rfl
    have hmark' : (mark == 'e' || mark == 'E') = true := by
      rcases hmark with rfl | rfl <;> rfl
    simp only [List.cons_append, List.append_assoc, exponent?, hmark', if_true, hsigned, hread,
      Option.map_some]

theorem fraction?_append (h : IsFraction s) (hdigits : EndsDigits rest)
    (hpoint : rest.head? ≠ some '.') : fraction? (s ++ rest) = some (s, rest) := by
  rcases h with rfl | ⟨ds, hds, rfl⟩
  · rw [List.nil_append, fraction?.eq_def]
    split
    next heq => exact absurd rfl hpoint
    next => rfl
  · simp only [List.cons_append, fraction?, digits?_append hds hdigits, Option.map_some]

theorem IsExponent.ends (h : IsExponent s) (hrest : EndsNumber rest) :
    EndsDigits (s ++ rest) ∧ (s ++ rest).head? ≠ some '.' := by
  rcases h with rfl | ⟨mark, sg, ds, hmark, -, -, rfl⟩
  · exact ⟨hrest.digits, hrest.point⟩
  · refine ⟨fun c hc => ?_, fun hc => ?_⟩
    · cases hc
      rcases hmark with rfl | rfl <;> decide
    · cases hc
      rcases hmark with h | h <;> exact absurd h (by decide)

theorem number?_append (h : IsNumber s) (hrest : EndsNumber rest) :
    number? (s ++ rest) = some (s, rest) := by
  obtain ⟨minus, whole, fraction, exponent, hminus, hwhole, hfraction, hexponent, rfl⟩ := h
  obtain ⟨hdigits, hpoint⟩ := hexponent.ends hrest
  have hends : EndsDigits (fraction ++ (exponent ++ rest)) := by
    rcases hfraction with rfl | ⟨ds, -, rfl⟩
    · exact hdigits
    · intro c hc
      cases hc
      decide
  have hw := whole?_append hwhole hends
  have hf := fraction?_append hfraction hdigits hpoint
  have he := exponent?_append hexponent hrest
  rcases hminus with rfl | rfl
  · have hplain : ∀ t, whole ++ (fraction ++ (exponent ++ rest)) ≠ '-' :: t := by
      intro t ht
      rcases hwhole with rfl | ⟨⟨hne, hall⟩, -⟩
      · cases ht
      · cases whole with
        | nil => exact hne rfl
        | cons c whole =>
            cases ht
            exact absurd (hall '-' List.mem_cons_self) (by decide)
    -- The side condition of the branch without a sign is met by `hplain`.
    simp only [List.nil_append, List.append_assoc, number?]
    simp [hw, hf, he]
  · simp [number?, hw, hf, he]

/-- A number begins with a sign or a digit, and so with no other character. -/
theorem IsNumber.exists_cons (h : IsNumber s) :
    ∃ c t, s = c :: t ∧ isBlank c = false ∧ ∀ d, isDigit d = false → d ≠ '-' → c ≠ d := by
  obtain ⟨c, t, hs, hc⟩ : ∃ c t, s = c :: t ∧ (c = '-' ∨ isDigit c = true) := by
    obtain ⟨minus, whole, fraction, exponent, hminus, hwhole, -, -, rfl⟩ := h
    rcases hminus with rfl | rfl
    · rcases hwhole with rfl | ⟨⟨hne, hall⟩, -⟩
      · exact ⟨'0', _, rfl, Or.inr rfl⟩
      · cases whole with
        | nil => exact absurd rfl hne
        | cons c whole => exact ⟨c, _, rfl, Or.inr (hall c List.mem_cons_self)⟩
    · exact ⟨'-', _, rfl, Or.inl rfl⟩
  have hother : ∀ d : Char, isDigit d = false → d ≠ '-' → c ≠ d := by
    rintro d hd hminus rfl
    rcases hc with rfl | hdigit
    · exact hminus rfl
    · rw [hd] at hdigit
      cases hdigit
  refine ⟨c, t, hs, ?_, hother⟩
  simp [isBlank, hother ' ' (by decide) (by decide), hother '\t' (by decide) (by decide),
    hother '\n' (by decide) (by decide), hother '\r' (by decide) (by decide)]

/-! ## Reading values -/

attribute [local simp] value? items? members?

theorem value?_number (h : IsNumber s) (hrest : EndsNumber rest) (n : Nat) :
    value? (n + 1) (s ++ rest) = some (.number s, rest) := by
  have hread := number?_append h hrest
  obtain ⟨c, t, rfl, hblank, hother⟩ := h.exists_cons
  have hopens : c ≠ '"' ∧ c ≠ '[' ∧ c ≠ '\x7b' ∧ c ≠ 'n' ∧ c ≠ 't' ∧ c ≠ 'f' := by
    refine ⟨?_, ?_, ?_, ?_, ?_, ?_⟩ <;> exact hother _ (by decide) (by decide)
  clear hother
  rw [List.cons_append] at hread ⊢
  simp only [value?, skipBlanks_cons hblank]
  split <;> simp_all

/-- The first character of a value is no blank, and no bracket or brace that closes. -/
theorem Spells.exists_cons (h : Spells s v) :
    ∃ c t, s = c :: t ∧ isBlank c = false ∧ c ≠ ']' ∧ c ≠ '\x7d' := by
  cases h with
  | number h =>
      obtain ⟨c, t, rfl, hblank, hother⟩ := h.exists_cons
      exact ⟨c, t, rfl, hblank, hother ']' (by decide) (by decide),
        hother '\x7d' (by decide) (by decide)⟩
  | _ => exact ⟨_, _, rfl, by decide, by decide, by decide⟩

@[simp] theorem skipBlanks_skipBlanks (s : List Char) :
    skipBlanks (skipBlanks s) = skipBlanks s := List.dropWhile_idempotent _ s

theorem value?_skipBlanks (n : Nat) (s : List Char) : value? n (skipBlanks s) = value? n s := by
  cases n with
  | zero => rfl
  | succ n => simp

theorem items?_skipBlanks (n : Nat) (s : List Char) : items? n (skipBlanks s) = items? n s := by
  cases n with
  | zero => rfl
  | succ n => simp [value?_skipBlanks]

theorem members?_skipBlanks (n : Nat) (s : List Char) :
    members? n (skipBlanks s) = members? n s := by
  cases n with
  | zero => rfl
  | succ n => simp

theorem value?_append (hb : Blank b) (n : Nat) (s : List Char) :
    value? n (b ++ s) = value? n s := by
  rw [← value?_skipBlanks, skipBlanks_append hb, value?_skipBlanks]

/-- An array without items. -/
theorem value?_emptyArray (h : skipBlanks s = ']' :: t) (n : Nat) :
    value? (n + 1) ('[' :: s) = some (array [], t) := by
  simp [skipBlanks_cons (c := '[') rfl, h]

/-- An array of which the first item begins. -/
theorem value?_array (h : (skipBlanks s).head? ≠ some ']') (n : Nat) : value? (n + 1) ('[' :: s)
    = (items? n s).map fun r => (array r.1, r.2) := by
  simp only [value?, skipBlanks_cons (c := '[') rfl]
  rw [← items?_skipBlanks n s]
  split
  next heq =>
    rw [heq] at h
    exact absurd rfl h
  next => rfl

/-- An object without members. -/
theorem value?_emptyObject (h : skipBlanks s = '\x7d' :: t) (n : Nat) :
    value? (n + 1) ('\x7b' :: s) = some (object [], t) := by
  simp [skipBlanks_cons (c := '\x7b') rfl, h]

/-- An object of which the first member begins. -/
theorem value?_object (h : (skipBlanks s).head? ≠ some '\x7d') (n : Nat) :
    value? (n + 1) ('\x7b' :: s) = (members? n s).map fun r => (object r.1, r.2) := by
  simp only [value?, skipBlanks_cons (c := '\x7b') rfl]
  rw [← members?_skipBlanks n s]
  split
  next heq =>
    rw [heq] at h
    exact absurd rfl h
  next => rfl

/-- The last item of an array. -/
theorem items?_last {n : Nat} (hv : value? n s = some (v, t))
    (ht : skipBlanks t = ']' :: rest) : items? (n + 1) s = some ([v], rest) := by
  simp [hv, ht]

/-- An item of an array, and those after it. -/
theorem items?_more {n : Nat} {t' : List Char} {items : List Json}
    (hv : value? n s = some (v, t)) (ht : skipBlanks t = ',' :: t')
    (hmore : items? n t' = some (items, rest)) :
    items? (n + 1) s = some (v :: items, rest) := by
  simp [hv, ht, hmore]

section

variable {n : Nat} {name b₁ b₂ t' : List Char} {members : List (List Char × Json)}

/-- What stands before the value of a member. -/
theorem string?_quoted (hname : isClosed name = true) (s : List Char) :
    ∃ t, quoted name ++ s = '"' :: t ∧ string? t = some (name, s) := by
  refine ⟨name ++ '"' :: s, ?_, string?_append hname s⟩
  simp [quoted]

/-- The last member of an object. -/
theorem members?_last (hb : Blank b) (hname : isClosed name = true) (hb₁ : Blank b₁)
    (hb₂ : Blank b₂) (hv : value? n s = some (v, t)) (ht : skipBlanks t = '\x7d' :: rest) :
    members? (n + 1) (b ++ (quoted name ++ (b₁ ++ ':' :: (b₂ ++ s))))
      = some ([(name, v)], rest) := by
  obtain ⟨q, hq, hstring⟩ := string?_quoted hname (b₁ ++ ':' :: (b₂ ++ s))
  simp [hq, skipBlanks_append hb, skipBlanks_cons (c := '"') rfl, hstring, skipBlanks_append hb₁,
    skipBlanks_cons (c := ':') rfl, value?_append hb₂, hv, ht]

/-- A member of an object, and those after it. -/
theorem members?_more (hb : Blank b) (hname : isClosed name = true) (hb₁ : Blank b₁)
    (hb₂ : Blank b₂) (hv : value? n s = some (v, t)) (ht : skipBlanks t = ',' :: t')
    (hmore : members? n t' = some (members, rest)) :
    members? (n + 1) (b ++ (quoted name ++ (b₁ ++ ':' :: (b₂ ++ s))))
      = some ((name, v) :: members, rest) := by
  obtain ⟨q, hq, hstring⟩ := string?_quoted hname (b₁ ++ ':' :: (b₂ ++ s))
  simp [hq, skipBlanks_append hb, skipBlanks_cons (c := '"') rfl, hstring, skipBlanks_append hb₁,
    skipBlanks_cons (c := ':') rfl, value?_append hb₂, hv, ht, hmore]

end

theorem SpellsItems.head?_ne {items : List Json} (h : SpellsItems s items) (rest : List Char) :
    (skipBlanks (s ++ rest)).head? ≠ some ']' := by
  cases h with
  | last hb h hb' | more hb h hb' ht =>
      obtain ⟨c, t, rfl, hblank, hc, -⟩ := h.exists_cons
      rw [List.append_assoc, skipBlanks_append hb, List.cons_append, List.cons_append,
        skipBlanks_cons hblank]
      simpa using hc

theorem SpellsMembers.head?_ne {members : List (List Char × Json)} (h : SpellsMembers s members)
    (rest : List Char) : (skipBlanks (s ++ rest)).head? ≠ some '\x7d' := by
  cases h with
  | last hb | more hb =>
      rw [List.append_assoc, skipBlanks_append hb]
      exact fun h => by cases h

theorem Spells.length_pos (h : Spells s v) : 0 < s.length := by
  obtain ⟨c, t, rfl, -⟩ := h.exists_cons
  exact Nat.succ_pos _

/-- The blanks before a token are skipped. -/
theorem skipBlanks_token (hb : Blank b) (hc : isBlank c = false) (s : List Char) :
    skipBlanks (b ++ c :: s) = c :: s := by
  rw [skipBlanks_append hb, skipBlanks_cons hc]

mutual

/-- A value is read from a text that spells it, before anything that does not go on with it.  Each
step of the reader takes a character or begins a value, so the count of steps need not be more
than twice the length. -/
theorem value?_of_spells {s : List Char} {v : Json} (h : Spells s v) {rest : List Char} {n : Nat}
    (hrest : Delimited rest) (hn : 2 * s.length ≤ n + 1) :
    value? (n + 1) (s ++ rest) = some (v, rest) := by
  cases h with
  | null | yes | no => rfl
  | number h => exact value?_number h hrest.endsNumber n
  | string h =>
      obtain ⟨t, ht, hstring⟩ := string?_quoted h rest
      rw [ht, value?, skipBlanks_cons rfl]
      simp only [hstring, Option.map_some]
  | emptyArray hb =>
      rw [List.cons_append, List.append_assoc]
      exact value?_emptyArray (skipBlanks_token hb rfl rest) n
  | array h =>
      rw [List.length_cons] at hn
      rw [List.cons_append, value?_array (h.head?_ne rest), items?_of_spells h (by omega)]
      rfl
  | emptyObject hb =>
      rw [List.cons_append, List.append_assoc]
      exact value?_emptyObject (skipBlanks_token hb rfl rest) n
  | object h =>
      rw [List.length_cons] at hn
      rw [List.cons_append, value?_object (h.head?_ne rest), members?_of_spells h (by omega)]
      rfl

/-- The items of an array are read up to the closing bracket. -/
theorem items?_of_spells {s : List Char} {items : List Json} (h : SpellsItems s items)
    {rest : List Char} {n : Nat} (hn : 2 * s.length ≤ n) :
    items? n (s ++ rest) = some (items, rest) := by
  cases h with
  | last hb h hb' =>
      have hpos := h.length_pos
      simp only [List.length_append, List.length_singleton] at hn
      obtain ⟨m, rfl⟩ : ∃ m, n = m + 2 := ⟨n - 2, by omega⟩
      simp only [List.append_assoc]
      refine items?_last ?_ (skipBlanks_token hb' rfl rest)
      rw [value?_append hb]
      exact value?_of_spells h (delimited_append hb' (by simp)) (by omega)
  | more hb h hb' ht =>
      have hpos := h.length_pos
      simp only [List.length_append, List.length_cons] at hn
      obtain ⟨m, rfl⟩ : ∃ m, n = m + 2 := ⟨n - 2, by omega⟩
      simp only [List.append_assoc]
      refine items?_more ?_ (skipBlanks_token hb' rfl _) (items?_of_spells ht (by omega))
      rw [value?_append hb]
      exact value?_of_spells h (delimited_append hb' (by simp)) (by omega)

/-- The members of an object are read up to the closing brace. -/
theorem members?_of_spells {s : List Char} {members : List (List Char × Json)}
    (h : SpellsMembers s members) {rest : List Char} {n : Nat} (hn : 2 * s.length ≤ n) :
    members? n (s ++ rest) = some (members, rest) := by
  cases h with
  | last hb hname hb₁ hb₂ h hb' =>
      have hpos := h.length_pos
      simp only [List.length_append, List.length_cons] at hn
      obtain ⟨m, rfl⟩ : ∃ m, n = m + 2 := ⟨n - 2, by omega⟩
      simp only [List.append_assoc, List.cons_append]
      refine members?_last hb hname hb₁ hb₂ ?_ (skipBlanks_token hb' rfl rest)
      exact value?_of_spells h (delimited_append hb' (by simp)) (by omega)
  | more hb hname hb₁ hb₂ h hb' ht =>
      have hpos := h.length_pos
      simp only [List.length_append, List.length_cons] at hn
      obtain ⟨m, rfl⟩ : ∃ m, n = m + 2 := ⟨n - 2, by omega⟩
      simp only [List.append_assoc, List.cons_append]
      refine members?_more hb hname hb₁ hb₂ ?_ (skipBlanks_token hb' rfl _)
        (members?_of_spells ht (by omega))
      exact value?_of_spells h (delimited_append hb' (by simp)) (by omega)

end

/-- Every text of the grammar is read as the value that it spells. -/
theorem read?_of_isText (h : IsText s v) : read? s = some v := by
  obtain ⟨b, t, b', hb, ht, hb', rfl⟩ := h
  have hread : value? (2 * (b ++ (t ++ b')).length + 2) (b ++ (t ++ b')) = some (v, b') := by
    rw [value?_append hb]
    refine value?_of_spells ht (delimited_of_blank hb') ?_
    simp only [List.length_append]
    omega
  simp only [read?, hread, skipBlanks_of_blank hb', List.isEmpty_nil, if_true]

/-! ## Written values -/

theorem spells_null : Spells null.write null := .null

theorem spells_bool (b : Bool) : Spells (bool b).write (bool b) := by
  cases b
  · exact .no
  · exact .yes

theorem spellsItems_write {v : Json} {rest : List Json} (h : ∀ w ∈ v :: rest, Spells w.write w) :
    SpellsItems (writeItems (v :: rest)) (v :: rest) := by
  have hv := h v List.mem_cons_self
  induction rest generalizing v with
  | nil => exact .last blank_nil hv blank_nil
  | cons w rest ih =>
      have hrest : ∀ x ∈ w :: rest, Spells x.write x := fun x hx => h x (List.mem_cons_of_mem _ hx)
      exact .more blank_nil hv blank_nil (ih hrest (hrest w List.mem_cons_self))

theorem spells_array {items : List Json} (h : ∀ v ∈ items, Spells v.write v) :
    Spells (array items).write (array items) := by
  cases items with
  | nil => exact .emptyArray blank_nil
  | cons v rest => exact .array (spellsItems_write h)

theorem spellsMembers_write {m : List Char × Json} {rest : List (List Char × Json)}
    (h : ∀ x ∈ m :: rest, isClosed x.1 = true ∧ Spells x.2.write x.2) :
    SpellsMembers (writeMembers (m :: rest)) (m :: rest) := by
  obtain ⟨name, v⟩ := m
  obtain ⟨hname, hv⟩ := h (name, v) List.mem_cons_self
  induction rest generalizing name v with
  | nil => simpa [writeMembers] using
      SpellsMembers.last blank_nil hname blank_nil blank_nil hv blank_nil
  | cons w rest ih =>
      have hrest : ∀ x ∈ w :: rest, isClosed x.1 = true ∧ Spells x.2.write x.2 :=
        fun x hx => h x (List.mem_cons_of_mem _ hx)
      obtain ⟨hw, hwv⟩ := hrest w List.mem_cons_self
      have hmore := ih w.1 w.2 hrest hw hwv
      simpa [writeMembers] using
        SpellsMembers.more blank_nil hname blank_nil blank_nil hv blank_nil hmore

theorem spells_object {members : List (List Char × Json)}
    (h : ∀ m ∈ members, isClosed m.1 = true ∧ Spells m.2.write m.2) :
    Spells (object members).write (object members) := by
  cases members with
  | nil => exact .emptyObject blank_nil
  | cons m rest => exact .object (spellsMembers_write h)

theorem isDigit_of_mem_toDigits {n : Nat} (hc : c ∈ Nat.toDigits 10 n) : isDigit c = true := by
  have h := Nat.isDigit_of_mem_toDigits (by decide) (by decide) hc
  simpa [isDigit, Char.isDigit, Char.le_def] using h

/-- The digits of a number that is not zero do not begin with a zero. -/
theorem head?_toDigits {n : Nat} (hn : 0 < n) : (Nat.toDigits 10 n).head? ≠ some '0' := by
  induction n using Nat.strongRecOn with
  | ind n ih =>
      rcases Nat.lt_or_ge n 10 with hlt | hge
      · rw [Nat.toDigits_of_lt_base hlt]
        exact (by decide : ∀ m < 10, 0 < m → [Nat.digitChar m].head? ≠ some '0') n hlt hn
      · rw [Nat.toDigits_of_base_le (by decide) hge]
        have hhead := ih (n / 10) (by omega) (by omega)
        cases hd : Nat.toDigits 10 (n / 10) with
        | nil => exact absurd hd Nat.toDigits_ne_nil
        | cons c ds => simpa [hd] using hhead

theorem isNumber_toDigits (n : Nat) : IsNumber (Nat.toDigits 10 n) := by
  refine ⟨[], Nat.toDigits 10 n, [], [], Or.inl rfl, ?_, Or.inl rfl, Or.inl rfl, by simp⟩
  rcases Nat.eq_zero_or_pos n with rfl | hn
  · exact Or.inl rfl
  · exact Or.inr ⟨⟨Nat.toDigits_ne_nil, fun c => isDigit_of_mem_toDigits⟩, head?_toDigits hn⟩

theorem spells_ofNat (n : Nat) : Spells (ofNat n).write (ofNat n) :=
  .number (isNumber_toDigits n)

end Json

end RecordStore
