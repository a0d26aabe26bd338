import Calculator.Proofs.Json.Literal

/-! A JSON document reads back as it was written. -/

namespace Calculator.Json

mutual

@[simp] def asRead : Json String → Json Text
  | .null => .null
  | .bool value => .bool value
  | .number value => .number value
  | .string text => .string (some text)
  | .array items => .array (itemsAsRead items)
  | .object fields => .object (fieldsAsRead fields)

@[simp] def itemsAsRead : List (Json String) → List (Json Text)
  | [] => []
  | item :: items => asRead item :: itemsAsRead items

@[simp] def fieldsAsRead : List (String × Json String) → List (Text × Json Text)
  | [] => []
  | (key, value) :: fields => (some key, asRead value) :: fieldsAsRead fields

end

inductive WellFormed : Json String → Prop
  | null : WellFormed .null
  | bool (value : Bool) : WellFormed (.bool value)
  | number {value : Number} (digits : value.WellFormed) : WellFormed (.number value)
  | string (text : String) : WellFormed (.string text)
  | array {items : List (Json String)} (each : ∀ item ∈ items, WellFormed item) : WellFormed (.array items)
  | object {fields : List (String × Json String)} (each : ∀ field ∈ fields, WellFormed field.2) :
      WellFormed (.object fields)

/-- In front of any text that cannot prolong a number, the document is what is read, with a fuel of twice
its length. -/
structure ReadsBack (json : Json String) : Prop where
  starts : ∃ c more, json.write = c :: more ∧ isBlank c = false ∧ c ≠ ']'
  reads : ∀ fuel rest, 2 * json.write.length ≤ fuel → Closes rest →
    readValue fuel (json.write ++ rest) = some (json.asRead, rest)

theorem skipBlanks_cons {c : Char} (dark : isBlank c = false) (rest : List Char) :
    skipBlanks (c :: rest) = c :: rest := by
  simp [skipBlanks, dark]

theorem closes_cons {c : Char} (mark : c ∈ [',', ']', '\x7d']) (rest : List Char) : Closes (c :: rest) := by
  intro d head
  simp only [List.head?_cons, Option.some.injEq] at head
  subst head
  simp only [List.mem_cons, List.not_mem_nil, or_false] at mark
  rcases mark with rfl | rfl | rfl
  all_goals decide

/-- A value without parts, told by its first character, which opens nothing. -/
theorem readsBack_scalar {json : Json String} {c : Char} {more : List Char} (written : json.write = c :: more)
    (dark : isBlank c = false) (plain : c ∉ ['"', '[', ']', '\x7b'])
    (read : ∀ rest, Closes rest → readScalar (c :: more ++ rest) = some (json.asRead, rest)) :
    ReadsBack json := by
  simp only [List.mem_cons, List.not_mem_nil, or_false, not_or] at plain
  obtain ⟨noQuote, noBracket, noClose, noBrace⟩ := plain
  refine ⟨⟨c, more, written, dark, noClose⟩, ?_⟩
  intro fuel rest enough closes
  rw [written, List.length_cons] at enough
  obtain ⟨spare, rfl⟩ : ∃ spare, fuel = spare + 1 := ⟨fuel - 1, by omega⟩
  rw [written, List.cons_append, readValue, skipBlanks_cons dark]
  simp only [noQuote, noBracket, noBrace, if_false]
  exact read rest closes

theorem readsBack_null : ReadsBack .null := by
  have written : write .null = ['n', 'u', 'l', 'l'] := by rw [write]
  apply readsBack_scalar written (by decide) (by decide)
  intro rest _
  simp [readScalar, readWord?]

theorem readsBack_bool (value : Bool) : ReadsBack (.bool value) := by
  cases value with
  | true =>
      have written : write (.bool true) = ['t', 'r', 'u', 'e'] := by rw [write]
      apply readsBack_scalar written (by decide) (by decide)
      intro rest _
      simp [readScalar, readWord?]
  | false =>
      have written : write (.bool false) = ['f', 'a', 'l', 's', 'e'] := by rw [write]
      apply readsBack_scalar written (by decide) (by decide)
      intro rest _
      simp [readScalar, readWord?]

theorem exists_number_start {number : Number} (wellFormed : number.WellFormed) :
    ∃ c more, writeNumber number = c :: more ∧ Numeral.IsNumeric c := by
  obtain ⟨c, whole, first⟩ := List.exists_cons_of_ne_nil wellFormed.started
  have digit : c.isDigit = true := wellFormed.whole c (by simp [first])
  unfold writeNumber
  by_cases negative : number.negative = true
  · simp only [negative, if_true, List.cons_append]
    exact ⟨'-', _, rfl, by simp [Numeral.IsNumeric]⟩
  · simp only [negative, first]
    exact ⟨c, _, rfl, .inl digit⟩

theorem readsBack_number {number : Number} (wellFormed : number.WellFormed) :
    ReadsBack (.number number) := by
  obtain ⟨c, more, written, numeric⟩ := exists_number_start wellFormed
  have other {d : Char} (strange : ¬Numeral.IsNumeric d) : c ≠ d := by
    rintro rfl
    exact strange numeric
  apply readsBack_scalar (by rw [write, written] : write (.number number) = c :: more)
  · simp [isBlank, other, Numeral.IsNumeric]
  · simp [other, Numeral.IsNumeric]
  · intro rest closes
    have noWord : readWord? (c :: (more ++ rest)) = none := by
      have letters : 'n' ≠ c ∧ 't' ≠ c ∧ 'f' ≠ c := by simp [Ne.symm (other _), Numeral.IsNumeric]
      simp [readWord?, letters]
    have read := readNumber_write wellFormed closes
    rw [written, List.cons_append] at read
    simp [readScalar, noWord, read]

theorem readsBack_string (text : String) : ReadsBack (.string text) := by
  obtain ⟨body, written, _⟩ := readString_writeText text []
  refine ⟨⟨'"', body, by rw [write, written], by decide, by decide⟩, ?_⟩
  intro fuel rest enough _
  obtain ⟨body, written, read⟩ := readString_writeText text rest
  rw [write, written, List.length_cons] at enough
  obtain ⟨spare, rfl⟩ : ∃ spare, fuel = spare + 1 := ⟨fuel - 1, by omega⟩
  rw [write, written, List.cons_append, readValue, skipBlanks_cons (by decide)]
  simp [read]

-- An item costs one unit of fuel and its own reading; the comma behind it pays for the next one.
theorem readItems_write {items : List (Json String)} (started : items ≠ [])
    (each : ∀ item ∈ items, ReadsBack item) (fuel : Nat) (rest : List Char)
    (enough : 2 * (writeItems items).length < fuel) :
    readItems fuel (writeItems items ++ ']' :: rest) = some (itemsAsRead items, rest) := by
  induction items generalizing fuel with
  | nil => contradiction
  | cons item items ih =>
      obtain ⟨spare, rfl⟩ : ∃ spare, fuel = spare + 1 := ⟨fuel - 1, by omega⟩
      have first := (each item (by simp)).reads spare
      cases items with
      | nil =>
          simp only [writeItems] at enough ⊢
          rw [readItems, first _ (by omega) (closes_cons (by simp) rest)]
          simp [skipBlanks_cons (by decide : isBlank ']' = false)]
      | cons following items =>
          simp only [writeItems, List.length_append, List.length_cons] at enough ⊢
          have later := ih (by simp) (fun other member => each other (by simp [member])) spare (by omega)
          rw [List.append_assoc, List.cons_append, readItems,
            first _ (by omega) (closes_cons (by simp) _)]
          simp [skipBlanks_cons (by decide : isBlank ',' = false), later]

theorem readKey_write (key : String) (rest : List Char) :
    readKey (writeText key ++ ':' :: rest) = some (some key, rest) := by
  obtain ⟨body, written, read⟩ := readString_writeText key (':' :: rest)
  rw [written, List.cons_append, readKey, skipBlanks_cons (by decide)]
  simp [read, skipBlanks_cons (by decide : isBlank ':' = false)]

theorem readFields_write {fields : List (String × Json String)} (started : fields ≠ [])
    (each : ∀ field ∈ fields, ReadsBack field.2) (fuel : Nat) (rest : List Char)
    (enough : 2 * (writeFields fields).length < fuel) :
    readFields fuel (writeFields fields ++ '\x7d' :: rest) = some (fieldsAsRead fields, rest) := by
  induction fields generalizing fuel with
  | nil => contradiction
  | cons field fields ih =>
      obtain ⟨key, value⟩ := field
      obtain ⟨spare, rfl⟩ : ∃ spare, fuel = spare + 1 := ⟨fuel - 1, by omega⟩
      have readsBack : ReadsBack value := each (key, value) (by simp)
      have first := readsBack.reads spare
      cases fields with
      | nil =>
          simp only [writeFields, List.length_append, List.length_cons] at enough ⊢
          rw [List.append_assoc, List.cons_append, readFields, readKey_write]
          simp only
          rw [first _ (by omega) (closes_cons (by simp) rest)]
          simp [skipBlanks_cons (by decide : isBlank '\x7d' = false)]
      | cons following fields =>
          simp only [writeFields, List.length_append, List.length_cons] at enough ⊢
          have later := ih (by simp) (fun other member => each other (by simp [member])) spare (by omega)
          rw [List.append_assoc, List.append_assoc, List.cons_append, readFields, readKey_write]
          simp only
          rw [List.cons_append, first _ (by omega) (closes_cons (by simp) _)]
          simp [skipBlanks_cons (by decide : isBlank ',' = false), later]

theorem exists_items_start {items : List (Json String)} (started : items ≠ [])
    (each : ∀ item ∈ items, ReadsBack item) :
    ∃ c more, writeItems items = c :: more ∧ isBlank c = false ∧ c ≠ ']' := by
  cases items with
  | nil => contradiction
  | cons item items =>
      obtain ⟨c, more, written, dark, noClose⟩ := (each item (by simp)).starts
      cases items with
      | nil => exact ⟨c, more, by rw [writeItems, written], dark, noClose⟩
      | cons following items =>
          refine ⟨c, more ++ ',' :: writeItems (following :: items), ?_, dark, noClose⟩
          simp [writeItems, written]

theorem readsBack_array {items : List (Json String)} (each : ∀ item ∈ items, ReadsBack item) :
    ReadsBack (.array items) := by
  refine ⟨⟨'[', writeItems items ++ [']'], by simp [write], by decide, by decide⟩, ?_⟩
  intro fuel rest enough _
  simp only [write, List.length_append, List.length_cons, List.length_nil] at enough
  obtain ⟨spare, rfl⟩ : ∃ spare, fuel = spare + 1 := ⟨fuel - 1, by omega⟩
  have shape : write (.array items) ++ rest = '[' :: (writeItems items ++ ']' :: rest) := by simp [write]
  rw [shape, readValue, skipBlanks_cons (by decide)]
  by_cases started : items = []
  · subst started
    simp [writeItems, skipBlanks_cons (by decide : isBlank ']' = false)]
  · obtain ⟨c, more, written, dark, noClose⟩ := exists_items_start started each
    have read := readItems_write started each spare rest (by omega)
    rw [written, List.cons_append] at read ⊢
    simp [skipBlanks_cons dark, noClose, read]

theorem exists_fields_start {fields : List (String × Json String)} (started : fields ≠ []) :
    ∃ more, writeFields fields = '"' :: more := by
  cases fields with
  | nil => contradiction
  | cons field fields =>
      obtain ⟨key, value⟩ := field
      obtain ⟨body, written, _⟩ := readString_writeText key []
      cases fields with
      | nil => exact ⟨body ++ ':' :: value.write, by simp [writeFields, written]⟩
      | cons following fields =>
          refine ⟨body ++ ':' :: value.write ++ ',' :: writeFields (following :: fields), ?_⟩
          simp [writeFields, written]

theorem readsBack_object {fields : List (String × Json String)} (each : ∀ field ∈ fields, ReadsBack field.2) :
    ReadsBack (.object fields) := by
  refine ⟨⟨'\x7b', writeFields fields ++ ['\x7d'], by simp [write], by decide, by decide⟩, ?_⟩
  intro fuel rest enough _
  simp only [write, List.length_append, List.length_cons, List.length_nil] at enough
  obtain ⟨spare, rfl⟩ : ∃ spare, fuel = spare + 1 := ⟨fuel - 1, by omega⟩
  have shape : write (.object fields) ++ rest = '\x7b' :: (writeFields fields ++ '\x7d' :: rest) := by
    simp [write]
  rw [shape, readValue, skipBlanks_cons (by decide)]
  by_cases started : fields = []
  · subst started
    simp [writeFields, skipBlanks_cons (by decide : isBlank '\x7d' = false)]
  · obtain ⟨more, written⟩ := exists_fields_start started
    have read := readFields_write started each spare rest (by omega)
    rw [written, List.cons_append] at read ⊢
    simp [skipBlanks_cons (by decide : isBlank '"' = false), read]

theorem WellFormed.readsBack {json : Json String} (wellFormed : WellFormed json) : ReadsBack json := by
  induction wellFormed with
  | null => exact readsBack_null
  | bool value => exact readsBack_bool value
  | number digits => exact readsBack_number digits
  | string text => exact readsBack_string text
  | array _ ih => exact readsBack_array ih
  | object _ ih => exact readsBack_object ih

/-- Whatever is written is read back, whole and unchanged. -/
theorem parse?_write {json : Json String} (wellFormed : WellFormed json) :
    parse? json.write = some json.asRead := by
  have read := wellFormed.readsBack.reads (2 * json.write.length + 2) [] (by omega) (by simp [Closes])
  rw [List.append_nil] at read
  simp [parse?, read, skipBlanks]

end Calculator.Json
