import Calculator.Proofs.Alpha.Cursor
import Calculator.Statement

/-! The byte code of a text literal, from the codes its content yields and the error that stops them. -/

namespace Calculator.ByteCode

theorem pack_append_ok (room : Nat) (codes : List UInt8) (later : List (Except Alpha.ReadError UInt8))
    (fits : codes.length ≤ room) :
    pack room (codes.map .ok ++ later) = (pack (room - codes.length) later).map (codes ++ ·) := by
  induction codes generalizing room with
  | nil => cases packed : pack room later <;> simp [packed, Except.map]
  | cons code codes ih =>
      cases room with
      | zero => simp at fits
      | succ room =>
          have rest := ih room (by simpa using fits)
          simp only [List.map_cons, List.cons_append, pack, rest, List.length_cons,
            Nat.add_sub_add_right]
          cases pack (room - codes.length) later <;> simp [Except.map]

theorem pack_map_ok (room : Nat) (codes : List UInt8) (fits : codes.length ≤ room) :
    pack room (codes.map .ok) = .ok codes := by
  have packed := pack_append_ok room codes [] fits
  simpa [pack, Except.map] using packed

theorem pack_unreadable {room : Nat} {codes : List UInt8} (error : Alpha.ReadError)
    (fits : codes.length < room) :
    pack room (codes.map .ok ++ [.error error]) = .error (.unreadable error) := by
  obtain ⟨left, size⟩ : ∃ left, room - codes.length = left + 1 := ⟨room - codes.length - 1, by omega⟩
  rw [pack_append_ok room codes _ (by omega), size]
  simp [pack, Except.map]

theorem length_takeWhile_ok (codes : List UInt8) (error? : Option Alpha.ReadError) :
    ((codes.map .ok ++ error?.toList.map .error : List (Except Alpha.ReadError UInt8)).takeWhile
      Except.toBool).length = codes.length := by
  induction codes with
  | nil => cases error? <;> simp [Except.toBool]
  | cons code codes ih =>
      rw [List.map_cons, List.cons_append, List.takeWhile_cons_of_pos (by simp [Except.toBool]),
        List.length_cons, ih, List.length_cons]

theorem pack_overflow {room : Nat} {codes : List UInt8} {error? : Option Alpha.ReadError}
    (full : room < codes.length ∨ codes.length = room ∧ error? ≠ none) :
    pack room (codes.map .ok ++ error?.toList.map .error) =
      .error (.overflow (max 1 (codes.length - room))) := by
  have kept : (codes.take room).length = room := by
    rw [List.length_take]
    omega
  have excess : (codes.drop room).length = codes.length - room := List.length_drop
  conv_lhs => rw [← List.take_append_drop room codes, List.map_append, List.append_assoc]
  rw [pack_append_ok _ _ _ (by omega), kept, Nat.sub_self]
  cases left : codes.drop room with
  | nil =>
      -- every code has found its place, so the error is what there is no room for
      rw [left, List.length_nil] at excess
      cases error? with
      | none =>
          simp only [ne_eq, not_true_eq_false, and_false, or_false] at full
          omega
      | some error => simp [pack, Except.map, ← excess]
  | cons code more =>
      rw [left, List.length_cons] at excess
      have count := length_takeWhile_ok more error?
      have most : max 1 (codes.length - room) = 1 + more.length := by omega
      simp only [List.map_cons, List.cons_append, pack, Except.map, count, most]

theorem frame_append (payload : List UInt8) :
    frame (Placement.append.mark ++ payload) =
      (0xf1 + UInt8.ofNat payload.length) :: 0x7f :: payload := by
  have header : 0xf0 + (UInt8.ofNat payload.length + 1) = 0xf1 + UInt8.ofNat payload.length := by
    grind
  simp [frame, Placement.mark, textHeader, appendMark, UInt8.ofNat_add, header]

namespace Placement

def capacity : Placement → Nat
  | replace => 15
  | append => 14

def byteCode (codes : List UInt8) : Placement → List UInt8
  | replace => (0xf0 + UInt8.ofNat codes.length) :: codes
  | append => (0xf1 + UInt8.ofNat codes.length) :: 0x7f :: codes

theorem room_eq (placement : Placement) : placement.room = placement.capacity := by
  cases placement with
  | replace => simp [room, mark, maxPayload, capacity]
  | append => simp [room, mark, maxPayload, capacity]

theorem frame_eq (placement : Placement) (codes : List UInt8) :
    frame (placement.mark ++ codes) = placement.byteCode codes := by
  cases placement with
  | replace => simp [frame, mark, textHeader, byteCode]
  | append => rw [frame_append, byteCode]

theorem length_byteCode_le {placement : Placement} {codes : List UInt8}
    (fits : codes.length ≤ placement.capacity) : (placement.byteCode codes).length ≤ 16 := by
  cases placement with
  | replace =>
      simp only [capacity] at fits
      simp only [byteCode, List.length_cons]
      omega
  | append =>
      simp only [capacity] at fits
      simp only [byteCode, List.length_cons]
      omega

end Placement

theorem message_textTooLong (room excess : Nat) (token : Token) :
    (Fault.textTooLong room excess token).message = "Text could not be more than " ++ toString room ++
      " characters, " ++ toString excess ++ " too many at " ++ token.span.text := by
  have complaint : (Fault.textTooLong room excess token).complaint = "Text could not be more than " ++
    toString room ++ " characters, " ++ toString excess ++ " too many" := rfl
  have place : (Fault.textTooLong room excess token).span = token.span := rfl
  have wording : (" too many at " : String) = " too many" ++ " at " := by decide
  rw [Fault.message, complaint, place, wording]
  simp only [String.append_assoc]

inductive Generated : Placement → Token → Except Fault (List UInt8) → Prop
  | replace (token : Token) : Generated .replace token (text .replace token)
  | append {σ : Type} [TokenFeed σ] (feed : σ) :
      Generated .append (TokenFeed.next feed).1 (Statement.compileAppend feed).1

theorem Generated.eq_text {placement : Placement} {token : Token} {result : Except Fault (List UInt8)}
    (generated : Generated placement token result) : result = text placement token := by
  cases generated with
  | replace => rfl
  | append feed => rfl

/-- The result is the one that the codes of a text literal ask for, and the error behind them, if there
is one. -/
structure Contract (placement : Placement) (token : Token) (codes : List UInt8)
    (error? : Option Alpha.ReadError) (result : Except Fault (List UInt8)) : Prop where
  fits : error? = none → codes.length ≤ placement.capacity →
    result = .ok (placement.byteCode codes) ∧ (placement.byteCode codes).length ≤ 16
  unreadable : ∀ error, error? = some error → codes.length < placement.capacity →
    ∃ fault, result = .error fault ∧ fault.span = token.span.columnAt (1 + error.offending) ∧
      (∀ defect, error.problem = .malformed defect → fault.code = 200) ∧
      ∀ c, error.problem = .unsupported c → fault.code = 201
  overflows : placement.capacity < codes.length ∨ codes.length = placement.capacity ∧ error? ≠ none →
    ∃ fault, result = .error fault ∧ fault.code = 300 ∧ fault.span = token.span ∧
      fault.message = "Text could not be more than " ++ toString placement.capacity ++ " characters, " ++
        toString (max 1 (codes.length - placement.capacity)) ++ " too many at " ++ token.span.text

theorem contract_of_readings {placement : Placement} {token : Token} {content : String}
    {codes : List UInt8} {error? : Option Alpha.ReadError} (kind : token.kind = .text content)
    (readings : Alpha.readings content.toList = codes.map .ok ++ error?.toList.map .error) :
    Contract placement token codes error? (text placement token) := by
  refine ⟨?_, ?_, ?_⟩
  · rintro rfl fits
    have packed := pack_map_ok placement.room codes (by rwa [placement.room_eq])
    refine ⟨?_, placement.length_byteCode_le fits⟩
    simp only [text, kind, readings, Option.toList_none, List.map_nil, List.append_nil, packed,
      placement.frame_eq]
  · rintro error rfl fits
    have packed := pack_unreadable error (by rwa [placement.room_eq] : codes.length < placement.room)
    refine ⟨.unreadableText error token, ?_, rfl, ?_, ?_⟩
    · simp only [text, kind, readings, Option.toList_some, List.map_cons, List.map_nil, packed]
    · intro defect problem
      simp only [Fault.code, problem]
    · intro c problem
      simp only [Fault.code, problem]
  · intro full
    rw [← placement.room_eq] at full ⊢
    refine ⟨.textTooLong placement.room (max 1 (codes.length - placement.room)) token, ?_, rfl, rfl, ?_⟩
    · simp only [text, kind, readings, pack_overflow full]
    · exact message_textTooLong _ _ token

/-- The result for a text literal depends on the codes before the first error or the end: they fit, the
error comes first, or there is no room for a code or for the error itself. -/
theorem text_meets_contract {placement : Placement} {token : Token} {content : String}
    {result : Except Fault (List UInt8)} (generated : Generated placement token result)
    (kind : token.kind = .text content) :
    (∃ codes error?, (Alpha.Cursor.ofText content.toList).Yields codes error?) ∧
    ∀ codes error?, (Alpha.Cursor.ofText content.toList).Yields codes error? →
      Contract placement token codes error? result := by
  refine ⟨Alpha.Cursor.exists_yields _, ?_⟩
  intro codes error? yields
  rw [generated.eq_text]
  apply contract_of_readings kind
  rw [← Alpha.Cursor.ahead_ofText]
  exact yields.ahead_eq

theorem text_meets_contract_error_behind_full_append :
    ∃ fault, (Statement.compileAppend (Token.Queue.ofList
        [⟨.text (.ofList (List.replicate 14 'A' ++ ['€'])), ⟨1, 2, 1, 18⟩⟩])).1 = .error fault ∧
      fault.code = 300 ∧ fault.span = ⟨1, 2, 1, 18⟩ ∧
      fault.message = "Text could not be more than 14 characters, 1 too many at 1:2" := by
  have yields : (Alpha.Cursor.ofText (List.replicate 14 'A' ++ ['€'])).Yields (List.replicate 14 65)
      (some ⟨14, .unsupported '€'⟩) :=
    ⟨_, .code rfl (.code rfl (.code rfl (.code rfl (.code rfl (.code rfl (.code rfl (.code rfl
      (.code rfl (.code rfl (.code rfl (.code rfl (.code rfl (.code rfl (.start _)))))))))))))), rfl⟩
  have contract := (text_meets_contract (.append (Token.Queue.ofList
    [⟨.text (.ofList (List.replicate 14 'A' ++ ['€'])), ⟨1, 2, 1, 18⟩⟩])) rfl).2 _ _ yields
  exact contract.overflows (.inr ⟨rfl, by simp⟩)

end Calculator.ByteCode
