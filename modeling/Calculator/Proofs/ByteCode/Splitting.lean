import Calculator.Proofs.ByteCode.Text
import Calculator.Proofs.Numeral

/-! Byte code of texts and numbers, one after another, can be taken apart again in one way only. -/

namespace Calculator.ByteCode

def TextCode (bytes : List UInt8) : Prop := ∃ placement token, Generated placement token (.ok bytes)

theorem textCode_of_text (placement : Placement) (token : Token) {bytes : List UInt8}
    (coded : text placement token = .ok bytes) : TextCode bytes := by
  refine ⟨placement, token, ?_⟩
  rw [← coded]
  cases placement with
  | replace => exact .replace token
  | append => exact .append (Token.Queue.ofList [token])

def NumberCode (bytes : List UInt8) : Prop :=
  ∃ token lexeme, token.kind = .number lexeme ∧ lexeme ≠ "" ∧ number token = .ok bytes

/-- Byte codes of texts and numbers, with no two numbers side by side. -/
structure Fragments (sequence : List (List UInt8)) : Prop where
  generated : ∀ bytes ∈ sequence, TextCode bytes ∨ NumberCode bytes
  apart : sequence.IsChain fun first second => ¬(NumberCode first ∧ NumberCode second)

theorem Fragments.tail {bytes : List UInt8} {rest : List (List UInt8)}
    (fragments : Fragments (bytes :: rest)) : Fragments rest :=
  ⟨fun other member => fragments.generated other (List.mem_cons_of_mem _ member), fragments.apart.tail⟩

theorem length_of_pack {room : Nat} {readings : List (Except Alpha.ReadError UInt8)}
    {codes : List UInt8} (packed : pack room readings = .ok codes) : codes.length ≤ room := by
  fun_induction pack room readings generalizing codes with
  | case1 room =>
      cases packed
      simp
  | case2 => cases packed
  | case3 => cases packed
  | case4 room code rest later found ih =>
      cases packed
      have bound := ih found
      rw [List.length_cons]
      omega
  | case5 => cases packed

theorem TextCode.exists_payload {bytes : List UInt8} (code : TextCode bytes) :
    ∃ payload, bytes = frame payload ∧ payload.length ≤ maxPayload := by
  obtain ⟨placement, token, generated⟩ := code
  have success := generated.eq_text.symm
  unfold text at success
  split at success
  · split at success
    · next codes packed =>
        cases success
        refine ⟨_, rfl, ?_⟩
        have bound := length_of_pack packed
        have mark : placement.mark.length ≤ maxPayload := by cases placement <;> decide
        rw [List.length_append]
        simp only [Placement.room] at bound
        omega
    · cases success
    · cases success
  · cases success

def isNumberByte (byte : UInt8) : Bool := 0x10 ≤ byte && byte ≤ 0x1c

theorem isNumberByte_of_numberByte? {c : Char} {byte : UInt8} (coded : numberByte? c = some byte) :
    isNumberByte byte = true := by
  unfold numberByte? at coded
  split at coded
  · next digit =>
      cases coded
      have bounds := Numeral.isDigit_bounds digit
      have value : (digitBase + UInt8.ofNat (c.toNat - '0'.toNat)).toNat = 16 + (c.toNat - 48) := by
        have small : (16 + (c.toNat - 48)) % 256 = 16 + (c.toNat - 48) := by omega
        simpa [digitBase, UInt8.toNat_add] using small
      simp only [isNumberByte, Bool.and_eq_true, decide_eq_true_eq, UInt8.le_iff_toNat_le, value,
        UInt8.reduceToNat]
      omega
  · split at coded
    · cases coded
      decide
    · split at coded
      · cases coded
        decide
      · split at coded
        · cases coded
          decide
        · cases coded

theorem numberBytes_of_ok {index : Nat} {text : List Char} {bytes : List UInt8}
    (coded : numberBytesFrom index text = .ok bytes) :
    bytes.length = text.length ∧ ∀ byte ∈ bytes, isNumberByte byte = true := by
  fun_induction numberBytesFrom index text generalizing bytes with
  | case1 index =>
      cases coded
      simp
  | case2 => cases coded
  | case3 index c rest byte first later found ih =>
      cases coded
      obtain ⟨size, numeric⟩ := ih found
      refine ⟨by simp [size], ?_⟩
      intro other member
      rcases List.mem_cons.mp member with rfl | inside
      · exact isNumberByte_of_numberByte? first
      · exact numeric other inside
  | case4 => cases coded

theorem NumberCode.bytes {bytes : List UInt8} (code : NumberCode bytes) :
    bytes ≠ [] ∧ ∀ byte ∈ bytes, isNumberByte byte = true := by
  obtain ⟨token, lexeme, kind, written, success⟩ := code
  simp only [number, kind] at success
  split at success
  · next found =>
      cases success
      obtain ⟨size, numeric⟩ := numberBytes_of_ok found
      refine ⟨?_, numeric⟩
      rintro rfl
      apply written
      rw [← String.toList_inj, String.toList_empty]
      exact List.eq_nil_of_length_eq_zero size.symm
  · cases success

theorem toNat_header {payload : List UInt8} (fits : payload.length ≤ maxPayload) :
    (textHeader + UInt8.ofNat payload.length).toNat = 240 + payload.length := by
  have bound : payload.length ≤ 15 := fits
  have small : (240 + payload.length) % 256 = 240 + payload.length := by omega
  simpa [textHeader, UInt8.toNat_add] using small

/-- The first fragment of a byte code: as many bytes as a header says, or all bytes of a number. -/
def leading : List UInt8 → List UInt8
  | [] => []
  | byte :: rest =>
      if textHeader ≤ byte then byte :: rest.take (byte.toNat - textHeader.toNat)
      else (byte :: rest).takeWhile isNumberByte

theorem leading_frame {payload : List UInt8} (fits : payload.length ≤ maxPayload) (rest : List UInt8) :
    leading (frame payload ++ rest) = frame payload := by
  have header := toNat_header fits
  have marked : textHeader ≤ textHeader + UInt8.ofNat payload.length := by
    rw [UInt8.le_iff_toNat_le, header]
    simp [textHeader]
  have count : (textHeader + UInt8.ofNat payload.length).toNat - textHeader.toNat = payload.length := by
    rw [header]
    simp [textHeader]
  simp only [frame, List.cons_append, leading, marked, if_true, count, List.take_left]

theorem not_isNumberByte_header {payload : List UInt8} (fits : payload.length ≤ maxPayload) :
    isNumberByte (textHeader + UInt8.ofNat payload.length) = false := by
  simp only [isNumberByte, UInt8.le_iff_toNat_le, toNat_header fits, UInt8.reduceToNat]
  have high : ¬240 + payload.length ≤ 28 := by omega
  simp [high]

theorem leading_number {bytes rest : List UInt8} (written : bytes ≠ [])
    (numeric : ∀ byte ∈ bytes, isNumberByte byte = true)
    (stops : ∀ byte, rest.head? = some byte → isNumberByte byte = false) :
    leading (bytes ++ rest) = bytes := by
  have whole : (bytes ++ rest).takeWhile isNumberByte = bytes := by
    have nothing : rest.takeWhile isNumberByte = [] := by
      cases rest with
      | nil => rfl
      | cons byte rest => simp [stops byte (by simp)]
    rw [List.takeWhile_append_of_pos numeric, nothing, List.append_nil]
  cases bytes with
  | nil => contradiction
  | cons byte bytes =>
      have low : ¬textHeader ≤ byte := by
        have numeral := numeric byte (by simp)
        simp only [isNumberByte, Bool.and_eq_true, decide_eq_true_eq, UInt8.le_iff_toNat_le,
          UInt8.reduceToNat] at numeral
        simp only [textHeader, UInt8.le_iff_toNat_le, UInt8.reduceToNat]
        omega
      rw [List.cons_append] at whole ⊢
      rw [leading, if_neg low, whole]

theorem Fragments.ne_nil {bytes : List UInt8} {rest : List (List UInt8)}
    (fragments : Fragments (bytes :: rest)) : bytes ≠ [] := by
  rcases fragments.generated bytes (by simp) with text | number
  · obtain ⟨payload, rfl, _⟩ := text.exists_payload
    simp [frame]
  · exact number.bytes.1

/-- The first fragment is told by the bytes alone, whatever its payload looks like. -/
theorem Fragments.leading_flatten {bytes : List UInt8} {rest : List (List UInt8)}
    (fragments : Fragments (bytes :: rest)) : leading (bytes :: rest).flatten = bytes := by
  rw [List.flatten_cons]
  rcases fragments.generated bytes (by simp) with text | number
  · obtain ⟨payload, rfl, fits⟩ := text.exists_payload
    exact leading_frame fits _
  · apply leading_number number.bytes.1 number.bytes.2
    intro byte head
    cases rest with
    | nil => simp at head
    | cons following rest =>
        -- a text has to follow, and its header is no byte of a number
        have apart := List.isChain_cons_cons.mp fragments.apart
        rcases fragments.generated following (by simp) with text | other
        · obtain ⟨payload, rfl, fits⟩ := text.exists_payload
          simp only [List.flatten_cons, frame, List.cons_append, List.head?_cons,
            Option.some.injEq] at head
          rw [← head]
          exact not_isNumberByte_header fits
        · exact absurd ⟨number, other⟩ apart.1

/-- Byte codes of texts and numbers that are the same when strung together were the same before, if no
two numbers stand side by side. -/
theorem eq_of_flatten_eq {first second : List (List UInt8)} (firstFragments : Fragments first)
    (secondFragments : Fragments second) (same : first.flatten = second.flatten) : first = second := by
  induction first generalizing second with
  | nil =>
      cases second with
      | nil => rfl
      | cons bytes rest =>
          rw [List.flatten_nil, List.flatten_cons, eq_comm, List.append_eq_nil_iff] at same
          exact absurd same.1 secondFragments.ne_nil
  | cons bytes rest ih =>
      cases second with
      | nil =>
          rw [List.flatten_nil, List.flatten_cons, List.append_eq_nil_iff] at same
          exact absurd same.1 firstFragments.ne_nil
      | cons other more =>
          have heads : bytes = other := by
            rw [← firstFragments.leading_flatten, same, secondFragments.leading_flatten]
          subst heads
          rw [List.flatten_cons, List.flatten_cons] at same
          rw [ih firstFragments.tail secondFragments.tail (List.append_cancel_left same)]

theorem eq_of_flatten_eq_deceptive_payload :
    ∃! sequence, Fragments sequence ∧
      sequence.flatten = [0xf2, 0x11, 0xf1, 0x1c, 0x11, 0xf1, 0x7f] := by
  have text : TextCode [0xf2, 0x11, 0xf1] := by
    apply textCode_of_text .replace
      ⟨.text (.ofList ['\x60', 'x', '1', '1', '\x60', 'x', 'F', '1']), ⟨1, 1, 1, 10⟩⟩
    cbv
  have number : NumberCode [0x1c, 0x11] :=
    ⟨⟨.number (.ofList ['-', '1']), ⟨2, 1, 2, 2⟩⟩, _, rfl, by decide, by cbv⟩
  have append : TextCode [0xf1, 0x7f] := by
    apply textCode_of_text .append ⟨.text "", ⟨3, 2, 3, 3⟩⟩
    cbv
  have noNumber {header : UInt8} (payload : List UInt8) (high : isNumberByte header = false) :
      ¬NumberCode (header :: payload) := by
    intro code
    simp [code.bytes.2 header (by simp)] at high
  have fragments : Fragments [[0xf2, 0x11, 0xf1], [0x1c, 0x11], [0xf1, 0x7f]] := by
    refine ⟨?_, ?_⟩
    · intro bytes member
      simp only [List.mem_cons, List.not_mem_nil, or_false] at member
      rcases member with rfl | rfl | rfl
      · exact .inl text
      · exact .inr number
      · exact .inl append
    · have textFirst := noNumber [0x11, 0xf1] (by decide : isNumberByte 0xf2 = false)
      have textLast := noNumber [0x7f] (by decide : isNumberByte 0xf1 = false)
      simp [textFirst, textLast]
  refine ⟨_, ⟨fragments, rfl⟩, ?_⟩
  rintro other ⟨otherFragments, same⟩
  exact eq_of_flatten_eq otherFragments fragments same

end Calculator.ByteCode
