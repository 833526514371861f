import Lox.Text.Encoding

/-!
# What can be decoded

Bytes decode to a text just when they are its encoding (`decode_eq_ok_iff`), and where they do not
decode, the fault stands after the longest part of them, from the start, that is the encoding of
some text (`longestValid_of_decode`).
-/

namespace Lox.Text

/-- The UTF-8 encoding of a text. -/
def encode (s : String) : List UInt8 := s.toUTF8.data.toList

theorem encode_ofList (cs : List Char) :
    encode (String.ofList cs) = cs.flatMap String.utf8EncodeChar := by
  rw [encode, String.toUTF8, String.toByteArray_ofList, List.utf8Encode]
  simp

/-- The bytes are the encoding of some text. -/
def IsUtf8 (bs : List UInt8) : Prop := ∃ s : String, encode s = bs

/-- The first `n` of the bytes are the longest part of them, from the start, that is an encoding. -/
structure LongestValid (bs : List UInt8) (n : Nat) : Prop where
  le : n ≤ bs.length
  valid : IsUtf8 (bs.take n)
  longest : ∀ k ≤ bs.length, IsUtf8 (bs.take k) → k ≤ n

/-! ### One character -/

theorem exists_byte_of_follow {bits taken least greatest count total : Nat} {bs rest : List UInt8}
    (h : follow bits taken least greatest (count + 1) bs = .ok (total, rest)) :
    ∃ b bs', bs = b :: bs' ∧ least ≤ b.toNat ∧ b.toNat ≤ greatest
      ∧ follow (bits * 64 + (b.toNat - 0x80)) (taken + 1) 0x80 0xBF count bs'
        = .ok (total, rest) := by
  cases bs with
  | nil => cases h
  | cons b bs' =>
    rw [follow] at h
    split at h
    · next range => exact ⟨b, bs', rfl, range.1, range.2, h⟩
    · cases h

/-- The lead bytes of characters of one, two, three and four bytes. -/
theorem lead?_cases {n : Nat} {lead : Lead} (h : lead? n = some lead) :
    (n ≤ 0x7F ∧ lead = ⟨n, 0, 0x80, 0xBF⟩)
      ∨ (0xC2 ≤ n ∧ n ≤ 0xDF ∧ lead = ⟨n - 0xC0, 1, 0x80, 0xBF⟩)
      ∨ (∃ least greatest, 0xE0 ≤ n ∧ n ≤ 0xEF ∧ lead = ⟨n - 0xE0, 2, least, greatest⟩
        ∧ 0x80 ≤ least ∧ greatest ≤ 0xBF ∧ (n = 0xE0 → 0xA0 ≤ least) ∧ (n = 0xED → greatest ≤ 0x9F))
      ∨ (∃ least greatest, 0xF0 ≤ n ∧ n ≤ 0xF4 ∧ lead = ⟨n - 0xF0, 3, least, greatest⟩
        ∧ 0x80 ≤ least ∧ greatest ≤ 0xBF ∧ (n = 0xF0 → 0x90 ≤ least)
        ∧ (n = 0xF4 → greatest ≤ 0x8F)) := by
  unfold lead? at h
  split at h
  · obtain rfl := Option.some.inj h
    exact .inl ⟨by omega, rfl⟩
  split at h
  · cases h
  split at h
  · obtain rfl := Option.some.inj h
    exact .inr (.inl ⟨by omega, by omega, rfl⟩)
  split at h
  · next lead =>
    subst lead
    exact .inr (.inr (.inl ⟨0xA0, 0xBF, by omega, by omega, (Option.some.inj h).symm, by omega⟩))
  split at h
  · next lead =>
    subst lead
    exact .inr (.inr (.inl ⟨0x80, 0x9F, by omega, by omega, (Option.some.inj h).symm, by omega⟩))
  split at h
  · obtain rfl := Option.some.inj h
    exact .inr (.inr (.inl ⟨0x80, 0xBF, by omega, by omega, rfl, by omega⟩))
  split at h
  · next lead =>
    subst lead
    exact .inr (.inr (.inr ⟨0x90, 0xBF, by omega, by omega, (Option.some.inj h).symm, by omega⟩))
  split at h
  · obtain rfl := Option.some.inj h
    exact .inr (.inr (.inr ⟨0x80, 0xBF, by omega, by omega, rfl, by omega⟩))
  split at h
  · next lead =>
    subst lead
    exact .inr (.inr (.inr ⟨0x80, 0x8F, by omega, by omega, (Option.some.inj h).symm, by omega⟩))
  · cases h

theorem utf8EncodeChar_ofNat {n : Nat} (valid : n < 0xD800 ∨ 0xDFFF < n ∧ n < 0x110000) :
    String.utf8EncodeChar (Char.ofNat n) = encodeNumber n := by
  have same : (Char.ofNat n).toNat = n := by
    rw [Char.ofNat, dif_pos valid]
    rfl
  rw [utf8EncodeChar_eq, same]

theorem ofNat_eq {n : Nat} {b : UInt8} (h : n = b.toNat) : UInt8.ofNat n = b := by
  rw [h, UInt8.ofNat_toNat]

section Sizes

variable {b b₁ b₂ b₃ : UInt8} {n : Nat}

theorem encode_one (h : b.toNat ≤ 0x7F) : String.utf8EncodeChar (Char.ofNat b.toNat) = [b] := by
  rw [utf8EncodeChar_ofNat (by omega), encodeNumber, if_pos h, ofNat_eq rfl]

theorem encode_two (h : 0xC2 ≤ b.toNat ∧ b.toNat ≤ 0xDF) (h₁ : 0x80 ≤ b₁.toNat ∧ b₁.toNat ≤ 0xBF)
    (total : n = (b.toNat - 0xC0) * 64 + (b₁.toNat - 0x80)) :
    String.utf8EncodeChar (Char.ofNat n) = [b, b₁] := by
  have lead : n / 64 % 32 + 0xC0 = b.toNat := by omega
  have last : n % 64 + 0x80 = b₁.toNat := by omega
  rw [utf8EncodeChar_ofNat (by omega), encodeNumber, if_neg (by omega), if_pos (by omega),
    ofNat_eq lead, ofNat_eq last]

theorem encode_three (h : 0xE0 ≤ b.toNat ∧ b.toNat ≤ 0xEF) (h₁ : 0x80 ≤ b₁.toNat ∧ b₁.toNat ≤ 0xBF)
    (notOverlong : b.toNat = 0xE0 → 0xA0 ≤ b₁.toNat)
    (notSurrogate : b.toNat = 0xED → b₁.toNat ≤ 0x9F) (h₂ : 0x80 ≤ b₂.toNat ∧ b₂.toNat ≤ 0xBF)
    (total : n = ((b.toNat - 0xE0) * 64 + (b₁.toNat - 0x80)) * 64 + (b₂.toNat - 0x80)) :
    String.utf8EncodeChar (Char.ofNat n) = [b, b₁, b₂] := by
  have lead : n / 4096 % 16 + 0xE0 = b.toNat := by omega
  have next : n / 64 % 64 + 0x80 = b₁.toNat := by omega
  have last : n % 64 + 0x80 = b₂.toNat := by omega
  rw [utf8EncodeChar_ofNat (by omega), encodeNumber, if_neg (by omega), if_neg (by omega),
    if_pos (by omega), ofNat_eq lead, ofNat_eq next, ofNat_eq last]

theorem encode_four (h : 0xF0 ≤ b.toNat ∧ b.toNat ≤ 0xF4) (h₁ : 0x80 ≤ b₁.toNat ∧ b₁.toNat ≤ 0xBF)
    (notOverlong : b.toNat = 0xF0 → 0x90 ≤ b₁.toNat) (inRange : b.toNat = 0xF4 → b₁.toNat ≤ 0x8F)
    (h₂ : 0x80 ≤ b₂.toNat ∧ b₂.toNat ≤ 0xBF) (h₃ : 0x80 ≤ b₃.toNat ∧ b₃.toNat ≤ 0xBF)
    (total : n = (((b.toNat - 0xF0) * 64 + (b₁.toNat - 0x80)) * 64 + (b₂.toNat - 0x80)) * 64
      + (b₃.toNat - 0x80)) :
    String.utf8EncodeChar (Char.ofNat n) = [b, b₁, b₂, b₃] := by
  have lead : n / 262144 % 8 + 0xF0 = b.toNat := by omega
  have next : n / 4096 % 64 + 0x80 = b₁.toNat := by omega
  have third : n / 64 % 64 + 0x80 = b₂.toNat := by omega
  have last : n % 64 + 0x80 = b₃.toNat := by omega
  rw [utf8EncodeChar_ofNat (by omega), encodeNumber, if_neg (by omega), if_neg (by omega),
    if_neg (by omega), ofNat_eq lead, ofNat_eq next, ofNat_eq third, ofNat_eq last]

end Sizes

theorem encode_of_follow {b : UInt8} {bs rest : List UInt8} {lead : Lead} {n : Nat}
    (announced : lead? b.toNat = some lead)
    (followed : follow lead.bits 1 lead.least lead.greatest lead.followers bs = .ok (n, rest)) :
    String.utf8EncodeChar (Char.ofNat n) ++ rest = b :: bs := by
  rcases lead?_cases announced with ⟨high, rfl⟩ | ⟨low, high, rfl⟩
    | ⟨least, greatest, low, high, rfl, hleast, hgreatest, notOverlong, notSurrogate⟩
    | ⟨least, greatest, low, high, rfl, hleast, hgreatest, notOverlong, inRange⟩
  · obtain ⟨rfl, rfl⟩ := Prod.mk.inj (Except.ok.inj followed)
    rw [encode_one high]
    rfl
  · obtain ⟨b₁, bs, rfl, low₁, high₁, done⟩ := exists_byte_of_follow followed
    obtain ⟨total, rfl⟩ := Prod.mk.inj (Except.ok.inj done)
    rw [encode_two ⟨low, high⟩ ⟨low₁, high₁⟩ total.symm]
    rfl
  · dsimp only at followed
    obtain ⟨b₁, bs, rfl, low₁, high₁, followed⟩ := exists_byte_of_follow followed
    obtain ⟨b₂, bs, rfl, low₂, high₂, done⟩ := exists_byte_of_follow followed
    obtain ⟨total, rfl⟩ := Prod.mk.inj (Except.ok.inj done)
    have three := encode_three ⟨low, high⟩ (by omega) (by omega) (by omega) ⟨low₂, high₂⟩ total.symm
    rw [three]
    rfl
  · dsimp only at followed
    obtain ⟨b₁, bs, rfl, low₁, high₁, followed⟩ := exists_byte_of_follow followed
    obtain ⟨b₂, bs, rfl, low₂, high₂, followed⟩ := exists_byte_of_follow followed
    obtain ⟨b₃, bs, rfl, low₃, high₃, done⟩ := exists_byte_of_follow followed
    obtain ⟨total, rfl⟩ := Prod.mk.inj (Except.ok.inj done)
    have four := encode_four ⟨low, high⟩ (by omega) (by omega) (by omega) ⟨low₂, high₂⟩
      ⟨low₃, high₃⟩ total.symm
    rw [four]
    rfl

theorem encode_of_decodeHead {b : UInt8} {bs rest : List UInt8} {c : Char}
    (h : decodeHead b bs = .ok (c, rest)) : String.utf8EncodeChar c ++ rest = b :: bs := by
  unfold decodeHead at h
  split at h
  · cases h
  · next lead announced =>
    cases followed : follow lead.bits 1 lead.least lead.greatest lead.followers bs with
    | error fault =>
      rw [followed] at h
      cases h
    | ok read =>
      rw [followed] at h
      obtain ⟨rfl, rfl⟩ := Prod.mk.inj (Except.ok.inj h)
      exact encode_of_follow announced followed

/-! ### A whole text -/

theorem encode_of_decodeAfter {size : Nat} {done cs : List Char} {bs : List UInt8}
    (h : decodeAfter size done bs = .ok cs) :
    ∃ ds, cs = done.reverse ++ ds ∧ ds.flatMap String.utf8EncodeChar = bs := by
  fun_induction decodeAfter size done bs with
  | case1 size done =>
    cases h
    exact ⟨[], (List.append_nil _).symm, rfl⟩
  | case2 size done b bs fault head => cases h
  | case3 size done b bs c rest head ih =>
    obtain ⟨ds, rfl, encoded⟩ := ih h
    refine ⟨c :: ds, ?_, ?_⟩
    · rw [List.reverse_cons, List.append_assoc]
      rfl
    · rw [List.flatMap_cons, encoded, encode_of_decodeHead head]

theorem exists_valid_of_decodeAfter {size : Nat} {done : List Char} {bs : List UInt8}
    {fault : Utf8Fault} (h : decodeAfter size done bs = .error fault) :
    ∃ (ds : List Char) (rest : List UInt8), ds.flatMap String.utf8EncodeChar ++ rest = bs
      ∧ fault.validUpTo = size + (ds.flatMap String.utf8EncodeChar).length := by
  fun_induction decodeAfter size done bs with
  | case1 size done => cases h
  | case2 size done b bs fault head =>
    cases h
    exact ⟨[], b :: bs, rfl, rfl⟩
  | case3 size done b bs c rest head ih =>
    obtain ⟨ds, rest', encoded, reached⟩ := ih h
    refine ⟨c :: ds, rest', ?_, ?_⟩
    · rw [List.flatMap_cons, List.append_assoc, encoded, encode_of_decodeHead head]
    · rw [List.flatMap_cons, List.length_append, String.length_utf8EncodeChar, reached]
      omega

theorem decode_eq_ok_iff {bs : List UInt8} {cs : List Char} :
    decode bs = .ok cs ↔ encode (String.ofList cs) = bs := by
  rw [encode_ofList]
  constructor
  · intro h
    obtain ⟨ds, rfl, encoded⟩ := encode_of_decodeAfter h
    exact encoded
  · rintro rfl
    exact decode_encode cs

theorem decode_encode_text (s : String) : decode (encode s) = .ok s.toList := by
  rw [decode_eq_ok_iff, String.ofList_toList]

theorem not_isUtf8_iff {bs : List UInt8} : ¬ IsUtf8 bs ↔ ∃ fault, decode bs = .error fault := by
  cases decoded : decode bs with
  | ok cs =>
    have valid : IsUtf8 bs := ⟨String.ofList cs, decode_eq_ok_iff.mp decoded⟩
    apply iff_of_false (not_not_intro valid)
    exact nofun
  | error fault =>
    apply iff_of_true
    · intro valid
      obtain ⟨s, rfl⟩ := valid
      rw [decode_encode_text] at decoded
      contradiction
    · exact ⟨fault, rfl⟩

/-- The fault of bytes that do not decode stands right after the longest part that does. -/
theorem longestValid_of_decode {bs : List UInt8} {fault : Utf8Fault}
    (h : decode bs = .error fault) : LongestValid bs fault.validUpTo := by
  obtain ⟨ds, rest, rfl, reached⟩ := exists_valid_of_decodeAfter h
  rw [Nat.zero_add] at reached
  constructor
  · rw [reached, List.length_append]
    omega
  · rw [reached, List.take_left]
    exact ⟨String.ofList ds, encode_ofList ds⟩
  · intro k inside valid
    obtain ⟨s, encoded⟩ := valid
    rw [← s.ofList_toList, encode_ofList] at encoded
    -- what has been decoded by then puts the fault no further back
    have cut := List.take_append_drop k (ds.flatMap String.utf8EncodeChar ++ rest)
    have length := congrArg List.length encoded
    rw [List.length_take, Nat.min_eq_left inside] at length
    rw [← cut, ← encoded, decode, decodeAfter_append] at h
    obtain ⟨_, _, _, later⟩ := exists_valid_of_decodeAfter h
    omega

end Lox.Text
