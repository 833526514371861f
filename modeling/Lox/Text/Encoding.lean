import Lox.Text.Utf8

/-!
# Decoding what was encoded

The UTF-8 encoding of a text decodes to that text.  Each character is encoded in one to four
bytes; the lead byte announces the others, and the first of these lies in the range that the lead
byte allows because the character is in range itself.
-/

namespace Lox.Text

/-! ### One character -/

theorem follow_ofNat {bits taken least greatest count n : Nat} {rest : List UInt8}
    (low : least ≤ n) (high : n ≤ greatest) (byte : n < 256) :
    follow bits taken least greatest (count + 1) (UInt8.ofNat n :: rest)
      = follow (bits * 64 + (n - 0x80)) (taken + 1) 0x80 0xBF count rest := by
  have toNat : (UInt8.ofNat n).toNat = n := UInt8.toNat_ofNat_of_lt' byte
  simp only [follow, toNat, if_pos (And.intro low high)]

theorem decodeHead_ofNat {n : Nat} {lead : Lead} (byte : n < 256) (announced : lead? n = some lead)
    (bs : List UInt8) :
    decodeHead (UInt8.ofNat n) bs
      = (follow lead.bits 1 lead.least lead.greatest lead.followers bs).map fun read =>
          (Char.ofNat read.1, read.2) := by
  have toNat : (UInt8.ofNat n).toNat = n := UInt8.toNat_ofNat_of_lt' byte
  simp only [decodeHead, toNat, announced]

theorem lead?_one {n : Nat} (h : n ≤ 0x7F) : lead? n = some ⟨n, 0, 0x80, 0xBF⟩ := by
  rw [lead?, if_pos (by omega)]

theorem lead?_two {n : Nat} (h : 2 ≤ n) (h' : n < 32) :
    lead? (n + 0xC0) = some ⟨n, 1, 0x80, 0xBF⟩ := by
  rw [lead?, if_neg (by omega), if_neg (by omega), if_pos (by omega), Nat.add_sub_cancel]

theorem lead?_three (n second : Nat) (h : n < 16) (low : 0x80 ≤ second) (high : second ≤ 0xBF)
    (notOverlong : n = 0 → 0xA0 ≤ second) (notSurrogate : n = 13 → second ≤ 0x9F) :
    ∃ least greatest, lead? (n + 0xE0) = some ⟨n, 2, least, greatest⟩
      ∧ least ≤ second ∧ second ≤ greatest := by
  by_cases first : n = 0
  · subst first
    exact ⟨0xA0, 0xBF, rfl, notOverlong rfl, high⟩
  · by_cases surrogate : n = 13
    · subst surrogate
      exact ⟨0x80, 0x9F, rfl, low, notSurrogate rfl⟩
    · refine ⟨0x80, 0xBF, ?_, low, high⟩
      rw [lead?, if_neg (by omega), if_neg (by omega), if_neg (by omega), if_neg (by omega),
        if_neg (by omega), if_pos (by omega), Nat.add_sub_cancel]

/-- The range after the lead byte of four leaves out overlong forms and what no character is. -/
theorem lead?_four (n second : Nat) (h : n ≤ 4) (low : 0x80 ≤ second) (high : second ≤ 0xBF)
    (notOverlong : n = 0 → 0x90 ≤ second) (inRange : n = 4 → second ≤ 0x8F) :
    ∃ least greatest, lead? (n + 0xF0) = some ⟨n, 3, least, greatest⟩
      ∧ least ≤ second ∧ second ≤ greatest := by
  by_cases first : n = 0
  · subst first
    exact ⟨0x90, 0xBF, rfl, notOverlong rfl, high⟩
  · by_cases last : n = 4
    · subst last
      exact ⟨0x80, 0x8F, rfl, low, inRange rfl⟩
    · refine ⟨0x80, 0xBF, ?_, low, high⟩
      rw [lead?, if_neg (by omega), if_neg (by omega), if_neg (by omega), if_neg (by omega),
        if_neg (by omega), if_neg (by omega), if_neg (by omega), if_pos (by omega),
        Nat.add_sub_cancel]

def encodeNumber (n : Nat) : List UInt8 :=
  if n ≤ 0x7F then [UInt8.ofNat n]
  else if n ≤ 0x7FF then [UInt8.ofNat (n / 64 % 32 + 0xC0), UInt8.ofNat (n % 64 + 0x80)]
  else if n ≤ 0xFFFF then
    [UInt8.ofNat (n / 4096 % 16 + 0xE0), UInt8.ofNat (n / 64 % 64 + 0x80),
      UInt8.ofNat (n % 64 + 0x80)]
  else
    [UInt8.ofNat (n / 262144 % 8 + 0xF0), UInt8.ofNat (n / 4096 % 64 + 0x80),
      UInt8.ofNat (n / 64 % 64 + 0x80), UInt8.ofNat (n % 64 + 0x80)]

theorem utf8EncodeChar_eq (c : Char) : String.utf8EncodeChar c = encodeNumber c.toNat := rfl

/-- An encoded character is read back, whatever follows it. -/
theorem decodeHead_encodeNumber {n : Nat} (valid : n.isValidChar) (rest : List UInt8) :
    ∃ b bs, encodeNumber n = b :: bs ∧ decodeHead b (bs ++ rest) = .ok (Char.ofNat n, rest) := by
  unfold Nat.isValidChar at valid
  unfold encodeNumber
  split
  · next one =>
    refine ⟨_, _, rfl, ?_⟩
    rw [decodeHead_ofNat (by omega) (lead?_one one)]
    rfl
  · split
    · have total : n / 64 % 32 * 64 + (n % 64 + 0x80 - 0x80) = n := by omega
      refine ⟨_, _, rfl, ?_⟩
      rw [decodeHead_ofNat (by omega) (lead?_two (by omega) (by omega)), List.cons_append,
        follow_ofNat (Nat.le_add_left 0x80 _) (show _ ≤ 0xBF by omega) (by omega), total]
      rfl
    · split
      · have total : (n / 4096 % 16 * 64 + (n / 64 % 64 + 0x80 - 0x80)) * 64
            + (n % 64 + 0x80 - 0x80) = n := by omega
        obtain ⟨least, greatest, announced, low, high⟩ :=
          lead?_three (n / 4096 % 16) (n / 64 % 64 + 0x80)
            (by omega) (by omega) (by omega) (by omega) (by omega)
        refine ⟨_, _, rfl, ?_⟩
        rw [decodeHead_ofNat (by omega) announced, List.cons_append, List.cons_append,
          follow_ofNat low high (by omega), follow_ofNat (by omega) (by omega) (by omega), total]
        rfl
      · have total : ((n / 262144 % 8 * 64 + (n / 4096 % 64 + 0x80 - 0x80)) * 64
            + (n / 64 % 64 + 0x80 - 0x80)) * 64 + (n % 64 + 0x80 - 0x80) = n := by omega
        obtain ⟨least, greatest, announced, low, high⟩ :=
          lead?_four (n / 262144 % 8) (n / 4096 % 64 + 0x80)
            (by omega) (by omega) (by omega) (by omega) (by omega)
        refine ⟨_, _, rfl, ?_⟩
        rw [decodeHead_ofNat (by omega) announced, List.cons_append, List.cons_append,
          List.cons_append, follow_ofNat low high (by omega),
          follow_ofNat (by omega) (by omega) (by omega),
          follow_ofNat (by omega) (by omega) (by omega), total]
        rfl

/-! ### A whole text -/

theorem decodeAfter_cons {size : Nat} {done : List Char} {b : UInt8} {bs rest : List UInt8}
    {c : Char} (h : decodeHead b bs = .ok (c, rest)) :
    decodeAfter size done (b :: bs) = decodeAfter (size + c.utf8Size) (c :: done) rest := by
  rw [decodeAfter]
  split
  · next fault failed =>
    rw [h] at failed
    cases failed
  · next read =>
    rw [h] at read
    cases read
    rfl

theorem decodeAfter_encodeChar (size : Nat) (done : List Char) (c : Char) (rest : List UInt8) :
    decodeAfter size done (String.utf8EncodeChar c ++ rest)
      = decodeAfter (size + c.utf8Size) (c :: done) rest := by
  obtain ⟨b, bs, encoded, decoded⟩ := decodeHead_encodeNumber c.valid rest
  have same : Char.ofNat c.toNat = c := Char.ofNat_toNat c
  rw [← Char.toNat, same] at decoded
  rw [utf8EncodeChar_eq, Char.toNat, encoded, List.cons_append, decodeAfter_cons decoded]

/-- An encoded text is decoded to the end, whatever follows it. -/
theorem decodeAfter_append (size : Nat) (done cs : List Char) (rest : List UInt8) :
    decodeAfter size done (cs.flatMap String.utf8EncodeChar ++ rest)
      = decodeAfter (size + (cs.flatMap String.utf8EncodeChar).length) (cs.reverse ++ done)
        rest := by
  induction cs generalizing size done with
  | nil => rfl
  | cons c cs ih =>
    rw [List.flatMap_cons, List.append_assoc, decodeAfter_encodeChar, ih, List.length_append,
      String.length_utf8EncodeChar, List.reverse_cons, List.append_assoc, Nat.add_assoc]
    rfl

/-- The bytes of a text decode to its characters. -/
theorem decode_encode (cs : List Char) : decode (cs.flatMap String.utf8EncodeChar) = .ok cs := by
  have whole := decodeAfter_append 0 [] cs []
  rw [List.append_nil, List.append_nil, decodeAfter, List.reverse_reverse] at whole
  exact whole

end Lox.Text
