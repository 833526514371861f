/-!
# UTF-8

`decode` reads bytes as UTF-8 (`from_utf8`) or says what is wrong with the first fault: how many bytes
before it are valid, and how many bytes from there on make up the fault, unless the input ends inside
a character that has been valid so far.  A lead byte fixes how many bytes follow it and in which
range the first of these lies; that range leaves out overlong forms, surrogates and everything
above U+10FFFF.
-/

namespace Lox.Text

/-- What a lead byte announces. -/
structure Lead where
  bits : Nat
  followers : Nat
  /-- The range of the first byte that follows. -/
  least : Nat
  greatest : Nat
  deriving DecidableEq, Repr

/-- What the byte `n` announces as the first one of a character, unless it cannot be that. -/
def lead? (n : Nat) : Option Lead :=
  if n < 0x80 then some ⟨n, 0, 0x80, 0xBF⟩
  else if n < 0xC2 then none
  else if n < 0xE0 then some ⟨n - 0xC0, 1, 0x80, 0xBF⟩
  else if n = 0xE0 then some ⟨0, 2, 0xA0, 0xBF⟩
  else if n = 0xED then some ⟨0xD, 2, 0x80, 0x9F⟩
  else if n < 0xF0 then some ⟨n - 0xE0, 2, 0x80, 0xBF⟩
  else if n = 0xF0 then some ⟨0, 3, 0x90, 0xBF⟩
  else if n < 0xF4 then some ⟨n - 0xF0, 3, 0x80, 0xBF⟩
  else if n = 0xF4 then some ⟨4, 3, 0x80, 0x8F⟩
  else none

inductive HeadFault where
  | incomplete
  | malformed (length : Nat)
  deriving DecidableEq, Repr

/-- Reads `count` more bytes, the next one from `least` to `greatest`, and adds six bits for each
to `bits`; `taken` bytes of the character have been read before. -/
def follow (bits taken least greatest : Nat) :
    Nat → List UInt8 → Except HeadFault (Nat × List UInt8)
  | 0, rest => .ok (bits, rest)
  | _ + 1, [] => .error .incomplete
  | count + 1, b :: rest =>
    if least ≤ b.toNat ∧ b.toNat ≤ greatest then
      follow (bits * 64 + (b.toNat - 0x80)) (taken + 1) 0x80 0xBF count rest
    else .error (.malformed taken)

def decodeHead (b : UInt8) (bs : List UInt8) : Except HeadFault (Char × List UInt8) :=
  match lead? b.toNat with
  | none => .error (.malformed 1)
  | some lead =>
    (follow lead.bits 1 lead.least lead.greatest lead.followers bs).map fun read =>
      (Char.ofNat read.1, read.2)

theorem length_follow_le {bits taken least greatest count total : Nat} {bs rest : List UInt8}
    (h : follow bits taken least greatest count bs = .ok (total, rest)) :
    rest.length ≤ bs.length := by
  induction count generalizing bits taken least greatest bs with
  | zero =>
    rw [follow] at h
    cases h
    exact Nat.le_refl _
  | succ count ih =>
    cases bs with
    | nil => cases h
    | cons b bs =>
      rw [follow] at h
      split at h
      · exact Nat.le_succ_of_le (ih h)
      · cases h

theorem length_decodeHead_le {b : UInt8} {bs rest : List UInt8} {c : Char}
    (h : decodeHead b bs = .ok (c, rest)) : rest.length ≤ bs.length := by
  unfold decodeHead at h
  split at h
  · cases h
  · next lead _ =>
    cases followed : follow lead.bits 1 lead.least lead.greatest lead.followers bs with
    | error fault =>
      rw [followed] at h
      cases h
    | ok read =>
      rw [followed] at h
      cases h
      exact length_follow_le followed

structure Utf8Fault where
  validUpTo : Nat
  head : HeadFault
  deriving DecidableEq, Repr

/-- Decodes the bytes that come after `size` bytes, which have given the characters `done`, last
one first. -/
def decodeAfter (size : Nat) (done : List Char) (bs : List UInt8) :
    Except Utf8Fault (List Char) :=
  match bs with
  | [] => .ok done.reverse
  | b :: bs =>
    match _head : decodeHead b bs with
    | .error fault => .error ⟨size, fault⟩
    | .ok (c, rest) => decodeAfter (size + c.utf8Size) (c :: done) rest
termination_by bs.length
decreasing_by exact Nat.lt_succ_of_le (length_decodeHead_le _head)

/-- The characters that the bytes encode, or the first fault. -/
def decode (bs : List UInt8) : Except Utf8Fault (List Char) := decodeAfter 0 [] bs

end Lox.Text
