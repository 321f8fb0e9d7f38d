/-!
UTF-8: characters from bytes, and where bytes are no characters.
-/

namespace GoOutline.Text.Utf8

/-- What stands at the front of some bytes. -/
inductive Piece where
  /-- A character and the number of its bytes. -/
  | char (c : Char) (length : Nat)
  /-- As many bytes that start no character. -/
  | invalid (length : Nat)
  /-- The start of a character that is cut off. -/
  | cut
deriving DecidableEq, Repr

def isTail (b : UInt8) : Bool := 0x80 ≤ b && b ≤ 0xBF

def tailBits (b : UInt8) : Nat := b.toNat - 0x80

/-- The bytes that may follow the first byte of three. -/
def secondOfThree (first second : UInt8) : Bool :=
  if first = 0xE0 then 0xA0 ≤ second && second ≤ 0xBF
  else if first = 0xED then 0x80 ≤ second && second ≤ 0x9F
  else isTail second

/-- The bytes that may follow the first byte of four. -/
def secondOfFour (first second : UInt8) : Bool :=
  if first = 0xF0 then 0x90 ≤ second && second ≤ 0xBF
  else if first = 0xF4 then 0x80 ≤ second && second ≤ 0x8F
  else isTail second

def pair (a : UInt8) : List UInt8 → Piece
  | [] => .cut
  | b :: _ =>
    if isTail b then .char (Char.ofNat ((a.toNat - 0xC0) * 0x40 + tailBits b)) 2 else .invalid 1

def triple (a : UInt8) : List UInt8 → Piece
  | [] => .cut
  | b :: s =>
    if !secondOfThree a b then .invalid 1
    else
      match s with
      | [] => .cut
      | c :: _ =>
        if isTail c then
          .char (Char.ofNat ((a.toNat - 0xE0) * 0x1000 + tailBits b * 0x40 + tailBits c)) 3
        else .invalid 2

def quadruple (a : UInt8) : List UInt8 → Piece
  | [] => .cut
  | b :: s =>
    if !secondOfFour a b then .invalid 1
    else
      match s with
      | [] => .cut
      | c :: s =>
        if !isTail c then .invalid 2
        else
          match s with
          | [] => .cut
          | d :: _ =>
            if isTail d then
              .char (Char.ofNat ((a.toNat - 0xF0) * 0x40000 + tailBits b * 0x1000 +
                tailBits c * 0x40 + tailBits d)) 4
            else .invalid 3

def piece (a : UInt8) (s : List UInt8) : Piece :=
  if a < 0x80 then .char (Char.ofNat a.toNat) 1
  else if 0xC2 ≤ a ∧ a ≤ 0xDF then pair a s
  else if 0xE0 ≤ a ∧ a ≤ 0xEF then triple a s
  else if 0xF0 ≤ a ∧ a ≤ 0xF4 then quadruple a s
  else .invalid 1

/-- The first bytes that are no character. -/
structure Fault where
  offset : Nat
  /-- How many bytes there are of it, if they are not the last ones. -/
  length : Option Nat
deriving DecidableEq, Repr

def Fault.message (f : Fault) : String :=
  match f.length with
  | some n =>
    "invalid utf-8 sequence of " ++ toString n ++ " bytes from index " ++ toString f.offset
  | none => "incomplete utf-8 byte sequence from index " ++ toString f.offset

def decodeFrom (offset : Nat) (s : List UInt8) : Except Fault (List Char) :=
  match s with
  | [] => .ok []
  | a :: s =>
    match piece a s with
    | .char c n => (c :: ·) <$> decodeFrom (offset + n) (s.drop (n - 1))
    | .invalid n => .error ⟨offset, some n⟩
    | .cut => .error ⟨offset, none⟩
termination_by s.length
decreasing_by simp only [List.length_drop, List.length_cons]; omega

def decode (s : List UInt8) : Except Fault (List Char) := decodeFrom 0 s

/-- Bytes that are no characters become replacement characters. -/
def decodeLossy (s : List UInt8) : List Char :=
  match s with
  | [] => []
  | a :: s =>
    match piece a s with
    | .char c n => c :: decodeLossy (s.drop (n - 1))
    | .invalid n => '\ufffd' :: decodeLossy (s.drop (n - 1))
    | .cut => ['\ufffd']
termination_by s.length
decreasing_by all_goals (simp only [List.length_drop, List.length_cons]; omega)

def encode (s : List Char) : List UInt8 := s.flatMap String.utf8EncodeChar

end GoOutline.Text.Utf8
