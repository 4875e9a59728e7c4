/-!
# UTF-8

Texts as bytes and back. `Utf8.units` reads bytes from left to right: a unit is a character, or a
part that belongs to none. Such a part is as long as it could still have become a character: the
first byte of a sequence and the bytes behind it that continue it, up to the byte that does not.

`Utf8.decode?` refuses bytes with such a part, and `Utf8.decodeLossy` writes the replacement
character U+FFFD for each.
-/

namespace WidgetMigration.Utf8

/-- What a first byte announces: how many bytes follow, the bounds of the next one, and the bits that
the first byte holds. The narrow bounds leave out overlong sequences, surrogates and everything
above U+10FFFF. -/
structure Lead where
  following : Nat
  low : UInt8
  high : UInt8
  bits : Nat

/-- Reads the first byte of a sequence. -/
def lead? (b : UInt8) : Option Lead :=
  if b < 0x80 then some ⟨0, 0x80, 0xBF, b.toNat⟩
  else if b < 0xC2 then none
  else if b < 0xE0 then some ⟨1, 0x80, 0xBF, b.toNat - 0xC0⟩
  else if b < 0xF0 then
    some ⟨2, if b = 0xE0 then 0xA0 else 0x80, if b = 0xED then 0x9F else 0xBF, b.toNat - 0xE0⟩
  else if b < 0xF5 then
    some ⟨3, if b = 0xF0 then 0x90 else 0x80, if b = 0xF4 then 0x8F else 0xBF, b.toNat - 0xF0⟩
  else none

/-- Reads the bytes that follow a first byte: the character, if all of them fit, and what stands
behind those that fit. -/
def readFollowing (low high : UInt8) (bits : Nat) : Nat → List UInt8 → Option Char × List UInt8
  | 0, bs => (some (Char.ofNat bits), bs)
  | _ + 1, [] => (none, [])
  | n + 1, b :: bs =>
    if low ≤ b ∧ b ≤ high then readFollowing 0x80 0xBF (bits * 64 + (b.toNat - 0x80)) n bs
    else (none, b :: bs)

/-- Reads the unit that begins with the byte `b`: its character, if it is one, and the rest. -/
def readUnit (b : UInt8) (bs : List UInt8) : Option Char × List UInt8 :=
  match lead? b with
  | none => (none, bs)
  | some l => readFollowing l.low l.high l.bits l.following bs

theorem length_readFollowing_le (low high : UInt8) (bits n : Nat) (bs : List UInt8) :
    (readFollowing low high bits n bs).2.length ≤ bs.length := by
  fun_induction readFollowing low high bits n bs with
  | case1 => simp
  | case2 => simp
  | case3 low high bits n b bs h ih => simpa using Nat.le_succ_of_le ih
  | case4 => simp

theorem length_readUnit_le (b : UInt8) (bs : List UInt8) :
    (readUnit b bs).2.length ≤ bs.length := by
  unfold readUnit
  split
  · simp
  · exact length_readFollowing_le ..

/-- The units of some bytes. -/
def units : List UInt8 → List (Option Char)
  | [] => []
  | b :: bs =>
    have := length_readUnit_le b bs
    (readUnit b bs).1 :: units (readUnit b bs).2
termination_by bs => bs.length

/-- All values, if none is missing. -/
def allSome {α : Type} : List (Option α) → Option (List α)
  | [] => some []
  | none :: _ => none
  | some a :: l => (allSome l).map (a :: ·)

/-- The text that some bytes hold, if they hold one. -/
def decode? (bs : List UInt8) : Option String :=
  (allSome (units bs)).map String.ofList

/-- The text that some bytes hold, with U+FFFD for each part that is not a character. -/
def decodeLossy (bs : List UInt8) : String :=
  String.ofList ((units bs).map fun u => u.getD '\uFFFD')

/-- The bytes of a text. -/
def encode (s : String) : List UInt8 :=
  s.toList.flatMap String.utf8EncodeChar

end WidgetMigration.Utf8
