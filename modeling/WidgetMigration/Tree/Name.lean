import WidgetMigration.Path.Basic

/-!
# File names

The names that a directory can have entries for: not empty, at most 255 bytes, without a slash or a
NUL byte, and neither of the two dot names, which every directory has anyway.
-/

namespace WidgetMigration

/-- Whether some bytes can be the name of a directory entry. -/
def isFileName (b : Bytes) : Bool :=
  !b.isEmpty && decide (b.length ≤ 255) && !b.contains slash && !b.contains 0 &&
    b != dot && b != dotDot

/-- The name of a directory entry. -/
structure FileName where
  bytes : Bytes
  valid : isFileName bytes = true
  deriving DecidableEq

namespace FileName

/-- The file name with the given bytes, if there is one. -/
def ofBytes? (b : Bytes) : Option FileName :=
  if h : isFileName b = true then some ⟨b, h⟩ else none

/-- Whether `a` does not come after `b` in the order of bytes. -/
def le (a b : FileName) : Bool := decide (a.bytes ≤ b.bytes)

theorem bytes_ne_nil (n : FileName) : n.bytes ≠ [] := by
  intro h
  have := n.valid
  simp [isFileName, h] at this

theorem bytes_ne_dot (n : FileName) : n.bytes ≠ dot := by
  intro h
  have := n.valid
  simp [isFileName, h] at this

theorem slash_not_mem (n : FileName) : slash ∉ n.bytes := by
  intro h
  have := n.valid
  simp [isFileName, h] at this

end FileName

end WidgetMigration
