import ChatRoom.Text.Numeral

/-!
# Versions

A client is admitted only if its version equals the server's in all three parts.
-/

namespace ChatRoom

structure Version where
  major : UInt16
  minor : UInt16
  patch : UInt16
  deriving DecidableEq, Repr

namespace Version

/-- The version this library speaks. -/
def current : Version := ⟨1, 0, 0⟩

instance : Inhabited Version := ⟨current⟩

/-- The three parts with dots between them. -/
def text (v : Version) : String :=
  Text.decimal v.major.toNat ++ "." ++ Text.decimal v.minor.toNat ++ "."
    ++ Text.decimal v.patch.toNat

end Version

end ChatRoom
