import ClassWeave.Pool.Basic

/-!
# Reading bytes from the front

A cursor holds the bytes that are left and how many have been taken.

**Steps** (`Decode`). Each step takes bytes from the front; a step that finds too few bytes leaves
the cursor where it is and tells how many are missing. A failing run stops where it fails.
-/

namespace ClassWeave

/-- Why the content of an attribute cannot be taken apart. -/
inductive Malformation where
  /-- The content ends early, at an offset from its start. -/
  | truncated (offset : Nat)
  /-- Bytes are left after the content. -/
  | unread (count : Nat)
  | unknownElementTag (tag : UInt8)
  deriving DecidableEq

inductive ReadError where
  | unexpectedEnd (offset missing : Nat)
  | invalidMagic (magic : UInt32)
  | invalidTag (tag : UInt8) (index : UInt16)
  | invalidUtf8 (index : UInt16)
  | pool (cause : PoolError)
  | malformed (name : String) (cause : Malformation)
  | trailing (count : Nat)
  deriving DecidableEq

/-- The bytes that are left, and the count of those taken. -/
structure Cursor where
  offset : Nat
  rest : Bytes
  deriving DecidableEq

def Cursor.ofBytes (bs : Bytes) : Cursor := ⟨0, bs⟩

/-- Steps that take bytes from the front. -/
abbrev Decode := EStateM ReadError Cursor

namespace Decode

def bytes (n : Nat) : Decode Bytes := fun c =>
  match takeExactly n c.rest with
  | .ok (taken, rest) => .ok taken ⟨c.offset + n, rest⟩
  | .error missing => .error (.unexpectedEnd c.offset missing) c

def word8 : Decode UInt8 := do return UInt8.ofNat (ofBigEndian (← bytes 1))

def word16 : Decode UInt16 := do return UInt16.ofNat (ofBigEndian (← bytes 2))

def word32 : Decode UInt32 := do return UInt32.ofNat (ofBigEndian (← bytes 4))

def word64 : Decode UInt64 := do return UInt64.ofNat (ofBigEndian (← bytes 8))

def times (n : Nat) (step : Decode α) : Decode (List α) :=
  go n []
where
  /-- The answers so far are kept in reverse. -/
  go : Nat → List α → Decode (List α)
    | 0, found => return found.reverse
    | n + 1, found => do
      let a ← step
      go n (a :: found)

/-- Takes a count in two bytes, then that many things. -/
def counted (step : Decode α) : Decode (List α) := do
  times (← word16).toNat step

def ofPool (x : Except PoolError α) : Decode α :=
  match x with
  | .ok a => return a
  | .error e => throw (.pool e)

end Decode

end ClassWeave
