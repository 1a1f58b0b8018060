import ClassWeave.Bytes
import ClassWeave.Text.ModifiedUtf8

/-!
# Constants

The entries of a constant pool. An entry refers to others by their index.

**Texts.** A text entry whose units hold a lone surrogate is no text of characters; it is kept as
its bytes (`rawUtf8`).

**Numbers.** Floating-point entries are kept as their bits. They are *compared* as numbers
(`Constant.same`): a NaN differs from every number, itself included, and the two zeros are equal.
-/

namespace ClassWeave

inductive Constant where
  | utf8 (text : String)
  /-- A text entry that holds a lone surrogate, as its written bytes. -/
  | rawUtf8 (bytes : Bytes)
  | integer (value : UInt32)
  | float (bits : UInt32)
  | long (value : UInt64)
  | double (bits : UInt64)
  | classRef (name : UInt16)
  | string (text : UInt16)
  | fieldRef (owner nameAndType : UInt16)
  | methodRef (owner nameAndType : UInt16)
  | interfaceMethodRef (owner nameAndType : UInt16)
  | nameAndType (name descriptor : UInt16)
  | methodHandle (kind : UInt8) (reference : UInt16)
  | methodType (descriptor : UInt16)
  | dynamic (bootstrap nameAndType : UInt16)
  | invokeDynamic (bootstrap nameAndType : UInt16)
  | module (name : UInt16)
  | package (name : UInt16)
  /-- The second slot of a preceding `long` or `double`. -/
  | unusable
  deriving DecidableEq, Inhabited

def sameFloat (a b : UInt32) : Bool :=
  let isNaN (x : UInt32) : Bool := x.toNat % 0x80000000 > 0x7F800000
  !isNaN a && !isNaN b && (a == b || a.toNat % 0x80000000 == 0 && b.toNat % 0x80000000 == 0)

def sameDouble (a b : UInt64) : Bool :=
  let isNaN (x : UInt64) : Bool := x.toNat % 0x8000000000000000 > 0x7FF0000000000000
  !isNaN a && !isNaN b &&
    (a == b || a.toNat % 0x8000000000000000 == 0 && b.toNat % 0x8000000000000000 == 0)

namespace Constant

/-- Equality of entries, floating-point entries being compared as numbers. -/
def same : Constant → Constant → Bool
  | utf8 a, utf8 b => a == b
  | rawUtf8 a, rawUtf8 b => a == b
  | integer a, integer b => a == b
  | float a, float b => sameFloat a b
  | long a, long b => a == b
  | double a, double b => sameDouble a b
  | classRef a, classRef b => a == b
  | string a, string b => a == b
  | fieldRef a c, fieldRef b d => a == b && c == d
  | methodRef a c, methodRef b d => a == b && c == d
  | interfaceMethodRef a c, interfaceMethodRef b d => a == b && c == d
  | nameAndType a c, nameAndType b d => a == b && c == d
  | methodHandle a c, methodHandle b d => a == b && c == d
  | methodType a, methodType b => a == b
  | dynamic a c, dynamic b d => a == b && c == d
  | invokeDynamic a c, invokeDynamic b d => a == b && c == d
  | module a, module b => a == b
  | package a, package b => a == b
  | unusable, unusable => true
  | _, _ => false

/-- The entry takes two slots of the pool. -/
def isWide : Constant → Bool
  | long _ | double _ => true
  | _ => false

def width (c : Constant) : Nat := if c.isWide then 2 else 1

/-- The text entry with the given bytes; none when they are not modified UTF-8. -/
def ofUtf8Bytes? (bs : Bytes) : Option Constant :=
  match ModifiedUtf8.decodeUnits? bs with
  | none => none
  | some units =>
    match Utf16.toString? units with
    | some text => some (utf8 text)
    | none => some (rawUtf8 bs)

end Constant

end ClassWeave
