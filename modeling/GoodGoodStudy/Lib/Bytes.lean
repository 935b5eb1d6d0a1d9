/-
Byte strings as lists of bytes, with the literals of a program's source text.
-/
import Mathlib.Data.List.Basic

namespace GoodGoodStudy.Lib

abbrev Bytes := List UInt8

/-- The bytes of an ASCII literal. -/
def ascii (s : String) : Bytes := s.toList.map fun c => c.toNat.toUInt8

/-- Carriage return and line feed. -/
def cr : UInt8 := 13
def lf : UInt8 := 10

/-- The double quote. -/
def quote : UInt8 := 34

def crlf : Bytes := [cr, lf]

end GoodGoodStudy.Lib
