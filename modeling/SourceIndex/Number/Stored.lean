/-!
# Floating-point numbers as they are stored

A `Double` and a `Single` are the bits of a number. Unlike a number that is computed with, they tell two
values apart that only differ in the sign of something that is no number.
-/

namespace SourceIndex.Number

/-- The bits of a single. -/
structure Single where
  bits : UInt32
deriving DecidableEq, Repr, Inhabited

/-- The bits of a double. -/
structure Double where
  bits : UInt64
deriving DecidableEq, Repr, Inhabited

namespace Single

def ofFloat32 (x : Float32) : Single := ⟨x.toBits⟩

def toFloat32 (x : Single) : Float32 := Float32.ofBits x.bits

end Single

namespace Double

def ofFloat (x : Float) : Double := ⟨x.toBits⟩

def toFloat (x : Double) : Float := Float.ofBits x.bits

/-- What is no number, with a sign. -/
def nan (negative : Bool) : Double :=
  ⟨if negative then 0xFFF8000000000000 else 0x7FF8000000000000⟩

/-- The nearest single. What is no number keeps its sign. -/
def toSingle (x : Double) : Single :=
  if x.toFloat.isNaN then ⟨if x.bits >>> 63 == 1 then 0xFFC00000 else 0x7FC00000⟩
  else .ofFloat32 x.toFloat.toFloat32

end Double

end SourceIndex.Number
