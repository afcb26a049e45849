/-!
# Vectors

Positions and directions in space, in single precision. Sums are taken from left
to right, so every operation has one rounding per arithmetic sign.
-/

namespace BehaviorTree

/-- The gap between `1` and the next single; lengths up to it count as zero. -/
def epsilon : Float32 := Float32.ofBits 0x34000000

/-- The larger operand, where one that is no number loses against any other. -/
def maxNumber (a b : Float32) : Float32 := if a > b then a else b

structure Vec3 where
  x : Float32
  y : Float32
  z : Float32
  deriving BEq

namespace Vec3

def zero : Vec3 := ⟨0, 0, 0⟩

instance : Inhabited Vec3 := ⟨zero⟩

instance : Add Vec3 := ⟨fun a b => ⟨a.x + b.x, a.y + b.y, a.z + b.z⟩⟩

instance : Sub Vec3 := ⟨fun a b => ⟨a.x - b.x, a.y - b.y, a.z - b.z⟩⟩

instance : HMul Vec3 Float32 Vec3 := ⟨fun a s => ⟨a.x * s, a.y * s, a.z * s⟩⟩

def dot (a b : Vec3) : Float32 := a.x * b.x + a.y * b.y + a.z * b.z

def length (a : Vec3) : Float32 := (a.dot a).sqrt

def distance (a b : Vec3) : Float32 := (b - a).length

/-- The vector of length one in the same direction, or zero for a vector too short to have one. -/
def normalizeOrZero (a : Vec3) : Vec3 :=
  if a.length ≤ epsilon then zero else a * (1 / a.length)

def moveTowards (a target : Vec3) (reach : Float32) : Vec3 :=
  let path := target - a
  let distance := path.length
  if distance ≤ maxNumber reach 0 ∨ distance ≤ epsilon then target
  else a + path * (reach / distance)

end Vec3

end BehaviorTree
