/-!
# Binary floating-point values

A bit pattern of a binary interchange format stands for a signed multiple of a
power of two, for an infinity or for no number. Rounding goes from an exact
quotient of naturals to the nearest pattern, ties to the even significand, so
every conversion below is integer arithmetic.
-/

namespace BehaviorTree.Number

def twoTo (n : Nat) : Nat := Nat.pow 2 n

def tenTo (n : Nat) : Nat := Nat.pow 10 n

structure Format where
  /-- Bits of the significand, the leading one included. -/
  precision : Nat
  exponentBits : Nat

namespace Format

def single : Format := ⟨24, 8⟩

def double : Format := ⟨53, 11⟩

def bias (F : Format) : Nat := twoTo (F.exponentBits - 1) - 1

def minExponent (F : Format) : Int := 2 - (F.bias + F.precision : Nat)

/-- The pattern of positive infinity, one above the largest finite magnitude. -/
def infinityBits (F : Format) : Nat := (twoTo F.exponentBits - 1) * twoTo (F.precision - 1)

def signBit (F : Format) : Nat := twoTo (F.precision - 1 + F.exponentBits)

end Format

inductive Binary where
  | nan
  | infinite (negative : Bool)
  /-- The value `significand * 2 ^ exponent`, negated if `negative`. -/
  | finite (negative : Bool) (significand : Nat) (exponent : Int)
  deriving DecidableEq, Repr

def Format.decode (F : Format) (bits : Nat) : Binary :=
  let magnitude := bits % F.signBit
  let negative := magnitude ≠ bits
  let unit := twoTo (F.precision - 1)
  let field := magnitude / unit
  let fraction := magnitude % unit
  if magnitude = F.infinityBits then .infinite negative
  else if F.infinityBits < magnitude then .nan
  else if field = 0 then .finite negative fraction F.minExponent
  else .finite negative (unit + fraction) (F.minExponent + (field - 1 : Nat))

/-- The quotient rounded to the nearest natural, ties to even. -/
def roundDiv (num den : Nat) : Nat :=
  let q := num / den
  let r := num % den
  if 2 * r > den ∨ 2 * r = den ∧ q % 2 = 1 then q + 1 else q

theorem roundDiv_one (n : Nat) : roundDiv n 1 = n := by
  simp [roundDiv, Nat.mod_one]

def scaleDown (num den : Nat) (q : Int) : Nat × Nat :=
  if 0 ≤ q then (num, den * twoTo q.toNat) else (num * twoTo (-q).toNat, den)

/--
Magnitude bits nearest to `num / den`. With a unit of `2 ^ q` the significand has
`precision` bits unless the value is subnormal; adding it to the exponent part
carries over to the next binade, and past the last one into infinity.
-/
def Format.nearest (F : Format) (num den : Nat) : Nat :=
  if num = 0 then 0 else
    let guess : Int := (Nat.log2 num : Int) - Nat.log2 den - F.precision
    let (n, d) := scaleDown num den guess
    let q := max (if n < d * twoTo F.precision then guess else guess + 1) F.minExponent
    let (n, d) := scaleDown num den q
    min F.infinityBits ((q - F.minExponent).toNat * twoTo (F.precision - 1) + roundDiv n d)

def Format.withSign (F : Format) (negative : Bool) (magnitude : Nat) : Nat :=
  if negative then F.signBit + magnitude else magnitude

/--
The pattern nearest to `significand * 10 ^ exponent`. Exponents far out of range are not
computed with: their powers of ten would not fit in memory.
-/
def Format.ofDecimal (F : Format) (negative : Bool) (significand : Nat) (exponent : Int) : Nat :=
  let leading := (toString significand).length + exponent
  let range : Int := (twoTo F.exponentBits + F.precision : Nat)
  F.withSign negative <|
    if significand = 0 ∨ leading < -range then 0
    else if range < leading then F.infinityBits
    else if 0 ≤ exponent then F.nearest (significand * tenTo exponent.toNat) 1
    else F.nearest significand (tenTo (-exponent).toNat)

def Binary.ofSingle (x : Float32) : Binary := Format.single.decode x.toBits.toNat

def Binary.ofDouble (x : Float) : Binary := Format.double.decode x.toBits.toNat

def singleOfBits (bits : Nat) : Float32 := Float32.ofBits (UInt32.ofNat bits)

def doubleOfBits (bits : Nat) : Float := Float.ofBits (UInt64.ofNat bits)

def singleNaN : Float32 := singleOfBits (Format.single.infinityBits + 1)

def doubleNaN : Float := doubleOfBits (Format.double.infinityBits + 1)

def Binary.toSingle : Binary → Float32
  | .nan => singleNaN
  | .infinite negative => singleOfBits (Format.single.withSign negative Format.single.infinityBits)
  | .finite negative m e =>
    let magnitude :=
      if 0 ≤ e then Format.single.nearest (m * twoTo e.toNat) 1
      else Format.single.nearest m (twoTo (-e).toNat)
    singleOfBits (Format.single.withSign negative magnitude)

def narrow (x : Float) : Float32 := (Binary.ofDouble x).toSingle

end BehaviorTree.Number
