/-!
# Doubles as 64-bit words

A floating point number is its IEEE 754 word, so that two of them can be compared in the logic.

* `Double.same`       equality of the numbers: no NaN is equal to anything, both zeros are equal;
* `Double.parts`      a finite positive magnitude as `m * 2 ^ q`;
* `Double.ofDecimal`  the double nearest to `m * 10 ^ e`.
-/

namespace SignalFlow

/-- a 64-bit floating point number -/
structure Double where
  /-- sign bit, eleven exponent bits, 52 fraction bits -/
  bits : UInt64
  deriving DecidableEq, Inhabited, Repr

namespace Double

def ofFloat (x : Float) : Double := ⟨x.toBits⟩

def toFloat (x : Double) : Float := Float.ofBits x.bits

/-! ## fields of the word -/

def isNegative (x : Double) : Bool := x.bits.toNat >>> 63 = 1

/-- the eleven exponent bits -/
def exponentBits (x : Double) : Nat := (x.bits.toNat >>> 52) % 2048

/-- the bit in front of the fraction, which the word leaves out: `2 ^ 52` -/
def implicitBit : Nat := 0x10000000000000

def fractionBits (x : Double) : Nat := x.bits.toNat % implicitBit

def isNaN (x : Double) : Bool := x.exponentBits = 2047 && x.fractionBits != 0

def isInfinite (x : Double) : Bool := x.exponentBits = 2047 && x.fractionBits = 0

def isFinite (x : Double) : Bool := x.exponentBits != 2047

def isZero (x : Double) : Bool := x.exponentBits = 0 && x.fractionBits = 0

/-- the magnitude of a finite number is `m * 2 ^ q` for `parts = (m, q)` -/
def parts (x : Double) : Nat × Int :=
  if x.exponentBits = 0 then (x.fractionBits, -1074)
  else (implicitBit + x.fractionBits, (x.exponentBits : Int) - 1075)

def same (x y : Double) : Bool :=
  !x.isNaN && !y.isNaN && (x.bits == y.bits || (x.isZero && y.isZero))

def negate (x : Double) : Double := ⟨x.bits ^^^ ((1 : UInt64) <<< 63)⟩

/-- the double nearest to `m * 10 ^ e`, a tie going to the even fraction -/
def ofDecimal (m : Nat) (e : Int) : Double :=
  match e with
  | .ofNat n => ofFloat (Float.ofScientific m false n)
  | .negSucc n => ofFloat (Float.ofScientific m true (n + 1))

end Double

end SignalFlow
