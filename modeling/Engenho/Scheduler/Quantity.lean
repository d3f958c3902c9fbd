import Engenho.Api.LabelSelector
import Engenho.Lib.Machine

/-!
# Quantities

The notation of resource amounts (`100m`, `2.5`, `1Gi`), read into milli-units: a signed word of 128
bits. Multiplication saturates; the last addition of the fraction does not, it wraps.
-/

namespace Engenho

/-- The unit of a quantity. -/
inductive Suffix where
  | none
  | milli
  | decimalSi (exp : Nat)
  | binarySi (exp : Nat)
deriving DecidableEq, Repr

/-- Why a text is no quantity. -/
inductive QuantityParseError where
  | empty
  | noNumeric
  | nonNumeric (s : String)
  | unknownSuffix (s : String)
deriving DecidableEq, Repr

namespace Suffix

def fromStr : String → Except QuantityParseError Suffix
  | "" => .ok .none
  | "m" => .ok .milli
  | "k" => .ok (.decimalSi 1)
  | "M" => .ok (.decimalSi 2)
  | "G" => .ok (.decimalSi 3)
  | "T" => .ok (.decimalSi 4)
  | "P" => .ok (.decimalSi 5)
  | "E" => .ok (.decimalSi 6)
  | "Ki" => .ok (.binarySi 1)
  | "Mi" => .ok (.binarySi 2)
  | "Gi" => .ok (.binarySi 3)
  | "Ti" => .ok (.binarySi 4)
  | "Pi" => .ok (.binarySi 5)
  | "Ei" => .ok (.binarySi 6)
  | other => .error (.unknownSuffix other)

def applyToMilli (milli : Int) : Suffix → Int
  | .none => milli
  | .milli => milli.tdiv 1000
  | .decimalSi exp => Machine.saturate 128 (milli * 10 ^ (exp * 3))
  | .binarySi exp => Machine.saturate 128 (milli * 2 ^ (exp * 10))

end Suffix

/-- A decimal in milli-units: three digits of the fraction count, and the fraction takes the sign of
the whole text. -/
def parseDecimalToMilli (s : List Char) : Except QuantityParseError Int :=
  let (intPart, fracPart) := (Cut.splitOnce ['.'] s).getD (s, [])
  match Machine.readSigned 128 intPart with
  | none => .error (.nonNumeric (String.ofList s))
  | some intVal =>
    let whole := Machine.saturate 128 (intVal * 1000)
    if fracPart.isEmpty then .ok whole
    else
      let trimmed := fracPart.take 3
      match Machine.readSigned 128 trimmed with
      | none => .error (.nonNumeric (String.ofList s))
      | some fracVal =>
        let fracVal := fracVal * 10 ^ (3 - trimmed.length)
        let sign : Int := if intVal < 0 || s.head? = some '-' then -1 else 1
        -- an unchecked addition
        .ok ((whole + fracVal * sign).bmod (2 ^ 128))

/-- A quantity that was read. The kept suffix of the source is for printing it again. -/
structure Quantity where
  milli : Int
  suffix : Suffix
deriving DecidableEq, Repr

namespace Quantity

def isNumeric (c : Char) : Bool := c.isDigit || c = '.' || c = '-' || c = '+'

/-- Reads a quantity. -/
def fromStr (s : String) : Except QuantityParseError Quantity :=
  if s.isEmpty then .error .empty
  else
    let s := trim s.toList
    let numPart := s.takeWhile isNumeric
    let suffixPart := s.dropWhile isNumeric
    if numPart.isEmpty then .error .noNumeric
    else do
      let suffix ← Suffix.fromStr (String.ofList suffixPart)
      let milli ← parseDecimalToMilli numPart
      .ok ⟨suffix.applyToMilli milli, suffix⟩

/-- The value of a text that is a quantity. -/
def milliOf (s : String) : Option Int := (fromStr s).toOption.map milli
end Quantity

example : ["100m", "2.5", "1Ki", "-0.5", "1.", ".5", "1e3"].map Quantity.milliOf =
    [some 100, some 2500, some 1024000, some (-500), some 1000, none, none] := by decide +kernel

end Engenho
