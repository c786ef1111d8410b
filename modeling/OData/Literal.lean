import OData.Protocol
import OData.Calendar
import OData.Guid
import OData.Ieee.Shortest
import OData.Text.Base64

/-!
# Literals

The primitive values that keys and function parameters hold, and how each version of the protocol
spells them in a URI. The older version marks types by suffixes and by words before a quoted text
(`9000L`, `1.50M`, `guid'…'`); the newer one mostly writes the bare value. The text made here is
not escaped yet.
-/

set_option autoImplicit false

namespace OData

open OData.Text OData.Ieee

inductive Literal where
  | null
  | boolean (b : Bool)
  | int32 (n : Int32)
  | int64 (n : Int64)
  | single (bits : UInt32)
  | double (d : Double)
  /-- The digits of a decimal number, kept as text so that none are lost. -/
  | decimal (digits : String)
  | text (s : String)
  | guid (g : Guid)
  | binary (bytes : List UInt8)
  | date (d : Date)
  | timeOfDay (t : TimeOfDay)
  /-- A local date and time; the newer version takes it for UTC. -/
  | dateTime (d : DateTime)
  | dateTimeOffset (d : OffsetDateTime)
  | duration (d : Duration)
  /-- An expression that is written as it stands. -/
  | raw (expression : String)
  deriving DecidableEq, Repr

namespace Literal

def typeName : Literal → String
  | null => "Null"
  | boolean _ => "Boolean"
  | int32 _ => "Int32"
  | int64 _ => "Int64"
  | single _ => "Float"
  | double _ => "Double"
  | decimal _ => "Decimal"
  | text _ => "String"
  | guid _ => "Guid"
  | binary _ => "Binary"
  | date _ => "Date"
  | timeOfDay _ => "TimeOfDay"
  | dateTime _ => "DateTime"
  | dateTimeOffset _ => "DateTimeOffset"
  | duration _ => "Duration"
  | raw _ => "Raw"

def quoted (s : List Char) : List Char :=
  '\'' :: s.flatMap (fun c => if c = '\'' then ['\'', '\''] else [c]) ++ ['\'']

def quote (s : String) : String := String.ofList (quoted s.toList)

def marked (word : String) (body : List Char) : List Char :=
  word.toList ++ '\'' :: body ++ ['\'']

/-- Numbers from `0.0001` up to `10 ^ 16` are written without an exponent, with the fewest digits
that read back and at least one after the point. -/
def floatLayout : Layout := ⟨-3, 16, false, .awayFromZero⟩

/-- A floating-point number; the older version marks it with a suffix. -/
def floatText (p : Protocol) (mark : Char) : Value → List Char
  | .nan => ['N', 'a', 'N']
  | .infinite true => ['-', 'I', 'N', 'F']
  | .infinite false => ['I', 'N', 'F']
  | .finite negative mantissa exponent wideBelow =>
    floatLayout.render negative mantissa exponent wideBelow ++
      match p with
      | .v2 => [mark]
      | .v4 => []

def chars (p : Protocol) : Literal → List Char
  | null => ['n', 'u', 'l', 'l']
  | boolean true => ['t', 'r', 'u', 'e']
  | boolean false => ['f', 'a', 'l', 's', 'e']
  | int32 n => signedDigits n.toInt
  | int64 n =>
    match p with
    | .v2 => signedDigits n.toInt ++ ['L']
    | .v4 => signedDigits n.toInt
  | single bits => floatText p 'f' (Ieee.single.decode bits.toNat)
  | double d => floatText p 'd' d.value
  | decimal digits =>
    match p with
    | .v2 => digits.toList ++ ['M']
    | .v4 => digits.toList
  | text s => quoted s.toList
  | guid g =>
    match p with
    | .v2 => marked "guid" g.render.toList
    | .v4 => g.render.toList
  | binary bytes => marked "binary" (Base64.encode bytes)
  | date d =>
    match p with
    | .v2 => marked "datetime" (d.text ++ "T00:00:00".toList)
    | .v4 => d.text
  | timeOfDay t =>
    match p with
    | .v2 => marked "time" t.sinceMidnight.iso.toList
    | .v4 => t.text
  | dateTime d =>
    match p with
    | .v2 => marked "datetime" d.text
    | .v4 => d.text ++ ['Z']
  | dateTimeOffset d =>
    match p with
    | .v2 => marked "datetimeoffset" d.text
    | .v4 => d.text
  | duration d => marked "duration" d.iso.toList
  | raw expression => expression.toList

def render (p : Protocol) (l : Literal) : String := String.ofList (l.chars p)

end Literal

end OData
