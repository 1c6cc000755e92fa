import Arbor.Decimal.Reading
import Arbor.Document.Node

/-!
# Values in a document

What a node reads as: a text, a truth value, a number, a list or a group of named fields.  Only
plain scalars are truth values and numbers, and literal blocks whose tag says so; every scalar is a
text.  Fields may come in any order and unknown ones are passed over, but a field that is read may
not be given twice.
-/

namespace Arbor.Document

/-! ## Plain texts -/

/-- The truth value that a plain text spells. -/
def truth? (text : List Char) : Option Bool :=
  if text ∈ ["true".toList, "True".toList, "TRUE".toList] then some true
  else if text ∈ ["false".toList, "False".toList, "FALSE".toList] then some false
  else none

/-- Whether a plain text spells the absence of a value. -/
def isNull (text : List Char) : Bool :=
  text ∈ [[], "null".toList, "Null".toList, "NULL".toList, "~".toList]

/-- The value of a digit in bases up to sixteen. -/
def digit? (base : Nat) (c : Char) : Option Nat :=
  (Scalar.hexValue? [c]).filter (· < base)

/-- The number that digits write in a base, if it is below a bound. -/
def inBase? (base bound : Nat) (ds : List Char) : Option Nat :=
  if ds.isEmpty then none
  else
    (ds.foldl (fun n d => do return base * (← n) + (← digit? base d)) (some 0)).filter (· < bound)

/-- The base that a text names in front of its digits, and the digits. -/
def baseOf? : List Char → Option (Nat × List Char)
  | '0' :: 'x' :: ds => some (16, ds)
  | '0' :: 'o' :: ds => some (8, ds)
  | '0' :: 'b' :: ds => some (2, ds)
  | _ => none

/-- Whether a text is decimal digits led by a needless zero; such a text is no number. -/
def isZeroLed (text : List Char) : Bool :=
  let ds := match text with
    | '-' :: ds => ds
    | '+' :: ds => ds
    | ds => ds
  match ds with
  | '0' :: d :: ds => (d :: ds).all Char.isDigit
  | _ => false

/-- A natural number below a bound, perhaps with a plus sign, in base ten or a named base. -/
def unsigned? (bound : Nat) (text : List Char) : Option Nat :=
  let ds := match text with
    | '+' :: ds => ds
    | ds => ds
  match baseOf? ds with
  | some (base, ds) => inBase? base bound ds
  | none => if isZeroLed text then none else inBase? 10 bound ds

/-- The double that a plain text spells.  A decimal past the range of doubles is none. -/
def float? (text : List Char) : Option Float :=
  let positive := match text with
    | '+' :: rest => rest
    | rest => rest
  if positive ∈ [".inf".toList, ".Inf".toList, ".INF".toList] then
    some (Float.ofBits 0x7FF0000000000000)
  else if text ∈ ["-.inf".toList, "-.Inf".toList, "-.INF".toList] then
    some (Float.ofBits 0xFFF0000000000000)
  else if text ∈ [".nan".toList, ".NaN".toList, ".NAN".toList] then
    some (Float.ofBits 0x7FF8000000000000)
  else if positive.length < text.length ∧ positive.head? = some '-' then none
  else (Decimal.readDouble positive).filter Float.isFinite

/-! ## Nodes -/

/-- A read that may fail.  Its state is how often aliases may still be followed. -/
abbrev Allowed := StateT Nat Option

namespace Contents

/-- The node that an alias stands for: the one whose anchor took the slot last. -/
def resolve (c : Contents) (n : Node) : Allowed Node := do
  match n with
  | .alias slot =>
    match ← get with
    | 0 => failure
    | left + 1 =>
      set left
      return (c.anchored.findRev? (·.1 == slot)).elim .absent (·.2)
  | n => return n

/-- Any scalar as a text. -/
def text (c : Contents) (n : Node) : Allowed (List Char) := do
  match ← c.resolve n with
  | .scalar _ _ text => return text
  | _ => failure

/-- The tag of a type of scalars. -/
def typeTag (type : String) : Octets := .ofAscii ("tag:yaml.org,2002:" ++ type).toList

/-- The text of a scalar that may be of the type with the given name. -/
def typed (c : Contents) (type : String) (n : Node) : Allowed (List Char) := do
  match ← c.resolve n with
  | .scalar .plain _ text => return text
  | .scalar .literal tag text => if tag = some (typeTag type) then return text else failure
  | _ => failure

def string (c : Contents) (n : Node) : Allowed String := String.ofList <$> c.text n

def bool (c : Contents) (n : Node) : Allowed Bool := do truth? (← c.typed "bool" n)

def nat (c : Contents) (bound : Nat) (n : Node) : Allowed Nat := do
  unsigned? bound (← c.typed "int" n)

/-- A single-precision number: the nearest one to the double that is read. -/
def single (c : Contents) (n : Node) : Allowed Float32 := do
  return Number.narrow (← float? (← c.typed "float" n))

/-- The items of a sequence; an absent value has none. -/
def items (c : Contents) (n : Node) : Allowed (List Node) := do
  match ← c.resolve n with
  | .sequence items => return items
  | .scalar .plain _ [] => return []
  | _ => failure

/-- The fields of a mapping, whose keys are all scalars; an absent value has none. -/
def fields (c : Contents) (n : Node) : Allowed (List (List Char × Node)) := do
  match ← c.resolve n with
  | .mapping entries => entries.mapM fun (k, v) => do return (← c.text k, v)
  | .scalar .plain _ [] => return []
  | _ => failure

/-- The fields of the whole document; a text without a document has none. -/
def rootFields (c : Contents) : Allowed (List (List Char × Node)) :=
  match c.root with
  | some n => c.fields n
  | none => return []

/-- What a read makes of a whole document. -/
def read {α : Type} (c : Contents) (read : Contents → Allowed α) : Option α :=
  (read c).run' c.allowance

end Contents

/-! ## Fields -/

/-- The value of a field that has to be there. -/
def required {α : Type} (fields : List (List Char × Node)) (key : String)
    (read : Node → Allowed α) : Allowed α :=
  match fields.filter (·.1 == key.toList) with
  | [(_, n)] => read n
  | _ => failure

/-- The value of a field, with one that stands in for it. -/
def optional {α : Type} (fields : List (List Char × Node)) (key : String) (usual : α)
    (read : Node → Allowed α) : Allowed α :=
  match fields.filter (·.1 == key.toList) with
  | [] => return usual
  | [(_, n)] => read n
  | _ => failure

end Arbor.Document
