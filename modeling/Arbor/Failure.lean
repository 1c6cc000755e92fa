import Arbor.Decimal.Text
import Arbor.Lindenmayer.Symbol

/-!
# Failures

Why a tree cannot be grown.  A failure names its cause; `Failure.message` alone holds the wording.
Only what reads documents for a session from outside may put a fault into words of its own.
-/

namespace Arbor

/-- What a recipe or a preset can be faulted for. -/
inductive Field where
  | key
  | axiomText
  | iterations
  | angle
  | initialLength
  | lengthDecay
  | initialRadius
  | radiusDecay
  | bevelDepth
  | branchSpread
  | rotationJitter
  | lengthJitter
  | tropismStrength
  | tropismDirection
  | leafSize
  | leafJitter
  | maxSymbols
  deriving DecidableEq

/-- The name of a field in texts. -/
def Field.name : Field → String
  | key => "key"
  | axiomText => "axiom"
  | iterations => "iterations"
  | angle => "angle"
  | initialLength => "initial_length"
  | lengthDecay => "length_decay"
  | initialRadius => "initial_radius"
  | radiusDecay => "radius_decay"
  | bevelDepth => "bevel_depth"
  | branchSpread => "branch_spread"
  | rotationJitter => "rotation_jitter"
  | lengthJitter => "length_jitter"
  | tropismStrength => "tropism_strength"
  | tropismDirection => "tropism_direction"
  | leafSize => "leaf_size"
  | leafJitter => "leaf_jitter"
  | maxSymbols => "max_symbols"

/-- What is wrong with the value of a field. -/
inductive FieldFault where
  | notFinite (value : Float32)
  | notPositive (value : Float32)
  | negative (value : Float32)
  | above (value bound : Float32)
  | notDecay (value : Float32)
  | stopsSteps (value : Float32)
  | noDirection
  | noSymbol
  | noCeiling (value ceiling : Nat)
  | negativeCount (value : Int)
  | emptyKey
  | repeatedKey (key : String)
  /-- A fault in the words of a reader from outside.  The library itself gives none. -/
  | stated (reason : String)
  deriving DecidableEq

/-- The wording of a fault. -/
def FieldFault.message : FieldFault → String
  | notFinite v => Decimal.message v ++ " is not finite"
  | notPositive v => Decimal.message v ++ " must be greater than zero"
  | negative v => Decimal.message v ++ " must not be negative"
  | above v bound => Decimal.message v ++ " exceeds maximum of " ++ Decimal.message bound
  | notDecay v => Decimal.message v ++ " is outside (0, 1]"
  | stopsSteps v => Decimal.message v ++ " would allow zero or negative steps"
  | noDirection => "must be a finite, non-zero vector"
  | noSymbol => "axiom must contain at least one symbol"
  | noCeiling v ceiling => toString v ++ " is outside 1..=" ++ toString ceiling
  | negativeCount v => toString v ++ " must not be negative"
  | emptyKey => "preset key is empty"
  | repeatedKey key => "duplicate preset key '" ++ key ++ "'"
  | stated reason => reason

/-- What is wrong with a line of rules. -/
inductive RuleFault where
  | noColon (line : List Char)
  | badKey (key : List Char)
  | repeated (symbol : Symbol)
  /-- A fault in the words of a reader from outside.  The library itself gives none. -/
  | stated (reason : String)
  deriving DecidableEq

/-- The wording of a fault. -/
def RuleFault.message : RuleFault → String
  | noColon line => "expected 'symbol:replacement', got '" ++ String.ofList line ++ "'"
  | badKey key => "rule key '" ++ String.ofList key ++ "' must be a single symbol"
  | repeated symbol => "duplicate rule for '" ++ symbol.toChar.toString ++ "'"
  | stated reason => reason

/-- Why an operation gives no result. -/
inductive Failure where
  /-- A pass of the grammar would give more symbols than the limit. -/
  | overflow (limit required iteration : Nat)
  /-- More passes are asked for than are allowed. -/
  | tooManyPasses (requested most : Nat)
  /-- Branches are closed that were not opened, or left open. -/
  | unbalanced (unmatchedPops unclosedPushes : Nat)
  | unknownPreset (key : String)
  | invalidField (field : Field) (fault : FieldFault)
  | invalidRule (line : Nat) (fault : RuleFault)
  /-- A document that does not read as what it should describe. -/
  | unreadable
  deriving DecidableEq

namespace Failure

/-- The wording of a failure. -/
def message : Failure → String
  | overflow limit required iteration =>
    "grammar overflow at iteration " ++ toString iteration ++ ": " ++ toString required ++
      " symbols exceeds limit of " ++ toString limit
  | tooManyPasses requested most =>
    "grammar overflow: " ++ toString requested ++ " iterations exceeds limit of " ++ toString most
  | unbalanced unmatchedPops unclosedPushes =>
    "imbalanced branch stack: " ++ toString unmatchedPops ++ " unmatched pop(s), " ++
      toString unclosedPushes ++ " unclosed push(es)"
  | unknownPreset key => "unknown preset '" ++ key ++ "'"
  | invalidField field fault => "invalid parameter '" ++ field.name ++ "': " ++ fault.message
  | invalidRule line fault => "invalid rule on line " ++ toString line ++ ": " ++ fault.message
  | unreadable => "YAML parse error"

/-- Only an unbalanced word leaves a tree behind that can be used. -/
def isRecoverable : Failure → Bool
  | unbalanced _ _ => true
  | _ => false

end Failure

end Arbor
