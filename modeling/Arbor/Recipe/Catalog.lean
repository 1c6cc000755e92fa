import Arbor.Recipe.Preset

/-!
# Catalogs

A catalog is a list of presets that can be used, whose keys differ even when the case of ASCII
letters is ignored.  Looking up a key ignores that case and the white space around it.
-/

namespace Arbor

/-- A key in upper case, as far as its letters are ASCII. -/
def foldKey (key : List Char) : List Char := key.map Char.toUpper

/-- Whether two keys are the same when the case of ASCII letters is ignored. -/
def sameKey (a b : List Char) : Bool := a.map Char.toLower == b.map Char.toLower

/-- An ordered collection of presets. -/
structure Catalog where
  presets : List Preset
  deriving DecidableEq

namespace Catalog

/-- Checks presets in order against the folded keys before them. -/
def checkFrom (seen : List (List Char)) : List Preset → Except Failure Unit
  | [] => .ok ()
  | p :: rest =>
    match p.check with
    | .error e => .error e
    | .ok () =>
      let key := foldKey p.key.toList
      if key ∈ seen then .error (.invalidField .key (.repeatedKey p.key))
      else checkFrom (key :: seen) rest

/-- The catalog of presets that can be used and have keys of their own. -/
def ofList (presets : List Preset) : Except Failure Catalog := do
  checkFrom [] presets
  return ⟨presets⟩

/-- The preset of a key. -/
def find (c : Catalog) (key : String) : Except Failure Preset :=
  let wanted := Text.trim key.toList
  match c.presets.find? fun p => sameKey p.key.toList wanted with
  | some p => .ok p
  | none => .error (.unknownPreset (String.ofList wanted))

/-- The keys in order. -/
def keys (c : Catalog) : List String := c.presets.map Preset.key

/-- The shapes that the library ships. -/
def shipped : Catalog where
  presets :=
    [.shaped "CLASSIC" "Classic" "X" "X:F[+X]F[-X]FX\nF:FF" 6 20 0.88 0.9,
      .shaped "PINE" "Pine" "X" "X:F[+X][-X]FX\nF:FF" 7 18 0.93 0.92,
      .shaped "BROADLEAF" "Broadleaf" "F" "F:F[+F]F[-F][F]" 5 22 0.82 0.88,
      .shaped "OAK" "Oak" "X" "X:F-[[X]+X]+F[+FX]-X\nF:FF" 6 25 0.88 0.88,
      .shaped "FANTASY" "Fantasy Dense" "X" "X:F[+X][-X]F[+X]F[-X]X\nF:FF" 7 18 0.94 0.92,
      .shaped "BUSH" "Explosive Bush" "X" "X:FX[+X][-X]FX\nF:F[F]F" 5 16 0.9 0.9]

end Catalog

/-- The recipe of a shipped preset. -/
def Recipe.forKey (key : String) : Except Failure Recipe :=
  (Catalog.shipped.find key).map Recipe.ofPreset

end Arbor
