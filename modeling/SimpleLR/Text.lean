/-!
# Pieces of printed text

Printed tables refer to states and items by a letter and a number of at least three digits, and
consist of lines that each end with a line break.
-/

namespace SimpleLR.Text

/-- A number with zeros in front of it to make up at least three digits. -/
def threeDigits (n : Nat) : String :=
  let digits := toString n
  String.ofList (List.replicate (3 - digits.length) '0') ++ digits

/-- The label of a state, such as `S#007`. -/
def stateLabel (s : Nat) : String := "S#" ++ threeDigits s

/-- The label of an item, such as `I#007`. -/
def itemLabel (i : Nat) : String := "I#" ++ threeDigits i

/-- The label of a symbol in reports about a parse. -/
def symbolLabel (x : Nat) : String := s!"SymbolID \x7b raw: {x} \x7d"

/-- Lines of text, each ended by a line break. -/
def unlines (lines : List String) : String := String.join (lines.map (· ++ "\n"))

/-- Words with a blank in front of each. -/
def spaced (words : List String) : String := String.join (words.map (" " ++ ·))

end SimpleLR.Text
