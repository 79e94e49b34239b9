/-! JSON values. -/
namespace UtilityCss

/-- A JSON value. A number is kept as it is written, an object as the list of its members. -/
inductive Json where
  | null
  | bool (b : Bool)
  | number (literal : String)
  | string (s : String)
  | array (items : List Json)
  | object (members : List (String × Json))

namespace Json

/-- Why a text is not a JSON document. -/
inductive Fault where
  | unexpectedEnd
  | unexpected (c : Char)
  | controlCharacter
  | badEscape
  | loneSurrogate
  | badNumber
  | numberOutOfRange
  | tooDeep
  | trailingCharacters
  | notAnObject
  deriving DecidableEq, Repr

def Fault.message : Fault → String
  | unexpectedEnd => "the text ends inside a value"
  | unexpected c => "unexpected character " ++ c.toString
  | controlCharacter => "control character in a string"
  | badEscape => "invalid escape"
  | loneSurrogate => "lone surrogate in a string"
  | badNumber => "invalid number"
  | numberOutOfRange => "number out of range"
  | tooDeep => "nesting limit exceeded"
  | trailingCharacters => "trailing characters"
  | notAnObject => "the document is not an object"

/-- How deep arrays and objects may nest, the outermost one counted. -/
def maxDepth : Nat := 127

end Json
end UtilityCss
