/-! The grammar roles of tokens. English words, punctuation and phrases of several words take part
in the grammar through their keyword; names and literals have the keyword `unknown`. -/
namespace Prose

inductive Keyword where
  | endOfStatement | comma | semicolon | colon | openParen | closeParen | blockStart | blockEnd
  | the | a | an
  | ifWord | thenWord | otherwise | whileWord | untilWord | doWord | forWord | each | inWord
  | fromWord | to | byWord | repeatWord | times | tryWord | catchWord | finallyWord | fin
  | execute | following
  | set | equal | letWord | be | print | display | returnWord | breakWord | continueWord | exit
  | throw | raise | assert | importWord | add | remove | swap | read | into | increment
  | decrement | define | function | structureWord | entry | point | asWord | withWord | call
  | cast
  | plus | minus | multiplied | divided | modulo | power | of | sum | difference | product
  | quotient | remainder | negative | notWord | andWord | orWord | is | greater | less | than
  | atWord | least | most | null | trueWord | falseWord | contains | concatenated | bitwise | xor
  | shifted | left | right | length | absolute | value | square | root | slice | item | element
  | list | empty | matchWord | gives
  | numberType | textType | booleanType | characterType
  | numberWord | hundred | thousand | million | billion | ordinal | numericLiteral
  | otherwiseIf | equalTo | isEqualTo | isNotEqualTo | isGreaterThan | isLessThan | isAtLeast
  | isAtMost | isNull | isNotNull | isA | asA | dividedBy | multipliedBy | toThePowerOf
  | shiftedLeftBy | shiftedRightBy | bitwiseAnd | bitwiseOr | bitwiseXor | bitwiseNot
  | concatenatedWith | sumOf | differenceOf | productOf | quotientOf | remainderOf | lengthOf
  | absoluteValueOf | squareRootOf | listOf | emptyList | forEach | defineFunction
  | defineStructure | defineEntryPoint | readInto | unknown
  deriving DecidableEq, Inhabited

namespace Keyword

def table : List (Keyword × String) := [
  (.endOfStatement, "EndOfStatement"), (.comma, "Comma"), (.semicolon, "Semicolon"),
  (.colon, "Colon"), (.openParen, "OpenParen"), (.closeParen, "CloseParen"),
  (.blockStart, "BlockStart"), (.blockEnd, "BlockEnd"), (.the, "The"), (.a, "A"), (.an, "An"),
  (.ifWord, "If"), (.thenWord, "Then"), (.otherwise, "Otherwise"), (.whileWord, "While"),
  (.untilWord, "Until"), (.doWord, "Do"), (.forWord, "For"), (.each, "Each"), (.inWord, "In"),
  (.fromWord, "From"), (.to, "To"), (.byWord, "By"), (.repeatWord, "Repeat"), (.times, "Times"),
  (.tryWord, "Try"), (.catchWord, "Catch"), (.finallyWord, "Finally"), (.fin, "Fin"),
  (.execute, "Execute"), (.following, "Following"), (.set, "Set"), (.equal, "Equal"),
  (.letWord, "Let"), (.be, "Be"), (.print, "Print"), (.display, "Display"),
  (.returnWord, "Return"), (.breakWord, "Break"), (.continueWord, "Continue"), (.exit, "Exit"),
  (.throw, "Throw"), (.raise, "Raise"), (.assert, "Assert"), (.importWord, "Import"),
  (.add, "Add"), (.remove, "Remove"), (.swap, "Swap"), (.read, "Read"), (.into, "Into"),
  (.increment, "Increment"), (.decrement, "Decrement"), (.define, "Define"),
  (.function, "Function"), (.structureWord, "Structure"), (.entry, "Entry"), (.point, "Point"),
  (.asWord, "As"), (.withWord, "With"), (.call, "Call"), (.cast, "Cast"), (.plus, "Plus"),
  (.minus, "Minus"), (.multiplied, "Multiplied"), (.divided, "Divided"), (.modulo, "Modulo"),
  (.power, "Power"), (.of, "Of"), (.sum, "Sum"), (.difference, "Difference"),
  (.product, "Product"), (.quotient, "Quotient"), (.remainder, "Remainder"),
  (.negative, "Negative"), (.notWord, "Not"), (.andWord, "And"), (.orWord, "Or"), (.is, "Is"),
  (.greater, "Greater"), (.less, "Less"), (.than, "Than"), (.atWord, "At"), (.least, "Least"),
  (.most, "Most"), (.null, "Null"), (.trueWord, "True"), (.falseWord, "False"),
  (.contains, "Contains"), (.concatenated, "Concatenated"), (.bitwise, "Bitwise"), (.xor, "Xor"),
  (.shifted, "Shifted"), (.left, "Left"), (.right, "Right"), (.length, "Length"),
  (.absolute, "Absolute"), (.value, "Value"), (.square, "Square"), (.root, "Root"),
  (.slice, "Slice"), (.item, "Item"), (.element, "Element"), (.list, "List"), (.empty, "Empty"),
  (.matchWord, "Match"), (.gives, "Gives"), (.numberType, "NumberType"), (.textType, "TextType"),
  (.booleanType, "BooleanType"), (.characterType, "CharacterType"), (.numberWord, "NumberWord"),
  (.hundred, "Hundred"), (.thousand, "Thousand"), (.million, "Million"), (.billion, "Billion"),
  (.ordinal, "Ordinal"), (.numericLiteral, "NumericLiteral"), (.otherwiseIf, "OtherwiseIf"),
  (.equalTo, "EqualTo"), (.isEqualTo, "IsEqualTo"), (.isNotEqualTo, "IsNotEqualTo"),
  (.isGreaterThan, "IsGreaterThan"), (.isLessThan, "IsLessThan"), (.isAtLeast, "IsAtLeast"),
  (.isAtMost, "IsAtMost"), (.isNull, "IsNull"), (.isNotNull, "IsNotNull"), (.isA, "IsA"),
  (.asA, "AsA"), (.dividedBy, "DividedBy"), (.multipliedBy, "MultipliedBy"),
  (.toThePowerOf, "ToThePowerOf"), (.shiftedLeftBy, "ShiftedLeftBy"),
  (.shiftedRightBy, "ShiftedRightBy"), (.bitwiseAnd, "BitwiseAnd"), (.bitwiseOr, "BitwiseOr"),
  (.bitwiseXor, "BitwiseXor"), (.bitwiseNot, "BitwiseNot"),
  (.concatenatedWith, "ConcatenatedWith"), (.sumOf, "SumOf"), (.differenceOf, "DifferenceOf"),
  (.productOf, "ProductOf"), (.quotientOf, "QuotientOf"), (.remainderOf, "RemainderOf"),
  (.lengthOf, "LengthOf"), (.absoluteValueOf, "AbsoluteValueOf"), (.squareRootOf, "SquareRootOf"),
  (.listOf, "ListOf"), (.emptyList, "EmptyList"), (.forEach, "ForEach"),
  (.defineFunction, "DefineFunction"), (.defineStructure, "DefineStructure"),
  (.defineEntryPoint, "DefineEntryPoint"), (.readInto, "ReadInto"), (.unknown, "Unknown")]

def name (k : Keyword) : String :=
  (table.lookup k).getD ""

def ofName? (s : String) : Option Keyword :=
  (table.find? fun e => e.2 == s).map (·.1)

def isOpener : Keyword → Bool
  | blockStart | openParen => true
  | _ => false

def isCloser : Keyword → Bool
  | blockEnd | closeParen => true
  | _ => false

def isNumberPart : Keyword → Bool
  | numberWord | hundred | thousand | million | billion => true
  | _ => false

def isArticle : Keyword → Bool
  | the | a | an => true
  | _ => false

end Keyword

end Prose
