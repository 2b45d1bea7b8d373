import Prose.Expr

/-! The forms of expressions: how each is named, how tightly it binds and at which ends of its
tokens an operand lies open. -/
namespace Prose.Expr

/-- At which ends of a form an operand lies open to an operator beside the form. A transparent form
takes the openness of what follows its first token. -/
inductive Fixity where
  | closed | openRight | openLeft | openBoth | transparent
  deriving DecidableEq

def Fixity.isOpenLeft : Fixity → Bool
  | openLeft | openBoth => true
  | _ => false

def Fixity.isOpenRight : Fixity → Bool
  | openRight | openBoth => true
  | _ => false

inductive OperatorLevel where
  | disjunction | conjunction | comparison | contains | bitOr | bitXor | bitAnd | shift
  | concatenation | additive | multiplicative | power
  deriving DecidableEq

inductive ArithmeticPhrase where
  | sum | difference | product | quotient | remainder
  deriving DecidableEq

inductive Form where
  | parenthesized
  | article
  | ternary
  | selection
  | operators (l : OperatorLevel)
  | unary (op : UnaryOp)
  | typeCheck
  | nullCheck
  | phrase (p : ArithmeticPhrase)
  | cast
  | slice
  | index
  | call
  | list
  | number
  | ordinal
  | text
  | constant
  | identifier
  deriving DecidableEq, Inhabited

namespace OperatorLevel

def all : List OperatorLevel :=
  [disjunction, conjunction, comparison, contains, bitOr, bitXor, bitAnd, shift, concatenation,
    additive, multiplicative, power]

def name : OperatorLevel → String
  | disjunction => "or"
  | conjunction => "and"
  | comparison => "comparison"
  | contains => "contains"
  | bitOr => "bitwise or"
  | bitXor => "bitwise xor"
  | bitAnd => "bitwise and"
  | shift => "shift"
  | concatenation => "concatenation"
  | additive => "additive"
  | multiplicative => "multiplicative"
  | power => "power"

def level : OperatorLevel → Nat
  | disjunction => 900
  | conjunction => 890
  | comparison => 870
  | contains => 865
  | bitOr => 850
  | bitXor => 845
  | bitAnd => 840
  | shift => 835
  | concatenation => 830
  | additive => 820
  | multiplicative => 810
  | power => 800

def operators : OperatorLevel → List (Keyword × BinaryOp)
  | disjunction => [(.orWord, .disjunction)]
  | conjunction => [(.andWord, .conjunction)]
  | comparison => [(.isEqualTo, .equal), (.isNotEqualTo, .notEqual), (.isGreaterThan, .greater),
      (.isLessThan, .less), (.isAtLeast, .atLeast), (.isAtMost, .atMost)]
  | contains => [(.contains, .contains)]
  | bitOr => [(.bitwiseOr, .bitOr)]
  | bitXor => [(.bitwiseXor, .bitXor)]
  | bitAnd => [(.bitwiseAnd, .bitAnd)]
  | shift => [(.shiftedLeftBy, .shiftLeft), (.shiftedRightBy, .shiftRight)]
  | concatenation => [(.concatenatedWith, .concat)]
  | additive => [(.plus, .add), (.minus, .subtract)]
  | multiplicative => [(.multipliedBy, .multiply), (.dividedBy, .divide), (.modulo, .modulo)]
  | power => [(.toThePowerOf, .power)]

def groupsRight : OperatorLevel → Bool
  | power => true
  | _ => false

end OperatorLevel

namespace ArithmeticPhrase

def all : List ArithmeticPhrase :=
  [sum, difference, product, quotient, remainder]

def name : ArithmeticPhrase → String
  | sum => "sum of"
  | difference => "difference of"
  | product => "product of"
  | quotient => "quotient of"
  | remainder => "remainder of"

def level : ArithmeticPhrase → Nat
  | sum => 700
  | difference => 690
  | product => 680
  | quotient => 670
  | remainder => 660

def lead : ArithmeticPhrase → Keyword
  | sum => .sumOf
  | difference => .differenceOf
  | product => .productOf
  | quotient => .quotientOf
  | remainder => .remainderOf

def op : ArithmeticPhrase → BinaryOp
  | sum => .add
  | difference => .subtract
  | product => .multiply
  | quotient => .divide
  | remainder => .modulo

def origin : ArithmeticPhrase → String
  | sum => "parse_sum_of"
  | difference => "parse_difference_of"
  | product => "parse_product_of"
  | quotient => "parse_quotient_of"
  | remainder => "parse_remainder_of"

end ArithmeticPhrase

def unaryOps : List UnaryOp :=
  [.negation, .negate, .bitNot, .length, .absolute, .squareRoot]

def unaryName : UnaryOp → String
  | .negation => "not"
  | .negate => "negate"
  | .bitNot => "bitwise not"
  | .absolute => "absolute value"
  | .squareRoot => "square root"
  | .length => "length"

def unaryLevel : UnaryOp → Nat
  | .negation => 880
  | .negate => 790
  | .bitNot => 785
  | .length => 640
  | .absolute => 630
  | .squareRoot => 625

def unaryLead : UnaryOp → Keyword
  | .negation => .notWord
  | .negate => .negative
  | .bitNot => .bitwiseNot
  | .absolute => .absoluteValueOf
  | .squareRoot => .squareRootOf
  | .length => .lengthOf

def unaryOrigin : UnaryOp → String
  | .negation => "parse_not"
  | .negate => "parse_negate"
  | .bitNot => "parse_bitwise_not"
  | .absolute => "parse_absolute_value"
  | .squareRoot => "parse_square_root"
  | .length => "parse_length"

namespace Form

def all : List Form :=
  [parenthesized, article, ternary, selection] ++ OperatorLevel.all.map operators ++
    unaryOps.map unary ++ [typeCheck, nullCheck] ++ ArithmeticPhrase.all.map phrase ++
    [cast, slice, index, call, list, number, ordinal, text, constant, identifier]

def name : Form → String
  | parenthesized => "parenthesized"
  | article => "article"
  | ternary => "ternary"
  | selection => "match"
  | operators l => l.name
  | unary op => unaryName op
  | typeCheck => "type check"
  | nullCheck => "null check"
  | phrase p => p.name
  | cast => "cast"
  | slice => "slice"
  | index => "index"
  | call => "call"
  | list => "list literal"
  | number => "number"
  | ordinal => "ordinal"
  | text => "text"
  | constant => "boolean or null"
  | identifier => "identifier"

/-- The place of a form in the order of binding: the higher the number, the looser it binds and the
earlier it is tried. -/
def level : Form → Nat
  | parenthesized => 1000
  | article => 990
  | ternary => 980
  | selection => 970
  | operators l => l.level
  | unary op => unaryLevel op
  | typeCheck => 860
  | nullCheck => 855
  | phrase p => p.level
  | cast => 650
  | slice => 620
  | index => 610
  | call => 600
  | list => 590
  | number => 30
  | ordinal => 25
  | text => 20
  | constant => 10
  | identifier => 0

def fixity : Form → Fixity
  | parenthesized | cast | number | ordinal | text | constant | identifier => .closed
  | article => .transparent
  | operators _ => .openBoth
  | typeCheck | nullCheck => .openLeft
  | ternary | selection | unary _ | phrase _ | slice | index | call | list => .openRight

end Form

structure Rule where
  form : Form
  priority : Nat
  deriving DecidableEq, Inhabited

def Form.rule (f : Form) : Rule :=
  ⟨f, f.level⟩

end Prose.Expr
