import Prose.Token

namespace Prose

structure Phrase where
  lead : Keyword
  followers : List Keyword
  role : Keyword
  deriving DecidableEq

namespace Phrase

/-- All phrases. Where several begin at one token, the first of the list is meant; no longer phrase
stands behind a shorter one of the same beginning. -/
def all : List Phrase := [
  ⟨.execute, [.the, .following, .semicolon], .blockStart⟩,
  ⟨.otherwise, [.ifWord], .otherwiseIf⟩,
  ⟨.equal, [.to], .equalTo⟩,
  ⟨.is, [.notWord, .equal, .to], .isNotEqualTo⟩,
  ⟨.is, [.notWord, .null], .isNotNull⟩,
  ⟨.is, [.equal, .to], .isEqualTo⟩,
  ⟨.is, [.greater, .than], .isGreaterThan⟩,
  ⟨.is, [.less, .than], .isLessThan⟩,
  ⟨.is, [.atWord, .least], .isAtLeast⟩,
  ⟨.is, [.atWord, .most], .isAtMost⟩,
  ⟨.is, [.null], .isNull⟩,
  ⟨.is, [.a], .isA⟩,
  ⟨.is, [.an], .isA⟩,
  ⟨.asWord, [.a], .asA⟩,
  ⟨.asWord, [.an], .asA⟩,
  ⟨.divided, [.byWord], .dividedBy⟩,
  ⟨.multiplied, [.byWord], .multipliedBy⟩,
  ⟨.to, [.the, .power, .of], .toThePowerOf⟩,
  ⟨.shifted, [.left, .byWord], .shiftedLeftBy⟩,
  ⟨.shifted, [.right, .byWord], .shiftedRightBy⟩,
  ⟨.bitwise, [.andWord], .bitwiseAnd⟩,
  ⟨.bitwise, [.orWord], .bitwiseOr⟩,
  ⟨.bitwise, [.xor], .bitwiseXor⟩,
  ⟨.bitwise, [.notWord], .bitwiseNot⟩,
  ⟨.concatenated, [.withWord], .concatenatedWith⟩,
  ⟨.the, [.sum, .of], .sumOf⟩,
  ⟨.the, [.difference, .of], .differenceOf⟩,
  ⟨.the, [.product, .of], .productOf⟩,
  ⟨.the, [.quotient, .of], .quotientOf⟩,
  ⟨.the, [.remainder, .of], .remainderOf⟩,
  ⟨.the, [.length, .of], .lengthOf⟩,
  ⟨.the, [.absolute, .value, .of], .absoluteValueOf⟩,
  ⟨.the, [.square, .root, .of], .squareRootOf⟩,
  ⟨.sum, [.of], .sumOf⟩,
  ⟨.difference, [.of], .differenceOf⟩,
  ⟨.product, [.of], .productOf⟩,
  ⟨.quotient, [.of], .quotientOf⟩,
  ⟨.remainder, [.of], .remainderOf⟩,
  ⟨.length, [.of], .lengthOf⟩,
  ⟨.absolute, [.value, .of], .absoluteValueOf⟩,
  ⟨.square, [.root, .of], .squareRootOf⟩,
  ⟨.a, [.list, .of], .listOf⟩,
  ⟨.list, [.of], .listOf⟩,
  ⟨.an, [.empty, .list], .emptyList⟩,
  ⟨.empty, [.list], .emptyList⟩,
  ⟨.forWord, [.each], .forEach⟩,
  ⟨.define, [.entry, .point], .defineEntryPoint⟩,
  ⟨.define, [.function], .defineFunction⟩,
  ⟨.define, [.structureWord], .defineStructure⟩,
  ⟨.read, [.into], .readInto⟩]

def startsAt (p : Phrase) : List Token → Bool
  | [] => false
  | t :: ts => t.keyword == p.lead && (ts.take p.followers.length).map (·.keyword) == p.followers

def find? (tokens : List Token) : Option Phrase :=
  all.find? (·.startsAt tokens)

def length (p : Phrase) : Nat :=
  p.followers.length + 1

end Phrase

end Prose
