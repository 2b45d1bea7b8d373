import Prose.Keyword
import Prose.Text.Fold
import Prose.Number.Word

/-! The vocabulary: which word or mark plays which role. Words are compared after folding, so case,
surrounding space and accents do not matter. -/
namespace Prose

def vocabulary : List (String × Keyword) := [
  (".", .endOfStatement), (",", .comma), (";", .semicolon), (":", .colon), ("(", .openParen),
  (")", .closeParen), ("\x7b", .blockStart), ("\x7d", .blockEnd), ("the", .the), ("a", .a),
  ("an", .an), ("if", .ifWord), ("then", .thenWord), ("otherwise", .otherwise),
  ("else", .otherwise), ("while", .whileWord), ("until", .untilWord), ("do", .doWord),
  ("for", .forWord), ("each", .each), ("in", .inWord), ("from", .fromWord), ("to", .to),
  ("by", .byWord), ("repeat", .repeatWord), ("times", .times), ("try", .tryWord),
  ("catch", .catchWord), ("finally", .finallyWord), ("fin", .fin), ("execute", .execute),
  ("following", .following), ("set", .set), ("equal", .equal), ("let", .letWord), ("be", .be),
  ("print", .print), ("display", .display), ("return", .returnWord), ("break", .breakWord),
  ("continue", .continueWord), ("exit", .exit), ("throw", .throw), ("raise", .raise),
  ("assert", .assert), ("import", .importWord), ("add", .add), ("remove", .remove),
  ("swap", .swap), ("read", .read), ("into", .into), ("increment", .increment),
  ("decrement", .decrement), ("define", .define), ("function", .function),
  ("structure", .structureWord), ("entry", .entry), ("point", .point), ("as", .asWord),
  ("with", .withWord), ("call", .call), ("cast", .cast), ("plus", .plus), ("minus", .minus),
  ("multiplied", .multiplied), ("divided", .divided), ("modulo", .modulo), ("mod", .modulo),
  ("power", .power), ("of", .of), ("sum", .sum), ("difference", .difference),
  ("product", .product), ("quotient", .quotient), ("remainder", .remainder),
  ("negative", .negative), ("not", .notWord), ("and", .andWord), ("or", .orWord), ("is", .is),
  ("greater", .greater), ("less", .less), ("than", .than), ("at", .atWord), ("least", .least),
  ("most", .most), ("null", .null), ("nothing", .null), ("true", .trueWord), ("yes", .trueWord),
  ("false", .falseWord), ("no", .falseWord), ("contains", .contains),
  ("concatenated", .concatenated), ("bitwise", .bitwise), ("xor", .xor), ("shifted", .shifted),
  ("left", .left), ("right", .right), ("length", .length), ("absolute", .absolute),
  ("value", .value), ("square", .square), ("root", .root), ("slice", .slice), ("item", .item),
  ("element", .element), ("list", .list), ("empty", .empty), ("match", .matchWord),
  ("gives", .gives), ("number", .numberType), ("text", .textType), ("string", .textType),
  ("boolean", .booleanType), ("character", .characterType), ("hundred", .hundred),
  ("thousand", .thousand), ("million", .million), ("billion", .billion)]

def Keyword.ofFolded (word : String) : Keyword :=
  if (Number.cardinal? word).isSome then .numberWord
  else if (Number.ordinal? word).isSome then .ordinal
  else (vocabulary.lookup word).getD .unknown

/-- The role of a text; a text without a role is `unknown`. -/
def Keyword.ofText (text : String) : Keyword :=
  ofFolded (Text.fold text)

end Prose
