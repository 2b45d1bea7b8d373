import Prose.Json.Decoder
import Prose.Json.Reader
import Prose.Options

namespace Prose.Options

open Json.Decoder in
def fieldOr {α : Type} (default : α) (item : Json.Decoder α) (d : Nat) : Option Json → Option α
  | none => some default
  | some j => item d j

open Json.Decoder in
def ofJson : Json.Decoder Options := fun d j => do
  let usual : Options := {}
  match ← fields ["source_name", "require_terminators", "max_nesting_depth",
      "warn_on_discarded_values"] true d j with
  | (d, [name, terminators, depth, warn]) =>
    some ⟨← fieldOr usual.sourceName text d name,
      ← fieldOr usual.requireTerminators boolean d terminators,
      ← fieldOr usual.maxNestingDepth natural d depth,
      ← fieldOr usual.warnOnDiscardedValues boolean d warn⟩
  | _ => none

def read (document : String) : Option Options := do
  ofJson Json.maxLevels (← Json.parse document)

end Prose.Options
