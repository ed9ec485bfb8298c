import ParseForest.Program.SimpleTree
import ParseForest.Program.AmbiguousForest

/-!
# The programs by name
-/

namespace ParseForest.Program

def byName? : String → Option (Option String → Outcome)
  | "simple_tree" => some simpleTree
  | "ambiguous_forest" => some fun _ => ambiguousForest
  | _ => none

end ParseForest.Program
