import ParseForest.Program.Catalog

/-!
# Command line

The first argument names a program and the second is its argument.
-/

/-- Runs the program that the first argument names. -/
def main (args : List String) : IO UInt32 := do
  match args.head?.bind ParseForest.Program.byName? with
  | some program =>
    let outcome := program args[1]?
    IO.print outcome.stdout
    IO.eprint outcome.stderr
    return UInt32.ofNat outcome.status
  | none =>
    IO.eprintln "usage: simple_tree [EXPRESSION] | ambiguous_forest"
    return 2
