import ParseForest.Main
import ParseForest.Derivation
import ParseForest.Grammar.Nullable
import ParseForest.Recognition.Ambiguity
import ParseForest.Chart.Lemmas
import ParseForest.Proofs.FlowGraph.Language
import ParseForest.Proofs.FlowGraph.Tables
import ParseForest.Proofs.Grammar.Conditionals
import ParseForest.Proofs.Grammar.Nullability
import ParseForest.Proofs.Chart.Pushes
import ParseForest.Proofs.Recognition.Prefixes
import ParseForest.Proofs.Recognition.Justified
import ParseForest.Proofs.Recognition.FirstAntecedents
import ParseForest.Proofs.Recognition.Determined
import ParseForest.Proofs.Recognition.Ambiguity
import ParseForest.Proofs.Recognition.Consulted
import ParseForest.Proofs.Walk.Enumeration
import ParseForest.Proofs.Walk.Legs
import ParseForest.Proofs.Tree.Ambiguity
import ParseForest.Proofs.Tree.Bracketed
import ParseForest.Proofs.Grammar.NearestElse
import ParseForest.Proofs.Grammar.Precedence
import ParseForest.Proofs.Grammar.Catalan
import ParseForest.Proofs.Grammar.Building
import ParseForest.Proofs.Forest.Unfolding
import ParseForest.Proofs.Forest.Visits
import ParseForest.Proofs.Forest.Finding
