import DepAtlas.Main
import DepAtlas.Proofs.Admission
import DepAtlas.Proofs.Arity
import DepAtlas.Proofs.Backing
import DepAtlas.Proofs.Bookkeeping
import DepAtlas.Proofs.Calls
import DepAtlas.Proofs.Cleaning
import DepAtlas.Proofs.Containment
import DepAtlas.Proofs.CycleSearch
import DepAtlas.Proofs.Debouncing
import DepAtlas.Proofs.Expansion
import DepAtlas.Proofs.FileLogic
import DepAtlas.Proofs.FileTexts
import DepAtlas.Proofs.Ignoring
import DepAtlas.Proofs.ImpactWalks
import DepAtlas.Proofs.Interleaving
import DepAtlas.Proofs.Locals
import DepAtlas.Proofs.ModuleFiles
import DepAtlas.Proofs.Naming
import DepAtlas.Proofs.Overtaking
import DepAtlas.Proofs.Parameters
import DepAtlas.Proofs.RelativeNames
import DepAtlas.Proofs.Retention
import DepAtlas.Proofs.Truncation
import DepAtlas.Proofs.Unused
import DepAtlas.Proofs.UseGroups
import DepAtlas.Proofs.UseLog
import DepAtlas.Proofs.Wire
