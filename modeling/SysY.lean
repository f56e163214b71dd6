import SysY.Main
import SysY.Proofs.CommandLine.Failures
import SysY.Proofs.Compiler.DeadCode
import SysY.Proofs.Generation.Contents
import SysY.Proofs.Generation.Meaning
import SysY.Proofs.Generation.Nesting
import SysY.Proofs.RiscV.Frames
import SysY.Proofs.Token.Quoting
import SysY.Proofs.Token.Recovery
import SysY.Proofs.Token.Spelling
import SysY.Proofs.Tree.Accepting
import SysY.Proofs.RiscV.Expansion
import SysY.Proofs.Optimization.Reachability
import SysY.Proofs.Allocation.Enumeration
import SysY.Proofs.Flow.LoopDepth
