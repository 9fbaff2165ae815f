import ScriptSemantics.Interpreter
import ScriptSemantics.Nesting
import ScriptSemantics.TreeBuilder
import ScriptSemantics.Proofs.AddressedExits
import ScriptSemantics.Proofs.LexicalFrames
import ScriptSemantics.Proofs.StaticSlots
import ScriptSemantics.Proofs.Balance
import ScriptSemantics.Proofs.GuardedBodies
import ScriptSemantics.Proofs.EvaluationOrder
import ScriptSemantics.Proofs.Reads
import ScriptSemantics.Proofs.ConfinedIteration
import ScriptSemantics.Proofs.PartwiseEvaluation
import ScriptSemantics.Proofs.PositionalArguments
import ScriptSemantics.Proofs.StrictBinding
import ScriptSemantics.Proofs.CheckedPlanning
import ScriptSemantics.Proofs.Hoisting
import ScriptSemantics.Proofs.MethodIsolation
import ScriptSemantics.Proofs.TransparentWrapping
import ScriptSemantics.Proofs.ParamGrouping
import ScriptSemantics.Proofs.OwningStack
import ScriptSemantics.Proofs.DepthLimit
import ScriptSemantics.Proofs.FrameIdentities
import ScriptSemantics.Proofs.LenientBinding
import ScriptSemantics.Proofs.KeywordArguments
import ScriptSemantics.Proofs.StaticRejection
import ScriptSemantics.Proofs.Forwarding
import ScriptSemantics.Proofs.Backtraces
import ScriptSemantics.Proofs.LoopRuns
import ScriptSemantics.Proofs.SplatExpansion
import ScriptSemantics.Proofs.OperatorAssignment
import ScriptSemantics.Proofs.YieldedCalls
import ScriptSemantics.Proofs.LambdaCalls
import ScriptSemantics.Proofs.SequenceFlattening
import ScriptSemantics.Proofs.DoubleSplats
import ScriptSemantics.Proofs.ValueEquality
import ScriptSemantics.Proofs.Interning
import ScriptSemantics.Proofs.AssignedBindings
import ScriptSemantics.Proofs.WalkTermination
