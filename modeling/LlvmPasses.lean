import LlvmPasses.Proofs.RoundTrip
import LlvmPasses.Proofs.CodegenCorrect
import LlvmPasses.Proofs.CodegenWellFormed
import LlvmPasses.Proofs.FailedItems
import LlvmPasses.Proofs.MainLoop
import LlvmPasses.Proofs.SessionOperators
import LlvmPasses.Proofs.MergeRun
import LlvmPasses.Proofs.Callees
import LlvmPasses.Proofs.JitSymbols
import LlvmPasses.Proofs.SessionModes
import LlvmPasses.Proofs.RivAvailable
import LlvmPasses.Proofs.MergeSound
import LlvmPasses.Proofs.MergeFlags
import LlvmPasses.Proofs.MergePhis
import LlvmPasses.Proofs.PrintfCompose
import LlvmPasses.Proofs.CallCounts
import LlvmPasses.Proofs.RivExact
import LlvmPasses.Proofs.AssignTargets
import LlvmPasses.Proofs.DefinitionParams
import LlvmPasses.Proofs.PrototypeGrammar
import LlvmPasses.Proofs.GrammarSound
import LlvmPasses.Proofs.Lexing
import LlvmPasses.Proofs.DuplicateOrder
import LlvmPasses.Proofs.DuplicateMeaning
import LlvmPasses.Proofs.MergeSurvivors
import LlvmPasses.Proofs.CounterNames
import LlvmPasses.Proofs.DuplicateReproducible
import LlvmPasses.Proofs.FCmpTolerance
import LlvmPasses.Proofs.MBAMeaning
import LlvmPasses.Proofs.CachedAnalyses
import LlvmPasses.Proofs.MergeWellFormed
import LlvmPasses.Proofs.SessionPrograms
import LlvmPasses.Proofs.DefinedValues
import LlvmPasses.Proofs.DuplicateDefined
import LlvmPasses.Proofs.MBADefined
import LlvmPasses.Proofs.Transformations
