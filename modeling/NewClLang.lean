import NewClLang.LinearProbing
import NewClLang.MapTable
import NewClLang.MapWellFormed
import NewClLang.MapOperations
import NewClLang.MapRefinement
import NewClLang.MapHeaders
import NewClLang.ContextSwitching
import NewClLang.ShadowStack
import NewClLang.RootSlots
import NewClLang.Coercions
import NewClLang.ErasedGenerics
import NewClLang.Syntax
import NewClLang.SlotEmission
import NewClLang.StaleNames
import NewClLang.SlotSoundness
import NewClLang.SlotConstructs
import NewClLang.SlotResolution
import NewClLang.CompiledCode
import NewClLang.CodeEmission
import NewClLang.ShortCircuit
import NewClLang.DeferSites
import NewClLang.DeferredBlocks
import NewClLang.CollectorMachine
import NewClLang.CollectorSafety
import NewClLang.CollectorLowering
import NewClLang.TemporaryRoots
import NewClLang.RuntimeMachine
import NewClLang.ThreadMoves
import NewClLang.ThreadPlaces
import NewClLang.ThreadLifecycle
import NewClLang.MutexHandoff
import NewClLang.DeadlockReports
import NewClLang.ErasedDescriptors
import NewClLang.ClosureCollection
import NewClLang.ModuleGeneration
import NewClLang.FallibleCalls
import NewClLang.FallibleMarks
import NewClLang.IdentifierTypes
import NewClLang.ShadowedNarrowing
import NewClLang.Lockstep
import NewClLang.ReturnInference
import NewClLang.InferenceContexts
import NewClLang.InferredTypes
import NewClLang.DeclarationOrder
import NewClLang.ContextFreedom
import NewClLang.DepthFirstMarking
import NewClLang.HeapCollection
import NewClLang.SpawnRoots
import NewClLang.TimedWaits
import NewClLang.WorkerJoin
import NewClLang.MapIteration
import NewClLang.ModuleSyntax
import NewClLang.LocalNames
import NewClLang.FallibleRuns
import NewClLang.Monomorphization
import NewClLang.SettledWalks
import NewClLang.NeededInstances
import NewClLang.FirstRound
import NewClLang.InstanceRequests
import NewClLang.PrintedTypes
import NewClLang.Privacy
import NewClLang.DefaultArguments
import NewClLang.IntroSort
import NewClLang.IntroSortRuns
import NewClLang.IntroSortOverflow
import NewClLang.IntroSortOrder
import NewClLang.JsonModule
import NewClLang.JsonGrammar
import NewClLang.JsonTrees
import NewClLang.ExceptOutcomes
import NewClLang.JsonScanning
import NewClLang.JsonNumbers
import NewClLang.JsonBuilding
import NewClLang.JsonReading
import NewClLang.JsonAcceptance
import NewClLang.JsonShapes
import NewClLang.JsonPrinting
import NewClLang.JsonApi
import NewClLang.JsonRoundTrip
import NewClLang.JsonLetters
import NewClLang.JsonTotality
import NewClLang.NestedTexts
import NewClLang.TypeSyntax
import NewClLang.TypeTexts
import NewClLang.TypeKeys
import NewClLang.TypeRoundTrip
import NewClLang.BreakTargets
import NewClLang.BreakEmission
import NewClLang.ErrorFrames
import NewClLang.Comparisons
import NewClLang.ComparisonLaws
import NewClLang.ClosureRegistration
import NewClLang.MatchExpressions
import NewClLang.MatchSelection
import NewClLang.AccessExpressions
import NewClLang.AccessValues
import NewClLang.Concatenations
import NewClLang.EvaluationOrder
import NewClLang.CompoundAssignments
import NewClLang.CompoundLaws
import NewClLang.BlockEmission
import NewClLang.BlockConditions
import NewClLang.BlockFormation
import NewClLang.JsonDecoding
import NewClLang.IntroSortSafety
import NewClLang.MapCapacity
import NewClLang.GraphSearch
import NewClLang.TypeProperties
import NewClLang.TypePropertySearch
import NewClLang.MapKeyEmission
import NewClLang.MapKeyCoherence
import NewClLang.EmbeddingConflicts
import NewClLang.TimerLinks
import NewClLang.TimerPlaces
import NewClLang.TimerDiscipline
import NewClLang.StringSafety
import NewClLang.StringBounds
import NewClLang.StringMatching
import NewClLang.StringOrder
import NewClLang.StringSearch
import NewClLang.StringReplacement
import NewClLang.IntegerParsing
import NewClLang.FloatValidation
import NewClLang.DataLayouts
import NewClLang.TypeLayouts
import NewClLang.LayoutAgreement
import NewClLang.HeapAlignment
import NewClLang.Lexer
import NewClLang.LexerTotality
import NewClLang.StringQuoting
import NewClLang.AssociationLists
import NewClLang.JsonObjects
import NewClLang.StackSearch
import NewClLang.TypeAliases
import NewClLang.TokenParsers
import NewClLang.ParsedNodes
import NewClLang.ParserBasics
import NewClLang.ExpressionParser
import NewClLang.StatementParser
import NewClLang.ParserOutcomes
import NewClLang.EmbeddedTexts
import NewClLang.ExpressionOutcomes
import NewClLang.StatementOutcomes
import NewClLang.SourceLocations
import NewClLang.OperatorPrecedence
import NewClLang.TypeSubstitution
import NewClLang.SlotConditions
import NewClLang.SlotPlacement
import NewClLang.FinishOrder
import NewClLang.ModuleLoading
import NewClLang.ModuleLinking
import NewClLang.MemoFolds
import NewClLang.InterfaceSets
import NewClLang.InterfaceDispatch
import NewClLang.StructRecursion
import NewClLang.ClosureCaptures
import NewClLang.IntrusiveQueue
import NewClLang.QueueLinks
