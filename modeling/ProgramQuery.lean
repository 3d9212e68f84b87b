import ProgramQuery.Main
import ProgramQuery.Proofs.Layout
import ProgramQuery.Proofs.ControlFlow
import ProgramQuery.Proofs.ReachingDefinitions
import ProgramQuery.Proofs.Settling
import ProgramQuery.Proofs.Joining
import ProgramQuery.Proofs.Lexemes
import ProgramQuery.Proofs.PlanCover
import ProgramQuery.Proofs.QueryTyping
import ProgramQuery.Proofs.Signatures
import ProgramQuery.Proofs.Accesses
import ProgramQuery.Proofs.FactsWellFormed
import ProgramQuery.Proofs.Views
import ProgramQuery.Proofs.ClauseApplication
import ProgramQuery.Proofs.Propagation
import ProgramQuery.Proofs.Answers
import ProgramQuery.Proofs.AcyclicQueries
import ProgramQuery.Proofs.PlanIndependence
import ProgramQuery.Proofs.AccessRules
import ProgramQuery.Proofs.ProgramGrammar
import ProgramQuery.Proofs.ExpressionPatterns
import ProgramQuery.Proofs.QueryGrammar
import ProgramQuery.Proofs.QueryReading
import ProgramQuery.Proofs.Narrowing
import ProgramQuery.Proofs.Renaming
import ProgramQuery.Proofs.TreePosition
import ProgramQuery.Proofs.StrictLookups
import ProgramQuery.Proofs.Chains
import ProgramQuery.Proofs.Tables
import ProgramQuery.Proofs.NaturalJoin
import ProgramQuery.Proofs.PlanComponents
import ProgramQuery.Proofs.PlanOrder
import ProgramQuery.Proofs.LongestLexemes
import ProgramQuery.Proofs.Tokenization
import ProgramQuery.Proofs.Spellings
import ProgramQuery.Proofs.CanonicalTexts
import ProgramQuery.Proofs.QuotedPatterns
import ProgramQuery.Proofs.Respacing
import ProgramQuery.Proofs.BlankInsensitivity
import ProgramQuery.Proofs.WellTypedQueries
import ProgramQuery.Proofs.VariableTable
import ProgramQuery.Proofs.LoopFlow
import ProgramQuery.Proofs.DisplayedTrees
import ProgramQuery.Proofs.NestedIntervals
import ProgramQuery.Proofs.ProcedureFlow
import ProgramQuery.Proofs.AnswerOrder
import ProgramQuery.Proofs.SettledStates
import ProgramQuery.Proofs.Reapplication
import ProgramQuery.Proofs.IncompletePrograms
import ProgramQuery.Proofs.Resplitting
