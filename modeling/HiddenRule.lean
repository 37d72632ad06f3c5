import HiddenRule.Symbol
import HiddenRule.Cell.Cluster
import HiddenRule.Board.Text
import HiddenRule.Json.Printer
import HiddenRule.Json.Reader
import HiddenRule.Board.Record
import HiddenRule.Grammar.Closure
import HiddenRule.Grammar.Standard
import HiddenRule.Rule
import HiddenRule.Skeleton.Record
import HiddenRule.Random.ChaCha
import HiddenRule.Rule.Draw
import HiddenRule.Sampling.Record
import HiddenRule.Scenario
import HiddenRule.Skeleton.Standard
import HiddenRule.Main
import HiddenRule.Proofs.DrawValues
import HiddenRule.Proofs.Subtrees
import HiddenRule.Proofs.TagThreads
import HiddenRule.Proofs.TagRegions
import HiddenRule.Proofs.Building
import HiddenRule.Proofs.DrawnRules
import HiddenRule.Proofs.CellClusters
import HiddenRule.Proofs.Places
import HiddenRule.Proofs.Reading
import HiddenRule.Proofs.Classes
import HiddenRule.Proofs.Verdicts
import HiddenRule.Proofs.PaintedBoards
import HiddenRule.Proofs.Puzzles
import HiddenRule.Proofs.DrawEnds
import HiddenRule.Proofs.Templates
import HiddenRule.Proofs.Wording
import HiddenRule.Proofs.SessionRuns
import HiddenRule.Proofs.StandardDraws
import HiddenRule.Proofs.Steering
import HiddenRule.Proofs.EveryTree
import HiddenRule.Proofs.CellMotions
import HiddenRule.Proofs.Symmetry
import HiddenRule.Proofs.Turns
import HiddenRule.Proofs.Relabelings
import HiddenRule.Proofs.Aspects
import HiddenRule.Proofs.SortedExamples
import HiddenRule.Proofs.Challenges
import HiddenRule.Proofs.Histories
import HiddenRule.Proofs.Codecs
import HiddenRule.Proofs.Answers
import HiddenRule.Proofs.Tokens
import HiddenRule.Proofs.CompactForms
import HiddenRule.Proofs.CellPaths
import HiddenRule.Proofs.BoardStreams
import HiddenRule.Proofs.BoardReader
import HiddenRule.Proofs.BoardChances
import HiddenRule.Proofs.RootWords
import HiddenRule.Proofs.FirstFaults
import HiddenRule.Proofs.Substitution
import HiddenRule.Proofs.GrownMarks
import HiddenRule.Proofs.DrawDepths
import HiddenRule.Proofs.DrawRanks
import HiddenRule.Proofs.InertAlternatives
import HiddenRule.Proofs.LargerGrammars
import HiddenRule.Proofs.Partitions
import HiddenRule.Proofs.ListedCells
import HiddenRule.Proofs.Tautologies
import HiddenRule.Proofs.ClosedGrammars
import HiddenRule.Proofs.Drawings
import HiddenRule.Proofs.RuleTexts
