import PhpClass.Main
import PhpClass.Scan.Offset
import PhpClass.Scan.Strip
import PhpClass.Text.Cursor
import PhpClass.Proofs.HeaderComments
import PhpClass.Proofs.Initializer
import PhpClass.Proofs.RoundTrip
import PhpClass.Proofs.Snippet
import PhpClass.Proofs.WellFormed
import PhpClass.Proofs.Preamble
import PhpClass.Proofs.Surroundings
import PhpClass.Proofs.MapSession
import PhpClass.Proofs.ContentSession
import PhpClass.Proofs.FileTree
import PhpClass.Proofs.FileWalk
import PhpClass.Proofs.FormatRun
import PhpClass.Proofs.Utf8
import PhpClass.Proofs.Traced
import PhpClass.Proofs.TracedWord
import PhpClass.Proofs.TracedHeader
import PhpClass.Proofs.TracedMember
import PhpClass.Proofs.TracedFile
import PhpClass.Command.Parallel
import PhpClass.Proofs.FormatCount
import PhpClass.Proofs.Schedule
import PhpClass.Proofs.HeaderGaps
import PhpClass.Proofs.ParameterGaps
import PhpClass.Proofs.MethodGaps
import PhpClass.Proofs.Nesting
import PhpClass.Proofs.Span
import PhpClass.Proofs.Partner
import PhpClass.Proofs.Terminator
import PhpClass.Proofs.Splitting
import PhpClass.Proofs.BracketedList
import PhpClass.Proofs.LongestGap
import PhpClass.Proofs.Stripping
import PhpClass.Proofs.ParameterComments
import PhpClass.Proofs.Character
import PhpClass.Proofs.Position
import PhpClass.Proofs.Excerpt
import PhpClass.Proofs.Hunk
import PhpClass.Proofs.ParameterPlace
import PhpClass.Proofs.FoundFiles
import PhpClass.Proofs.Locality
import PhpClass.Proofs.ShownChange
import PhpClass.Proofs.ReaderLoops
