import Vellum.Main
import Vellum.Proofs.CursorSpot
import Vellum.Proofs.Edits
import Vellum.Proofs.FlatText
import Vellum.Proofs.FrameOrigins
import Vellum.Proofs.FrameParts
import Vellum.Proofs.KeyStream
import Vellum.Proofs.LongSequences
import Vellum.Proofs.MatchTour
import Vellum.Proofs.Modes
import Vellum.Proofs.NearestMatch
import Vellum.Proofs.Quitting
import Vellum.Proofs.Refusals
import Vellum.Proofs.Reopening
import Vellum.Proofs.ScreenFree
import Vellum.Proofs.ScreenReading
import Vellum.Proofs.SearchTrace
import Vellum.Proofs.Searching
import Vellum.Proofs.Strokes
import Vellum.Proofs.TabColumns
import Vellum.Proofs.TokenPainting
import Vellum.Proofs.Tokens
import Vellum.Proofs.TypedQuery
import Vellum.Proofs.TypedText
import Vellum.Proofs.Unsaved
import Vellum.Proofs.VisibleText
import Vellum.Proofs.TakenBack
import Vellum.Proofs.VerticalMoves
import Vellum.Proofs.CommentSpans
import Vellum.Proofs.PlainSpaces
import Vellum.Proofs.Scrolling
import Vellum.Proofs.KeyPortions
import Vellum.Proofs.Paging
import Vellum.Proofs.SeparatedWords
import Vellum.Proofs.CursorReports
import Vellum.Proofs.PaintingInPlace
import Vellum.Proofs.Sessions
