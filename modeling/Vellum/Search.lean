import Vellum.Finding
import Vellum.Viewport
/-! A running search: what is looked for, the match it stands on, the styles that
the match covers, and where the editor was before. -/
namespace Vellum

structure Cursor where
  line : Nat
  column : Nat
  wanted : Nat
  deriving DecidableEq, Repr

structure Search where
  query : Bytes
  found : Option Position
  covered : Option (Nat × List Style)
  cursor : Cursor
  view : Viewport
  deriving DecidableEq, Repr

namespace Search

def start (cursor : Cursor) (view : Viewport) : Search := ⟨[], none, none, cursor, view⟩

def uncover (search : Search) (doc : Document) : Search × Document :=
  match search.covered with
  | none => (search, doc)
  | some (i, styles) =>
    ({ search with covered := none },
      { doc with lines := doc.lines.modify i fun line =>
          if line.styles.length = styles.length then { line with styles } else line })

def cover (search : Search) (doc : Document) (pos : Position) : Search × Document :=
  match doc.lines[pos.line]? with
  | none => (search, doc)
  | some line =>
    let first := line.shownColumn doc.tabStop pos.column
    let last := min (line.shownColumn doc.tabStop (pos.column + search.query.length))
      line.styles.length
    ({ search with covered := some (pos.line, line.styles) },
      doc.overlay pos.line first (List.replicate (last - first) .found))

def run (search : Search) (doc : Document) (direction : Direction) (inclusive : Bool) :
    Search × Document :=
  let (search, doc) := search.uncover doc
  let found := doc.find search.query search.found direction inclusive
  let search := { search with found }
  match found with
  | none => (search, doc)
  | some pos => search.cover doc pos

def refine (search : Search) (doc : Document) : Search × Document := search.run doc .forward true

def advance (search : Search) (doc : Document) (direction : Direction) : Search × Document :=
  search.run doc direction false

end Search
end Vellum
