import Vellum.Document
/-! Finding a text in a document. From a starting position a search goes on to the end
of its line, through the other lines round the end of the document, and last to what
it left out of its own line. Backward it goes the other way, in a walk of its own. -/
namespace Vellum

inductive Direction where
  | forward
  | backward
  deriving DecidableEq, Repr

def columnsFrom (query : Bytes) : Nat → Bytes → List Nat
  | _, [] => []
  | column, b :: rest =>
    if query.isPrefixOf (b :: rest) then column :: columnsFrom query (column + 1) rest
    else columnsFrom query (column + 1) rest

namespace Document

def columnsIn (doc : Document) (query : Bytes) (i : Nat) : List Nat :=
  columnsFrom query 0 (doc.content i)

def firstIn (doc : Document) (query : Bytes) (i : Nat) : Option Position :=
  (doc.columnsIn query i).head?.map (Position.mk i)

def lastIn (doc : Document) (query : Bytes) (i : Nat) : Option Position :=
  (doc.columnsIn query i).getLast?.map (Position.mk i)

def linesAfter (doc : Document) (i : Nat) : List Nat := List.range' (i + 1) (doc.count - (i + 1))

def walkForward (doc : Document) (query : Bytes) (inclusive : Bool) (anchor : Position) :
    Option Position :=
  let leading (column : Nat) : Bool :=
    if inclusive then anchor.column ≤ column else anchor.column < column
  let own := doc.columnsIn query anchor.line
  let others := doc.linesAfter anchor.line ++ List.range anchor.line
  ((own.find? leading).map (Position.mk anchor.line)).or <|
    (others.findSome? (doc.firstIn query)).or <|
      (own.find? (!leading ·)).map (Position.mk anchor.line)

def walkBackward (doc : Document) (query : Bytes) (inclusive : Bool) (anchor : Position) :
    Option Position :=
  let leading (column : Nat) : Bool :=
    if inclusive then column ≤ anchor.column else column < anchor.column
  let own := doc.columnsIn query anchor.line
  let others := (List.range anchor.line).reverse ++ (doc.linesAfter anchor.line).reverse
  ((own.filter leading).getLast?.map (Position.mk anchor.line)).or <|
    (others.findSome? (doc.lastIn query)).or <|
      (own.filter (!leading ·)).getLast?.map (Position.mk anchor.line)

def find (doc : Document) (query : Bytes) (anchor : Option Position) (direction : Direction)
    (inclusive : Bool) : Option Position :=
  if query.isEmpty then none
  else match anchor.filter (·.line < doc.count), direction with
    | none, .forward => (List.range doc.count).findSome? (doc.firstIn query)
    | none, .backward => (List.range doc.count).reverse.findSome? (doc.lastIn query)
    | some a, .forward => doc.walkForward query inclusive a
    | some a, .backward => doc.walkBackward query inclusive a

end Document
end Vellum
