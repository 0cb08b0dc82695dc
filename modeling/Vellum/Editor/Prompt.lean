import Vellum.Editor.Basic
import Vellum.Text.Utf8
/-! The prompts on the message line: for a file name, and for a text to search. -/
namespace Vellum.Editor

def showNamePrompt (e : Editor) : Editor :=
  e.notify ("Save as: " ++ Utf8.decodeLossy e.prompt ++ " (ESC to cancel)")

def askName (e : Editor) : Editor := { e with mode := .namePrompt, prompt := [] }.showNamePrompt

def abandonName (e : Editor) : Editor :=
  { e with mode := .editing, prompt := [] }.notify "Save aborted"

def showSearchPrompt (e : Editor) (query : Bytes) : Editor :=
  e.notify ("Search: " ++ Utf8.decodeLossy query ++ " (Use ESC/Arrows/Enter)")

def askQuery (e : Editor) : Editor :=
  { e with mode := .searchPrompt, search := some (.start e.cursor e.view) }.showSearchPrompt []

def endSearch (e : Editor) (search : Search) : Editor :=
  { e with document := (search.uncover e.document).2, mode := .editing, search := none }.notify ""

def abandonSearch (e : Editor) (search : Search) : Editor :=
  { e.endSearch search with cursor := search.cursor, view := search.view }

def showMatch (e : Editor) (pos : Position) : Editor :=
  { e.setPosition pos with view := { e.view with top := pos.line, left := 0 } }.aim

def continueSearch (e : Editor) (search : Search) (document : Document) : Editor :=
  let e := { e with document, search := some search }
  let e := match search.found with
    | some pos => e.showMatch pos
    | none => e
  e.showSearchPrompt search.query

def searchKey (e : Editor) (search : Search) (key : Key) : Editor :=
  match key with
  | .action .cancel | .action .interrupt => e.abandonSearch search
  | .action .enter => e.endSearch search
  | .action .arrowRight | .action .arrowDown =>
    let (search, document) := search.advance e.document .forward
    e.continueSearch search document
  | .action .arrowLeft | .action .arrowUp =>
    let (search, document) := search.advance e.document .backward
    e.continueSearch search document
  | .action .backspace | .action .delete =>
    let (search, document) := { search with query := search.query.dropLast }.refine e.document
    e.continueSearch search document
  | key =>
    match key.printable? with
    | some b =>
      let (search, document) := { search with query := search.query ++ [b] }.refine e.document
      e.continueSearch search document
    | none => e.continueSearch search e.document

end Vellum.Editor
