import Vellum.Document
import Vellum.Size
/-! The status line: file name, size and state on the left, language and position
on the right. -/
namespace Vellum.StatusBar

def nameRoom : Nat := 20

def left (doc : Document) : String :=
  String.ofList (((doc.path.getD "[No Name]").toList).take nameRoom) ++ " - " ++
    toString doc.count ++ " lines" ++ (if doc.isDirty then " (modified)" else "")

def right (doc : Document) (line : Nat) : Except Impasse String := do
  let shown ← Size.add line 1
  .ok ((doc.language.map Language.name).getD "no ft" ++ " | " ++ toString shown ++ "/" ++
    toString doc.count)

def text (doc : Document) (line width : Nat) : Except Impasse String := do
  let right ← right doc line
  let left := (left doc).toList.take width
  let room := width - left.length
  let size := right.utf8ByteSize
  if size ≤ room then
    let gap ← Size.fit (room - size)
    .ok (String.ofList (left ++ List.replicate gap ' ' ++ right.toList))
  else .ok (String.ofList (left ++ List.replicate room ' '))

end Vellum.StatusBar
