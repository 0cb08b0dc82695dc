/-! The kinds of text that are coloured apart. -/
namespace Vellum

inductive Style where
  | plain
  | control
  | comment
  | blockComment
  | keyword
  | typeName
  | quoted
  | number
  | found
  deriving DecidableEq, Repr

end Vellum
