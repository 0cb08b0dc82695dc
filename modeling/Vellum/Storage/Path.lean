import Vellum.Byte
/-! Paths are text with `/` between names. Slashes may be doubled; a slash at the
end says that a folder is meant. -/
namespace Vellum.Path

def names (path : String) : List String :=
  ((pieces '/' path.toList).map String.ofList).filter (· != "")

def isAbsolute (path : String) : Bool := path.toList.head? == some '/'

def endsInSlash (path : String) : Bool := path.toList.getLast? == some '/'

def fileName? (path : String) : Option String :=
  match ((names path).filter (· != ".")).getLast? with
  | some n => if n = ".." then none else some n
  | none => none

end Vellum.Path
