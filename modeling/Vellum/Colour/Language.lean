import Vellum.Storage.Path
import Vellum.Text.Utf8
/-! The colouring rules of a language, and the languages known by file name. -/
namespace Vellum

structure Language where
  name : String
  patterns : List String := []
  keywords : List Bytes := []
  types : List Bytes := []
  lineComment : Option Bytes := none
  blockComment : Option (Bytes × Bytes) := none
  numbers : Bool := false
  strings : Bool := false
  deriving DecidableEq, Repr

namespace Language

/-- A pattern that begins with a dot is a suffix of the file name; any other stands anywhere in it. -/
def patternMatches (fileName pattern : String) : Bool :=
  if pattern.toList.head? = some '.' then pattern.toList.isSuffixOf fileName.toList
  else occursIn pattern.toList fileName.toList

def covers (language : Language) (path : String) : Bool :=
  language.patterns.any (patternMatches ((Path.fileName? path).getD path))

def words (texts : List String) : List Bytes := texts.map Byte.ascii

def c : Language where
  name := "c"
  patterns := [".c", ".h", ".cpp", ".hpp", ".cc"]
  keywords := words [
    "auto", "break", "case", "continue", "default", "do", "else", "enum", "extern", "for", "goto",
    "if", "register", "return", "sizeof", "static", "struct", "switch", "typedef", "union",
    "volatile", "while", "NULL", "alignas", "alignof", "and", "and_eq", "asm", "bitand", "bitor",
    "class", "compl", "constexpr", "const_cast", "decltype", "delete", "dynamic_cast", "explicit",
    "export", "false", "friend", "inline", "mutable", "namespace", "new", "noexcept", "not",
    "not_eq", "nullptr", "operator", "or", "or_eq", "private", "protected", "public",
    "reinterpret_cast", "static_assert", "static_cast", "template", "this", "thread_local",
    "throw", "true", "try", "typeid", "typename", "virtual", "xor", "xor_eq"]
  types := words [
    "int", "long", "double", "float", "char", "unsigned", "signed", "void", "short", "const",
    "bool"]
  lineComment := some (Byte.ascii "//")
  blockComment := some (Byte.ascii "/*", Byte.ascii "*/")
  numbers := true
  strings := true

def rust : Language where
  name := "rust"
  patterns := [".rs"]
  keywords := words [
    "as", "async", "await", "break", "const", "continue", "crate", "dyn", "else", "enum",
    "extern", "false", "fn", "for", "if", "impl", "in", "let", "loop", "match", "mod", "move",
    "mut", "pub", "ref", "return", "self", "Self", "static", "struct", "super", "trait", "true",
    "type", "unsafe", "use", "where", "while"]
  types := words [
    "i8", "i16", "i32", "i64", "i128", "isize", "u8", "u16", "u32", "u64", "u128", "usize", "f32",
    "f64", "bool", "char", "str", "String", "Vec", "Option", "Result", "Box"]
  lineComment := some (Byte.ascii "//")
  blockComment := some (Byte.ascii "/*", Byte.ascii "*/")
  numbers := true
  strings := true

def python : Language where
  name := "python"
  patterns := [".py"]
  keywords := words [
    "and", "as", "assert", "async", "await", "break", "class", "continue", "def", "del", "elif",
    "else", "except", "finally", "for", "from", "global", "if", "import", "in", "is", "lambda",
    "nonlocal", "not", "or", "pass", "raise", "return", "try", "while", "with", "yield", "None",
    "True", "False"]
  types := words [
    "int", "float", "str", "bool", "list", "dict", "set", "tuple", "bytes", "object"]
  lineComment := some (Byte.ascii "#")
  numbers := true
  strings := true

def known : List Language := [c, rust, python]

def ofPath? (path : String) : Option Language := known.find? (·.covers path)

end Language
end Vellum
