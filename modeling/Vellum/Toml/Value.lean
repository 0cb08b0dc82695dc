/-! Values and tables of TOML. A table remembers how it came about, since that
decides what may still be added to it. -/
namespace Vellum.Toml

inductive Value where
  | string (text : String)
  | integer (value : Int)
  | float (text : String)
  | boolean (value : Bool)
  | time (text : String)
  | array
  | inlineTable
  deriving DecidableEq, Repr

/-- A table has a header of its own, is only named on the way to another, or is made by a dotted key. -/
inductive Origin where
  | header
  | implied
  | dotted
  deriving DecidableEq, Repr

inductive Item where
  | value (value : Value)
  | table (origin : Origin) (entries : List (String × Item))
  | tables (elements : List (List (String × Item)))

abbrev Entries := List (String × Item)

namespace Entries

def get? (entries : Entries) (key : String) : Option Item :=
  (entries.find? fun e => e.1 == key).map Prod.snd

def set (entries : Entries) (key : String) (item : Item) : Entries :=
  if entries.any fun e => e.1 == key then
    entries.map fun e => if e.1 == key then (key, item) else e
  else entries ++ [(key, item)]

def insert? (entries : Entries) (key : String) (item : Item) : Option Entries :=
  if entries.any fun e => e.1 == key then none else some (entries ++ [(key, item)])

def updateLast (change : Entries → Option Entries) : List Entries → Option (List Entries)
  | [] => none
  | [last] => do some [← change last]
  | first :: rest => do some (first :: (← updateLast change rest))

/-- Adds an item under a dotted key. Every table on the way is new, made by a dotted key, or, but
for the last, implied; the way may also lead through the last of several tables. -/
def insertDotted? (key : String) (item : Item) : List String → Entries → Option Entries
  | [], entries => entries.insert? key item
  | name :: path, entries =>
    match entries.get? name with
    | none => do
      let inner ← insertDotted? key item path []
      some (entries.set name (.table .dotted inner))
    | some (.table .dotted inner) => do
      let inner ← insertDotted? key item path inner
      some (entries.set name (.table .dotted inner))
    | some (.table .implied inner) =>
      if path.isEmpty then none
      else do
        let inner ← insertDotted? key item path inner
        some (entries.set name (.table .implied inner))
    | some (.tables elements) =>
      if path.isEmpty then none
      else do
        let elements ← updateLast (insertDotted? key item path) elements
        some (entries.set name (.tables elements))
    | some (.table .header _) | some (.value _) => none

def descend? (change : Entries → Option Entries) : List String → Entries → Option Entries
  | [], entries => change entries
  | name :: path, entries =>
    match entries.get? name with
    | none => do
      let inner ← descend? change path []
      some (entries.set name (.table .implied inner))
    | some (.table origin inner) => do
      let inner ← descend? change path inner
      some (entries.set name (.table origin inner))
    | some (.tables elements) => do
      let elements ← updateLast (descend? change path) elements
      some (entries.set name (.tables elements))
    | some (.value _) => none

def openTable? (path : List String) (key : String) (entries : Entries) : Option Entries :=
  descend? (fun parent =>
    match parent.get? key with
    | none => some (parent.set key (.table .header []))
    | some (.table .implied inner) => some (parent.set key (.table .header inner))
    | some _ => none) path entries

def openElement? (path : List String) (key : String) (entries : Entries) : Option Entries :=
  descend? (fun parent =>
    match parent.get? key with
    | none => some (parent.set key (.tables [[]]))
    | some (.tables elements) => some (parent.set key (.tables (elements ++ [[]])))
    | some _ => none) path entries

end Entries
end Vellum.Toml
