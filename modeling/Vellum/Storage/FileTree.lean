import Vellum.Fault
import Vellum.Size
import Vellum.Storage.Path
import Vellum.Text.Utf8
/-! A tree of files and folders with a working folder. A path is walked name by
name: what has been reached must be a folder, then the next name must be short
enough, then it must exist. -/
namespace Vellum

inductive Node where
  | file (bytes : Bytes)
  | folder
  deriving DecidableEq, Repr

abbrev Place := List String

structure FileTree where
  entries : List (Place × Node)
  here : Place
  deriving DecidableEq, Repr

namespace FileTree

def nameRoom : Nat := 255

def pathRoom : Nat := 4095

def node? (tree : FileTree) (place : Place) : Option Node :=
  if place = [] then some .folder
  else (tree.entries.find? fun e => e.1 == place).map Prod.snd

def put (tree : FileTree) (place : Place) (node : Node) : FileTree :=
  { tree with entries := (place, node) :: tree.entries.filter fun e => e.1 != place }

def needFolder (tree : FileTree) (place : Place) : Except Fault Unit :=
  match tree.node? place with
  | some .folder => .ok ()
  | some (.file _) => .error .notFolder
  | none => .error .notFound

def enter (tree : FileTree) (place : Place) (name : String) : Except Fault Place := do
  tree.needFolder place
  if name = "." then .ok place
  else if name = ".." then .ok place.dropLast
  else if nameRoom < (Utf8.encode name).length then .error .nameTooLong
  else .ok (place ++ [name])

def walk (tree : FileTree) : Place → List String → Except Fault Place
  | place, [] => .ok place
  | place, name :: rest => do tree.walk (← tree.enter place name) rest

def origin (tree : FileTree) (path : String) : Except Fault Place :=
  if path.toList.contains '\x00' then .error .nulInName
  else if path = "" then .error .notFound
  else if pathRoom < (Utf8.encode path).length then .error .nameTooLong
  else .ok (if Path.isAbsolute path then [] else tree.here)

def locate (tree : FileTree) (path : String) : Except Fault Place := do
  let place ← tree.walk (← tree.origin path) (Path.names path)
  if Path.endsInSlash path then tree.needFolder place
  .ok place

def contains (tree : FileTree) (path : String) : Bool :=
  match tree.locate path with
  | .ok place => (tree.node? place).isSome
  | .error _ => false

def read (tree : FileTree) (path : String) : Except Fault Bytes := do
  match tree.node? (← tree.locate path) with
  | some (.file bytes) => .ok bytes
  | some .folder => .error .isFolder
  | none => .error .notFound

/-- The place that a write goes to. Its folder must exist, and the path must not end in a slash,
whether or not the last name exists. -/
def target (tree : FileTree) (path : String) : Except Fault Place := do
  let start ← tree.origin path
  match (Path.names path).getLast? with
  | none => .error .isFolder
  | some last =>
    let folder ← tree.walk start (Path.names path).dropLast
    tree.needFolder folder
    if Path.endsInSlash path then .error .isFolder
    else tree.enter folder last

def write (tree : FileTree) (path : String) (bytes : Bytes) : Except Fault FileTree := do
  let place ← tree.target path
  match tree.node? place with
  | some .folder => .error .isFolder
  | _ => .ok (tree.put place (.file bytes))

theorem nodePutSame (tree : FileTree) {place : Place} (node : Node) (below : place ≠ []) :
    (tree.put place node).node? place = some node := by
  simp [node?,put,below]

theorem nodePutOther (tree : FileTree) {place other : Place} (node : Node) (apart : other ≠ place) :
    (tree.put place node).node? other = tree.node? other := by
  unfold node? put
  split
  · rfl
  · have keep : ∀ e : Place × Node, (e.1 == other) = true → (e.1 != place) = true := by
      intro e same
      simp only [beq_iff_eq] at same
      simp [same,apart]
    simp only [List.find?_cons,show (place == other) = false by simpa using Ne.symm apart]
    congr 1
    induction tree.entries with
    | nil => rfl
    | cons e rest ih =>
      by_cases same : (e.1 == other) = true
      · simp [keep e same,same]
      · by_cases kept : (e.1 != place) = true <;> simp [kept,same,ih]

theorem needFolderPut {tree : FileTree} {place folder : Place} {bytes : Bytes}
    (free : tree.node? place ≠ some .folder) (ok : tree.needFolder folder = .ok ()) :
    (tree.put place (.file bytes)).needFolder folder = .ok () := by
  unfold needFolder at ok ⊢
  cases here : tree.node? folder with
  | none => simp [here] at ok
  | some node =>
    cases node with
    | file _ => simp [here] at ok
    | folder =>
      have apart : folder ≠ place := by
        intro same
        subst same
        exact free here
      simp [nodePutOther tree (.file bytes) apart,here]

theorem enterPut {tree : FileTree} {place folder next : Place} {bytes : Bytes} {name : String}
    (free : tree.node? place ≠ some .folder) (ok : tree.enter folder name = .ok next) :
    (tree.put place (.file bytes)).enter folder name = .ok next := by
  unfold enter at ok ⊢
  cases here : tree.needFolder folder with
  | error fault => simp [here,bind,Except.bind] at ok
  | ok u =>
    rw [needFolderPut free here]
    simpa [here,bind,Except.bind] using ok

theorem walkPut {tree : FileTree} {place start next : Place} {bytes : Bytes} {names : List String}
    (free : tree.node? place ≠ some .folder) (ok : tree.walk start names = .ok next) :
    (tree.put place (.file bytes)).walk start names = .ok next := by
  induction names generalizing start with
  | nil => simpa [walk] using ok
  | cons name rest ih =>
    simp only [walk,bind,Except.bind] at ok ⊢
    cases here : tree.enter start name with
    | error fault => simp [here] at ok
    | ok middle =>
      rw [enterPut free here]
      exact ih (by simpa [here] using ok)

theorem walkAppend (tree : FileTree) (start : Place) (left right : List String) :
    tree.walk start (left ++ right) = (tree.walk start left).bind (tree.walk · right) := by
  induction left generalizing start with
  | nil => rfl
  | cons name rest ih =>
    simp only [List.cons_append,walk,bind,Except.bind]
    cases tree.enter start name with
    | error fault => rfl
    | ok middle => exact ih middle

theorem targetRoute {tree : FileTree} {path : String} {place : Place}
    (ok : tree.target path = .ok place) :
    ∃ start front last folder, tree.origin path = .ok start ∧ Path.names path = front ++ [last] ∧
      tree.walk start front = .ok folder ∧ Path.endsInSlash path = false ∧
      tree.enter folder last = .ok place := by
  unfold target at ok
  obtain ⟨start,begin,ok⟩ := bindOk ok
  split at ok
  · simp at ok
  · rename_i last ending
    obtain ⟨front,names⟩ := List.getLast?_eq_some_iff.mp ending
    obtain ⟨folder,up,ok⟩ := bindOk ok
    obtain ⟨_,_,ok⟩ := bindOk ok
    split at ok
    · simp at ok
    · rename_i plain
      exact ⟨start,front,last,folder,begin,names,by simpa [names] using up,by simpa using plain,ok⟩

theorem writeRoute {tree after : FileTree} {path : String} {bytes : Bytes}
    (ok : tree.write path bytes = .ok after) :
    ∃ place, tree.target path = .ok place ∧ tree.node? place ≠ some .folder ∧
      after = tree.put place (.file bytes) := by
  unfold write at ok
  obtain ⟨place,goal,ok⟩ := bindOk ok
  split at ok
  · simp at ok
  · rename_i free
    exact ⟨place,goal,free,(Except.ok.inj ok).symm⟩

theorem readAfterWrite {tree after : FileTree} {path : String} {bytes : Bytes}
    (ok : tree.write path bytes = .ok after) : after.read path = .ok bytes := by
  obtain ⟨place,goal,free,same⟩ := writeRoute ok
  obtain ⟨start,front,last,folder,begin,names,up,plain,final⟩ := targetRoute goal
  have below : place ≠ [] := fun root => free (by simp [node?,root])
  have origin : after.origin path = .ok start := by
    rw [same]
    exact begin
  have walked : after.walk start (Path.names path) = .ok place := by
    rw [same,names,walkAppend,walkPut free up]
    simp [Except.bind,walk,enterPut free final,bind]
  have found : after.node? place = some (.file bytes) := by
    rw [same]
    exact nodePutSame tree (.file bytes) below
  simp [read,locate,origin,walked,plain,bind,Except.bind,found]

end FileTree
end Vellum
