import CodeAtlas.Text.CodePoint

/-! The content of a disk: files, links and folders of them. -/

namespace CodeAtlas

inductive FileTree
  | file (bytes : List UInt8)
  | link (target : String)
  | folder (entries : List (String × FileTree))
  deriving Repr

namespace FileTree

instance : Inhabited FileTree := ⟨folder []⟩

def entries : FileTree → List (String × FileTree)
  | folder entries => entries
  | _ => []

def isFolder : FileTree → Bool
  | folder _ => true
  | _ => false

def child? (name : String) (t : FileTree) : Option FileTree := t.entries.lookup name

def get? : List String → FileTree → Option FileTree
  | [], t => some t
  | name :: rest, t => (t.child? name).bind (get? rest)

/-- Sets what stands under a name: in its place if the name is there, at the end otherwise. -/
def setEntry (name : String) (new : FileTree) :
    List (String × FileTree) → List (String × FileTree)
  | [] => [(name, new)]
  | (n, t) :: entries =>
    if n = name then (n, new) :: entries else (n, t) :: setEntry name new entries

def put (new : FileTree) : List String → FileTree → FileTree
  | [], _ => new
  | name :: rest, t =>
    folder (setEntry name (put new rest ((t.child? name).getD (folder []))) t.entries)

def erase : List String → FileTree → FileTree
  | [], t => t
  | [name], t => folder (t.entries.filter fun entry => entry.1 ≠ name)
  | name :: rest, t =>
    match t.child? name with
    | some below => folder (setEntry name (erase rest below) t.entries)
    | none => t

mutual

def places (above : List String) : FileTree → List (List String × FileTree)
  | folder entries => placesAll above entries
  | _ => []

def placesAll (above : List String) : List (String × FileTree) → List (List String × FileTree)
  | [] => []
  | (name, t) :: entries =>
    (above ++ [name], t) :: (places (above ++ [name]) t ++ placesAll above entries)

end

def isHidden (name : String) : Bool := name.toList.head? = some '.'

def isName (name : String) : Bool := name ≠ "" && !name.toList.contains '/'

def shownNames (entries : List (String × FileTree)) : List String :=
  (Text.sortedUnique (entries.map Prod.fst)).filter fun name => isName name && !isHidden name

end FileTree

end CodeAtlas
