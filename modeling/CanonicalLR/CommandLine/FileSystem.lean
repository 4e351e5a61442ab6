import CanonicalLR.Text.Blank

namespace CanonicalLR.CommandLine

/-! Files in memory: a tree of directories, files and devices, and the names by
which a program in one of the directories reaches them. -/

inductive FileError where
  | notFound
  | notDirectory
  | isDirectory
  | noSpace
  | nameTooLong
  | notUtf8
  | other (text : String)
deriving DecidableEq

def FileError.message : FileError → String
  | notFound => "No such file or directory (os error 2)"
  | notDirectory => "Not a directory (os error 20)"
  | isDirectory => "Is a directory (os error 21)"
  | noSpace => "No space left on device (os error 28)"
  | nameTooLong => "File name too long (os error 36)"
  | notUtf8 => "stream did not contain valid UTF-8"
  | other text => text

/-- Nothing can be read from a device.  What is written to one is shown, lost or
refused. -/
inductive Device where
  | null
  | full
  | stdin
  | stdout
  | stderr
deriving DecidableEq

inductive Node where
  | directory
  | file (content : ByteArray)
  | device (device : Device)

/-- The directories that lead from the root to a node, and its own name. -/
abbrev Path := List String

structure FileSystem where
  nodes : List (Path × Node)
  /-- The directory that the program works in. -/
  here : Path
  /-- What the devices of standard output and standard error have shown. -/
  shown : String
  complaints : String

namespace FileSystem

def placed? (s : FileSystem) (path : Path) : Option Node :=
  (s.nodes.find? fun node => node.1 = path).map Prod.snd

/-- What is at a path.  A node brings along the directories that lead to it. -/
def node? (s : FileSystem) (path : Path) : Option Node :=
  match s.placed? path with
  | some node => some node
  | none => if s.nodes.any (path.isPrefixOf ·.1) then some .directory else none

def put (s : FileSystem) (path : Path) (node : Node) : FileSystem :=
  { s with nodes := (path, node) :: s.nodes.filter fun other => other.1 ≠ path }

@[simp] theorem placed?_put_self (s : FileSystem) (path : Path) (node : Node) :
    (s.put path node).placed? path = some node := by
  simp [placed?, put]

theorem placed?_put_other (s : FileSystem) {path other : Path} (hne : other ≠ path)
    (node : Node) : (s.put path node).placed? other = s.placed? other := by
  unfold placed? put
  rw [List.find?_cons_of_neg (by simpa using hne.symm), List.find?_filter]
  congr 2
  funext placed
  by_cases hplaced : placed.1 = other
  · simp [hplaced, hne]
  · simp [hplaced]

@[simp] theorem node?_put_self (s : FileSystem) (path : Path) (node : Node) :
    (s.put path node).node? path = some node := by
  simp [node?]

/-- The directories and devices that are always there, around a directory without
files. -/
def standard : FileSystem where
  nodes :=
    [(["tmp", "work"], .directory), (["dev", "null"], .device .null),
     (["dev", "full"], .device .full), (["dev", "stdin"], .device .stdin),
     (["dev", "stdout"], .device .stdout), (["dev", "stderr"], .device .stderr)] ++
    ["bin", "etc", "home", "lib", "opt", "proc", "root", "run", "sbin", "sys", "usr",
     "var"].map fun name => ([name], .directory)
  here := ["tmp", "work"]
  shown := ""
  complaints := ""

/-! Names are followed part by part, from the root or from where the program
works.  A single dot stays in a directory, two dots lead out of it, and the root
leads out to itself. -/

def nameParts (name : String) : List String :=
  ((Text.pieces (· = '/') name.toList).filter (· ≠ [])).map String.ofList

def start (s : FileSystem) (name : String) : Path :=
  if name.toList.head? = some '/' then [] else s.here

def partLimit : Nat := 255

def nameLimit : Nat := 4095

def child? (s : FileSystem) (directory : Path) (part : String) :
    Except FileError (Option Node) :=
  if partLimit < Text.byteLength part.toList then .error .nameTooLong
  else .ok (s.node? (directory ++ [part]))

def enter (s : FileSystem) (directory : Path) (part : String) : Except FileError Path := do
  if part = "." then return directory
  if part = ".." then return directory.dropLast
  match ← s.child? directory part with
  | some .directory => return directory ++ [part]
  | some _ => throw .notDirectory
  | none => throw .notFound

/-- The directory to look in for the last part of a name, and that part. -/
def locate (s : FileSystem) (name : String) : Except FileError (Path × String) := do
  if name = "" then throw .notFound
  if nameLimit < Text.byteLength name.toList then throw .nameTooLong
  let parts := nameParts name
  let directory ← parts.dropLast.foldlM s.enter (s.start name)
  return (directory, parts.getLast?.getD ".")

/-- Whether a name can be that of a directory only. -/
def namesDirectory (name last : String) : Bool :=
  last = "." || last = ".." || name.toList.getLast? = some '/'

def readBytes (s : FileSystem) (name : String) : Except FileError ByteArray := do
  let (directory, last) ← s.locate name
  if namesDirectory name last then
    let _ ← s.enter directory last
    throw .isDirectory
  match ← s.child? directory last with
  | some (.file content) => return content
  | some (.device _) => return .empty
  | some .directory => throw .isDirectory
  | none => throw .notFound

def read (s : FileSystem) (name : String) : Except FileError String := do
  match String.fromUTF8? (← s.readBytes name) with
  | some content => return content
  | none => throw .notUtf8

def writeDevice (s : FileSystem) (content : String) : Device → Except FileError FileSystem
  | .full => .error .noSpace
  | .stdout => .ok { s with shown := s.shown ++ content }
  | .stderr => .ok { s with complaints := s.complaints ++ content }
  | .null | .stdin => .ok s

def write (s : FileSystem) (name content : String) : Except FileError FileSystem := do
  let (directory, last) ← s.locate name
  if namesDirectory name last then throw .isDirectory
  match ← s.child? directory last with
  | some .directory => throw .isDirectory
  | some (.device device) => s.writeDevice content device
  | some (.file _) | none => return s.put (directory ++ [last]) (.file content.toUTF8)

end FileSystem
end CanonicalLR.CommandLine
