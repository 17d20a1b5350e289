import Lisp.Files

/-! File trees: a working directory given by what is in it, and the files that paths lead to from there. A
path is followed name by name. It can leave the tree, but nothing is known of what is outside. -/

namespace Lisp

inductive FileNode
  | file (bytes : ByteArray)
  /-- A file of zero bytes. -/
  | zeros (size : Nat)
  | directory

abbrev FileTree := List (List String × FileNode)

inductive FilePlace
  | inside (names : List String)
  | outside

namespace FileTree

def notDirectory : FileFault := .unreadable (Files.systemReason 20 "")

def nameTooLong : FileFault := .unreadable (Files.systemReason 36 "")

def maxNameLength : Nat := 255

def maxPathLength : Nat := 4095

variable (tree : FileTree)

/-- What is found at a place. A place that others are inside of is a directory. -/
def node? : FilePlace → Option FileNode
  | .outside => some .directory
  | .inside names =>
    match tree.find? fun entry => entry.1 == names with
    | some entry => some entry.2
    | none =>
      if names.isEmpty || tree.any fun entry => names.isPrefixOf entry.1 then some .directory else none

def isDirectory (place : FilePlace) : Bool :=
  match tree.node? place with
  | some .directory => true
  | _ => false

/-- Follows one name of a path, which has to be looked up in a directory. -/
def enter (place : FilePlace) (name : String) : Except FileFault FilePlace :=
  if !tree.isDirectory place then .error notDirectory
  else if name = "" || name = "." then .ok place
  else if name = ".." then
    match place with
    | .inside [] | .outside => .ok .outside
    | .inside names => .ok (.inside names.dropLast)
  else if maxNameLength < name.utf8ByteSize then .error nameTooLong
  else
    match place with
    | .outside => .error .missing
    | .inside names =>
      let inner := FilePlace.inside (names ++ [name])
      if (tree.node? inner).isSome then .ok inner else .error .missing

def splitPath (name : List Char) : List Char → List String
  | [] => [String.ofList name.reverse]
  | '/' :: cs => String.ofList name.reverse :: splitPath [] cs
  | c :: cs => splitPath (c :: name) cs

def resolve (path : String) : Except FileFault FileNode := do
  if '\x00' ∈ path.toList then .error (.unreadable Files.nulInPath)
  else if path = "" then .error .missing
  else if maxPathLength < path.utf8ByteSize then .error nameTooLong
  else
    let start := if path.toList.head? = some '/' then FilePlace.outside else .inside []
    let place ← (splitPath [] path.toList).foldlM tree.enter start
    match tree.node? place with
    | some node => .ok node
    | none => .error .missing

/-- The files of a tree. A directory has a size, but no content that can be read. -/
def files : Files where
  size path := do
    match ← tree.resolve path with
    | .file bytes => .ok bytes.size
    | .zeros size => .ok size
    | .directory => .ok 0
  content path :=
    match tree.resolve path with
    | .ok (.file bytes) => .ok bytes
    | .ok (.zeros size) => .ok ⟨Array.replicate size 0⟩
    | .ok .directory => .error (Files.systemReason 21 "")
    | .error _ => .error ""

end FileTree

end Lisp
