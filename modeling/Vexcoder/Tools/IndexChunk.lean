import Vexcoder.Tools.FileOps

/-!
# Chunks of the code base

What the structural index holds: an item of a source file, with its lines, its kind and its text.
-/

namespace Vexcoder.Tools

open Base
open Lib.Search
open Lib.Files

inductive ItemKind where
  | function
  | struct
  | class_
  | interface
  | enum
  | impl
  | trait
  | module
  | const
  | static
  | typeAlias
  deriving DecidableEq

def ItemKind.label : ItemKind → String
  | .function => "function"
  | .struct => "struct"
  | .class_ => "class"
  | .interface => "interface"
  | .enum => "enum"
  | .impl => "impl"
  | .trait => "trait"
  | .module => "module"
  | .const => "const"
  | .static => "static"
  | .typeAlias => "type"

structure IndexChunk where
  path : String
  startLine : ℕ
  endLine : ℕ
  kind : ItemKind
  name : String
  parentScope : Option String
  source : String
  deriving DecidableEq

/-- `Path::extension` of a file name: what is behind its last dot, unless it starts there. -/
def extensionOf (name : String) : Option String :=
  match rfindElem '.' name.toList with
  | some (i + 1) => some (String.ofList (name.toList.drop (i + 2)))
  | _ => none

/-- `Path::extension` -/
def pathExtension (path : String) : Option String :=
  match (components path).getLast? with
  | some (.normal name) => extensionOf name
  | _ => none

example : pathExtension "src/.hidden/lib.test.rs" = some "rs" ∧ pathExtension "src/.rs" = none := by
  decide +kernel

end Vexcoder.Tools
