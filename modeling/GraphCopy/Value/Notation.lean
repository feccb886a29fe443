import GraphCopy.Value.Storage

/-!
# Names of storages

The written form of a storage: the name of its cell, with `opt_` before it
when it is optional. Cells that hold objects of one type name that type after a
colon.
-/

namespace GraphCopy

def plainCells : List (String × Cell) :=
  [("bool", .bool), ("i8", .int .i8), ("i16", .int .i16), ("i32", .int .i32), ("i64", .int .i64),
   ("u8", .int .u8), ("u16", .int .u16), ("u32", .int .u32), ("u64", .int .u64),
   ("usize", .int .usize), ("f32", .single), ("f64", .double), ("char", .char),
   ("string", .ownText), ("text", .text), ("decimal", .ownDecimal), ("arc_decimal", .decimal),
   ("timestamp", .timestamp), ("date", .date), ("uri", .uri), ("obj", .object)]

def afterStart? (start s : String) : Option String :=
  if start.toList.isPrefixOf s.toList then some (String.ofList (s.toList.drop start.length)) else none

def Cell.ofText? (type? : String → Option TypeId) (s : String) : Option Cell :=
  match afterStart? "handle:" s with
  | some name => (type? name).map .handle
  | none => plainCells.lookup s

def Storage.ofText? (type? : String → Option TypeId) (s : String) : Option Storage :=
  if s = "value" then some .value
  else
    match afterStart? "opt_" s with
    | some cell => (Cell.ofText? type? cell).map .optional
    | none => (Cell.ofText? type? s).map .required

def Declared.ofText? (type? : String → Option TypeId) (s : String) : Option Declared :=
  match afterStart? "Object:" s with
  | some name => (type? name).map .object
  | none => (Storage.ofText? type? s).map Storage.declared

end GraphCopy
