import GraphCopy.Value

/-!
# Storages

A slot of a record has a storage: the form in which it keeps its content.
`Storage.store` turns a value into content or says why it cannot, and
`Slot.read` turns content into a value. Own texts and own decimals make a new
shared scalar at every reading, at the place given; shared ones are passed on.

Integers that do not fit into 64 signed bits are read as decimals.
-/

namespace GraphCopy

inductive IntType
  | i8
  | i16
  | i32
  | i64
  | u8
  | u16
  | u32
  | u64
  | usize
deriving DecidableEq, Repr

namespace IntType

def least : IntType → Int
  | i8 => -Nat.pow 2 7
  | i16 => -Nat.pow 2 15
  | i32 => -Nat.pow 2 31
  | i64 => -Nat.pow 2 63
  | _ => 0

def greatest : IntType → Int
  | i8 => Nat.pow 2 7 - 1
  | i16 => Nat.pow 2 15 - 1
  | i32 => Nat.pow 2 31 - 1
  | i64 => Nat.pow 2 63 - 1
  | u8 => Nat.pow 2 8 - 1
  | u16 => Nat.pow 2 16 - 1
  | u32 => Nat.pow 2 32 - 1
  | u64 => Nat.pow 2 64 - 1
  | usize => Nat.pow 2 64 - 1

/-- Types that reach beyond 64 signed bits also take decimals. -/
def isWide : IntType → Bool
  | u64 => true
  | usize => true
  | _ => false

end IntType

inductive Cell
  | bool
  | int (t : IntType)
  | single
  | double
  | char
  | ownText
  | text
  | ownDecimal
  | decimal
  | timestamp
  | date
  | uri
  | object
  | handle (t : TypeId)
deriving DecidableEq, Repr

inductive Storage
  | required (c : Cell)
  | optional (c : Cell)
  | value
deriving DecidableEq, Repr

inductive Datum
  | bool (b : Bool)
  | int (n : Int)
  | float (x : Binary64)
  | char (c : Char)
  | ownText (s : String)
  | text (t : Shared String)
  | ownDecimal (d : Decimal)
  | decimal (d : Shared Decimal)
  | timestamp (t : Timestamp)
  | date (d : Date)
  | uri (u : Shared Uri)
  | object (r : Ref)
deriving DecidableEq

inductive Slot
  | datum (d : Datum)
  | missing
  | value (v : Value)
deriving DecidableEq

def Cell.Holds : Cell → Datum → Prop
  | .bool, .bool _ => True
  | .int t, .int n => t.least ≤ n ∧ n ≤ t.greatest
  | .single, .float x => x.toSingle = x
  | .double, .float _ => True
  | .char, .char _ => True
  | .ownText, .ownText _ => True
  | .text, .text _ => True
  | .ownDecimal, .ownDecimal _ => True
  | .decimal, .decimal _ => True
  | .timestamp, .timestamp _ => True
  | .date, .date _ => True
  | .uri, .uri _ => True
  | .object, .object _ => True
  | .handle t, .object r => r.type = t
  | _, _ => False

def Storage.Holds : Storage → Slot → Prop
  | .required c, .datum d => c.Holds d
  | .optional c, .datum d => c.Holds d
  | .optional _, .missing => True
  | .value, .value _ => True
  | _, _ => False

def Cell.declared : Cell → Declared
  | .bool => .scalar .bool
  | .int _ => .scalar .int
  | .single => .scalar .float
  | .double => .scalar .float
  | .char => .scalar .char
  | .ownText => .scalar .text
  | .text => .scalar .text
  | .ownDecimal => .scalar .decimal
  | .decimal => .scalar .decimal
  | .timestamp => .scalar .timestamp
  | .date => .scalar .date
  | .uri => .scalar .uri
  | .object => .dynamic
  | .handle t => .object t

def Storage.declared : Storage → Declared
  | .required c => c.declared
  | .optional c => c.declared
  | .value => .dynamic

def Value.ofInt (place : Place) (n : Int) : Value :=
  if IntType.i64.least ≤ n ∧ n ≤ IntType.i64.greatest then .int (Int64.ofInt n)
  else .decimal ⟨⟨n, 0⟩, place⟩

def Datum.read (place : Place) : Datum → Value
  | .bool b => .bool b
  | .int n => .ofInt place n
  | .float x => .float x
  | .char c => .char c
  | .ownText s => .text ⟨s, place⟩
  | .text t => .text t
  | .ownDecimal d => .decimal ⟨d, place⟩
  | .decimal d => .decimal d
  | .timestamp t => .timestamp t
  | .date d => .date d
  | .uri u => .uri u
  | .object r => .object r

def Slot.read (place : Place) : Slot → Value
  | .datum d => d.read place
  | .missing => .null
  | .value v => v

inductive StoreError
  /-- The value is of another kind than the storage expects. -/
  | mismatch (expected found : String)
  | anotherType (expected : String)
  | tooLarge
  | tooSmall
  /-- The text of a decimal is no natural number in range. -/
  | numeral (text : String) (e : NumeralError)
deriving DecidableEq, Repr

def StoreError.message : StoreError → String
  | .mismatch expected found => "expected " ++ expected ++ ", found " ++ found
  | .anotherType expected => "expected " ++ expected ++ ", found another type"
  | .tooLarge => "number too large to fit in target type"
  | .tooSmall => "number too small to fit in target type"
  | .numeral text e => text ++ ": " ++ e.message

def IntType.store (t : IntType) (n : Int) : Except StoreError Datum :=
  if n < t.least then .error .tooSmall
  else if t.greatest < n then .error .tooLarge
  else .ok (.int n)

def IntType.storeDecimal (t : IntType) (d : Decimal) : Except StoreError Datum :=
  match readNumeral t.greatest.toNat d.text with
  | .ok n => .ok (.int n)
  | .error e => .error (.numeral d.text e)

def Cell.store (path : TypeId → String) : Cell → Value → Except StoreError Datum
  | .bool, .bool b => .ok (.bool b)
  | .int t, .int i => t.store i.toInt
  | .int t, .decimal d =>
    if t.isWide then t.storeDecimal d.content else .error (.mismatch "Int" "Decimal")
  | .single, .float x => .ok (.float x.toSingle)
  | .double, .float x => .ok (.float x)
  | .char, .char c => .ok (.char c)
  | .ownText, .text t => .ok (.ownText t.content)
  | .text, .text t => .ok (.text t)
  | .ownDecimal, .decimal d => .ok (.ownDecimal d.content)
  | .decimal, .decimal d => .ok (.decimal d)
  | .timestamp, .timestamp t => .ok (.timestamp t)
  | .date, .date d => .ok (.date d)
  | .uri, .uri u => .ok (.uri u)
  | .object, .object r => .ok (.object r)
  | .object, v => .error (.mismatch "Object" v.kindName)
  | .handle t, .object r =>
    if r.type = t then .ok (.object r) else .error (.anotherType (path t))
  | .handle t, v => .error (.mismatch (path t) v.kindName)
  | .bool, v => .error (.mismatch "Bool" v.kindName)
  | .int _, v => .error (.mismatch "Int" v.kindName)
  | .single, v => .error (.mismatch "Float" v.kindName)
  | .double, v => .error (.mismatch "Float" v.kindName)
  | .char, v => .error (.mismatch "Char" v.kindName)
  | .ownText, v => .error (.mismatch "Text" v.kindName)
  | .text, v => .error (.mismatch "Text" v.kindName)
  | .ownDecimal, v => .error (.mismatch "Decimal" v.kindName)
  | .decimal, v => .error (.mismatch "Decimal" v.kindName)
  | .timestamp, v => .error (.mismatch "Timestamp" v.kindName)
  | .date, v => .error (.mismatch "Date" v.kindName)
  | .uri, v => .error (.mismatch "Uri" v.kindName)

def Storage.store (path : TypeId → String) : Storage → Value → Except StoreError Slot
  | .required c, v => (c.store path v).map .datum
  | .optional _, .null => .ok .missing
  | .optional c, v => (c.store path v).map .datum
  | .value, v => .ok (.value v)

/-- The content a new slot starts with; identifiers of resources and references have none. All shared
texts start as one and the same empty text. -/
def Cell.default? (place : Place) : Cell → Option Datum
  | .bool => some (.bool false)
  | .int _ => some (.int 0)
  | .single => some (.float .zero)
  | .double => some (.float .zero)
  | .char => some (.char '\x00')
  | .ownText => some (.ownText "")
  | .text => some (.text ⟨"", .initial⟩)
  | .ownDecimal => some (.ownDecimal ⟨0, 0⟩)
  | .decimal => some (.decimal ⟨⟨0, 0⟩, place⟩)
  | .timestamp => some (.timestamp .epoch)
  | .date => some (.date .epoch)
  | .uri => none
  | .object => none
  | .handle _ => none

def Storage.default? (place : Place) : Storage → Option Slot
  | .required c => (c.default? place).map .datum
  | .optional _ => some .missing
  | .value => some (.value .null)

end GraphCopy
