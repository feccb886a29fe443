import GraphCopy.Options.Environment
import GraphCopy.Options.Yaml.Token

/-!
# Nodes of a YAML document

A scalar without quotes and without a tag is what its text reads as. An alias
stands for the node of its anchor, if that is complete. The nodes in a mapping
are keys and values by turns, where an unreadable node cannot be a key and is
passed over as one; no two keys of a mapping are equal.
-/

namespace GraphCopy.Yaml

inductive Node
  | null
  | flag (b : Bool)
  | integer (n : Int)
  | real (s : String)
  | text (s : String)
  /-- A scalar that its tag does not fit, or an alias within its own anchor. -/
  | unreadable
  | sequence (items : List Node)
  | mapping (entries : List (Node × Node))

namespace Node

def isSpecialReal (s : String) : Bool :=
  [".inf", ".Inf", ".INF", "+.inf", "+.Inf", "+.INF", "-.inf", "-.Inf", "-.INF", ".nan", ".NaN",
   ".NAN"].contains s

def isReal (s : String) : Bool :=
  isSpecialReal s || (s.toList.any (fun c => (digitValue? c).isSome) && (Binary64.ofText? s).isSome)

def integerInBase? (base : Nat) (cs : List Char) : Option Int := do
  let (neg, ds) := match cs with
    | '-' :: cs => (true, cs)
    | '+' :: cs => (false, cs)
    | cs => (false, cs)
  let ds ← ds.mapM Json.hexValue?
  let n : Int := (ds.foldl (fun n d => n * base + d) 0 : Nat)
  let n := if neg then -n else n
  if !ds.isEmpty && ds.all (· < base) && -Nat.pow 2 63 ≤ n && n < Nat.pow 2 63 then pure n else none

def markedInteger? : List Char → Option Int
  | '0' :: 'x' :: ds => integerInBase? 16 ds
  | '0' :: 'o' :: ds => integerInBase? 8 ds
  | '+' :: cs => integerOfText? (String.ofList cs)
  | _ => none

def ofPlain (s : String) : Node :=
  match markedInteger? s.toList, integerOfText? s with
  | some n, _ => .integer n
  | none, some n => .integer n
  | none, none =>
    if s = "" ∨ s = "~" ∨ s = "null" then .null
    else if s = "true" then .flag true
    else if s = "false" then .flag false
    else if isReal s then .real s
    else .text s

def ofTagged (t : Tag) (s : String) : Node :=
  if t.handle = "tag:yaml.org,2002:" then
    match t.suffix with
    | "bool" => if s = "true" then .flag true else if s = "false" then .flag false else .unreadable
    | "int" => ((integerOfText? s).map Node.integer).getD .unreadable
    | "float" => if isReal s then .real s else .unreadable
    | "null" => if s = "~" ∨ s = "null" then .null else .unreadable
    | _ => .text s
  else .text s

def ofScalar (plain : Bool) (tag : Option Tag) (s : String) : Node :=
  if plain then
    match tag with
    | some t => ofTagged t s
    | none => ofPlain s
  else .text s

def sameScalar : Node → Node → Bool
  | null, null => true
  | flag a, flag b => a == b
  | integer a, integer b => a == b
  | real a, real b => a == b
  | text a, text b => a == b
  | _, _ => false

end Node

structure Pairs where
  entries : List (Node × Node)
  key : Option Node

namespace Pairs

def empty : Pairs := ⟨[], none⟩

def give? (p : Pairs) (n : Node) : Option Pairs :=
  match p.key, n with
  | none, .unreadable => some p
  | none, n => some { p with key := some n }
  | some k, n =>
    if p.entries.any fun e => e.1.sameScalar k then none else some ⟨p.entries ++ [(k, n)], none⟩

end Pairs

structure Source where
  tokens : List Token
  names : List (String × Nat)
  nodes : List (Nat × Node)

abbrev NodeReader := StateT Source Option

namespace NodeReader

def fail {α : Type} : NodeReader α := fun _ => none

def peek : NodeReader (Option Token) := do pure (← get).tokens.head?

def skip : NodeReader Unit := modify fun s => { s with tokens := s.tokens.tail }

def nextIn (ts : List Token) : NodeReader Bool := do pure ((← peek).any ts.contains)

def register (name : String) : NodeReader Nat := do
  let n := (← get).names.length
  modify fun s => { s with names := (name, n) :: s.names }
  pure n

def complete (anchor : Option Nat) (node : Node) : NodeReader Node := do
  match anchor with
  | some n => modify fun s => { s with nodes := (n, node) :: s.nodes }
  | none => pure ()
  pure node

def give (p : Pairs) (n : Node) : NodeReader Pairs := fun s => (p.give? n).map (·, s)

/-- What the handle of a tag stands for. A handle with a mark of its own has to be declared, save that
of the standard types. -/
def resolve (handles : List (String × String)) (t : Tag) : NodeReader Tag :=
  match handles.lookup t.handle with
  | some start => pure { t with handle := start }
  | none =>
    if t.handle = "!!" then pure { t with handle := "tag:yaml.org,2002:" }
    else if isClosed t.handle.toList then fail
    else pure t

def properties (handles : List (String × String)) : NodeReader (Option Nat × Option Tag) := do
  match ← peek with
  | some (.anchor name) => do
    skip
    let n ← register name
    match ← peek with
    | some (.tag t) => do
      skip
      pure (some n, some (← resolve handles t))
    | _ => pure (some n, none)
  | some (.tag t) => do
    skip
    let t ← resolve handles t
    match ← peek with
    | some (.anchor name) => do
      skip
      pure (some (← register name), some t)
    | _ => pure (none, some t)
  | _ => pure (none, none)

def aliased (name : String) : NodeReader Node := do
  match (← get).names.lookup name with
  | some n => pure (((← get).nodes.lookup n).getD .unreadable)
  | none => fail

mutual

/-- A node. A block collection is read only if `block` is set, a sequence that is not indented only if
`loose` is. A node that is missing after an anchor or a tag is an empty scalar. -/
def node (handles : List (String × String)) : Nat → Bool → Bool → NodeReader Node
  | 0, _, _ => fail
  | fuel + 1, block, loose => do
    match ← peek with
    | some (.alias name) => do
      skip
      aliased name
    | _ => do
      let (anchor, tag) ← properties handles
      match ← peek with
      | some (.scalar plain text) => do
        skip
        complete anchor (.ofScalar plain tag text)
      | some .flowSequence => do
        skip
        complete anchor (.sequence (← flowItems handles fuel true))
      | some .flowMapping => do
        skip
        complete anchor (.mapping (← flowPairs handles fuel true .empty))
      | some .blockSequence => do
        if !block then fail
        skip
        complete anchor (.sequence (← blockItems handles fuel))
      | some .blockMapping => do
        if !block then fail
        skip
        complete anchor (.mapping (← blockPairs handles fuel .empty))
      | t =>
        if loose && t == some .blockEntry then do
          complete anchor (.sequence (← looseItems handles fuel))
        else if anchor.isSome || tag.isSome then complete anchor (.ofScalar true tag "")
        else fail

def nodeUnless (handles : List (String × String)) :
    Nat → List Token → Bool → Bool → NodeReader Node
  | 0, _, _, _ => fail
  | fuel + 1, ends, block, loose => do
    if ← nextIn ends then pure .null else node handles fuel block loose

def blockItems (handles : List (String × String)) : Nat → NodeReader (List Node)
  | 0 => fail
  | fuel + 1 => do
    match ← peek with
    | some .blockEnd => do
      skip
      pure []
    | some .blockEntry => do
      skip
      let n ← nodeUnless handles fuel [.blockEntry, .blockEnd] true false
      pure (n :: (← blockItems handles fuel))
    | _ => fail

def looseItems (handles : List (String × String)) : Nat → NodeReader (List Node)
  | 0 => fail
  | fuel + 1 => do
    match ← peek with
    | some .blockEntry => do
      skip
      let n ← nodeUnless handles fuel [.blockEntry, .key, .value, .blockEnd] true false
      pure (n :: (← looseItems handles fuel))
    | _ => pure []

def blockPairs (handles : List (String × String)) : Nat → Pairs → NodeReader (List (Node × Node))
  | 0, _ => fail
  | fuel + 1, p => do
    let ends := [Token.key, .value, .blockEnd]
    match ← peek with
    | some .blockEnd => do
      skip
      pure p.entries
    | some .key => do
      skip
      let p ← give p (← nodeUnless handles fuel ends true true)
      let p ← give p (← valueUnless handles fuel ends true)
      blockPairs handles fuel p
    | some .value => do
      let p ← give p .null
      let p ← give p (← valueUnless handles fuel ends true)
      blockPairs handles fuel p
    | _ => fail

def valueUnless (handles : List (String × String)) : Nat → List Token → Bool → NodeReader Node
  | 0, _, _ => fail
  | fuel + 1, ends, block => do
    if ← nextIn [.value] then do
      skip
      nodeUnless handles fuel ends block block
    else pure .null

def flowPairs (handles : List (String × String)) :
    Nat → Bool → Pairs → NodeReader (List (Node × Node))
  | 0, _, _ => fail
  | fuel + 1, first, p => do
    let ends := [Token.flowEntry, .flowMappingEnd]
    if ← nextIn [.flowMappingEnd] then do
      skip
      pure p.entries
    else do
      if !first then
        if ← nextIn [.flowEntry] then skip else fail
      match ← peek with
      | some .flowMappingEnd => do
        skip
        pure p.entries
      | some .key => do
        skip
        let p ← give p (← nodeUnless handles fuel (.value :: ends) false false)
        let p ← give p (← valueUnless handles fuel ends false)
        flowPairs handles fuel false p
      | some .value => do
        let p ← give p .null
        let p ← give p (← valueUnless handles fuel ends false)
        flowPairs handles fuel false p
      | _ => do
        let p ← give p (← node handles fuel false false)
        let p ← give p .null
        flowPairs handles fuel false p

def flowItems (handles : List (String × String)) : Nat → Bool → NodeReader (List Node)
  | 0, _ => fail
  | fuel + 1, first => do
    let ends := [Token.flowEntry, .flowSequenceEnd]
    if ← nextIn [.flowSequenceEnd] then do
      skip
      pure []
    else do
      if !first then
        if ← nextIn [.flowEntry] then skip else fail
      match ← peek with
      | some .flowSequenceEnd => do
        skip
        pure []
      | some .key => do
        skip
        let key ← if ← nextIn (.value :: ends) then do
            skip
            pure Node.null
          else node handles fuel false false
        let p ← give .empty key
        let p ← give p (← valueUnless handles fuel ends false)
        pure (.mapping p.entries :: (← flowItems handles fuel false))
      | _ => do
        let n ← node handles fuel false false
        pure (n :: (← flowItems handles fuel false))

end

/-- The directives before a document. The handle of the last one counts, if that is a tag. -/
def directives : Nat → Bool → List (String × String) → NodeReader (List (String × String))
  | 0, _, _ => fail
  | fuel + 1, versioned, handles => do
    match ← peek with
    | some (.directive .version) => do
      if versioned then fail
      skip
      directives fuel true []
    | some (.directive (.tag handle start)) => do
      skip
      directives fuel versioned [(handle, start)]
    | _ => pure handles

def marked (fuel : Nat) (handles : List (String × String)) : NodeReader Node := do
  match ← peek with
  | none => pure .null
  | some .documentStart => pure .null
  | some .documentEnd => pure .null
  | some (.directive _) => pure .null
  | _ => node handles fuel true false

def documents : Nat → Bool → NodeReader (List Node)
  | 0, _ => fail
  | fuel + 1, bare => do
    match ← peek with
    | none => pure []
    | some .documentEnd => do
      skip
      documents fuel true
    | some t => do
      modify fun s => { s with names := [], nodes := [] }
      let isMarked := match t with
        | .documentStart => true
        | .directive _ => true
        | _ => false
      let root ← if isMarked then do
          let handles ← directives fuel false []
          if ← nextIn [.documentStart] then do
            skip
            marked fuel handles
          else fail
        else if bare then node [] fuel true false
        else fail
      let ended ← nextIn [.documentEnd]
      if ended then skip
      else
        match ← peek with
        | some (.directive _) => fail
        | _ => pure ()
      pure (root :: (← documents fuel ended))

end NodeReader

def documents? (s : String) : Option (List Node) := do
  let ts ← tokens? s
  let (roots, _) ← (NodeReader.documents (4 * ts.length + 4) true).run ⟨ts, [], []⟩
  pure roots

end GraphCopy.Yaml
