import GraphCopy.Copy.Strategy
import GraphCopy.Identity
import GraphCopy.Immutability
import GraphCopy.Options.Assignment

/-!
# Copying a graph of objects

`cloneValue` copies a value and everything that is reachable from it. For an
object the order is fixed: objects of immutable types are shared, an object
met before has its recorded copy, then the first strategy that is meant for it
is used, and at last a new instance is made and filled field by field. A copy
is recorded before it is filled, so that cycles end.

Recorded copies and what has been found out about types stay after an error;
a copying session that goes on after an error sees them. A journal notes what
was asked for, begun, recorded and answered.
-/

namespace GraphCopy

structure Setting where
  types : Types
  options : CopyOptions
  sharing : SharingRules
  strategies : Registry

/-- Why copying stops. A copy that goes deeper than there are objects is cut off; this does not happen
to sources that are not changed while they are copied. -/
inductive Halt
  | failed (e : CopyError)
  | cutOff
deriving DecidableEq, Repr

inductive Event
  | asked (source : Ref)
  /-- It begins to be duplicated, while `depth` others are in the course of it. -/
  | opened (source : Ref) (depth : Nat)
  /-- A copy is recorded for it, which is yet to be filled. -/
  | recorded (source copy : Ref)
  | answered (source : Ref) (answer : Except Halt Ref)

/-- What changes while a cloner copies. The latest event of the journal comes first. -/
structure CopyState where
  heap : Heap
  known : Knowledge
  memo : Memo
  journal : List Event

def CopyState.note (s : CopyState) (e : Event) : CopyState := { s with journal := e :: s.journal }

abbrev CopyM := ExceptT Halt (StateM CopyState)

namespace CopyM

def fail {α : Type} (e : CopyError) : CopyM α := throw (.failed e)

def learn {α : Type} (f : Knowledge → α × Knowledge) : CopyM α := do
  let s ← get
  let (a, known) := f s.known
  set { s with known }
  pure a

def look : CopyM (Heap × Nat) := do
  let s ← get
  set { s with heap := s.heap.tick }
  pure (s.heap, s.heap.clock)

def make (o : Object) : CopyM Ref := do
  let s ← get
  let (r, heap) := s.heap.alloc o
  set { s with heap }
  pure r

def realize : Shell → CopyM Ref
  | .existing r => pure r
  | .fresh o => make o
  | .part o next => do realize (next (← make o))

def register (source copy : Ref) : CopyM Unit :=
  modify fun s => { s with memo := s.memo.put source copy }.note (.recorded source copy)

def answering (source : Ref) (work : CopyM Ref) : CopyM Ref := fun s =>
  let (answer, s) := work (s.note (.asked source))
  (answer, s.note (.answered source answer))

variable {α β : Type} (s : CopyState)

@[simp] theorem pure_apply (a : α) : (pure a : CopyM α) s = (.ok a, s) := rfl

theorem bind_apply (x : CopyM α) (f : α → CopyM β) : (x >>= f) s =
    match x s with
    | (.ok a, s') => f a s'
    | (.error e, s') => (.error e, s') := by
  change ExceptT.bindCont f (x s).1 (x s).2 = _
  cases x s with
  | mk a s' => cases a <;> rfl

@[simp] theorem fail_apply (e : CopyError) : (fail e : CopyM α) s = (.error (.failed e), s) := rfl

@[simp] theorem get_apply : (get : CopyM CopyState) s = (.ok s, s) := rfl

@[simp] theorem modify_apply (f : CopyState → CopyState) :
    (modify f : CopyM PUnit) s = (.ok ⟨⟩, f s) := rfl

@[simp] theorem learn_apply (f : Knowledge → α × Knowledge) :
    learn f s = (.ok (f s.known).1, { s with known := (f s.known).2 }) := rfl

@[simp] theorem look_apply :
    look s = (.ok (s.heap, s.heap.clock), { s with heap := s.heap.tick }) := rfl

@[simp] theorem make_apply (o : Object) :
    make o s = (.ok (s.heap.alloc o).1, { s with heap := (s.heap.alloc o).2 }) := rfl

@[simp] theorem register_apply (source copy : Ref) :
    register source copy s =
      (.ok ⟨⟩, { s with memo := s.memo.put source copy }.note (.recorded source copy)) := rfl

end CopyM

def Script.run (types : Types) (copy : Value → CopyM Value) : Script → CopyM Unit
  | .done => pure ()
  | .fail e => CopyM.fail e
  | .look next => do
    let (h, tick) ← CopyM.look
    (next h tick).run types copy
  | .describe t next => do
    let d ← CopyM.learn (Knowledge.describe types t)
    (next d).run types copy
  | .make o next => do
    let r ← CopyM.make o
    (next r).run types copy
  | .put target o next => do
    modify fun s => { s with heap := s.heap.put target o }
    next.run types copy
  | .copy v next => fun s =>
    match copy v s with
    | (.ok c, s) => (next (.ok c)).run types copy s
    | (.error (.failed e), s) => (next (.error e)).run types copy s
    | (.error .cutOff, s) => (.error .cutOff, s)

namespace Setting

def describe (c : Setting) (t : TypeId) : CopyM Descriptor :=
  CopyM.learn (Knowledge.describe c.types t)

def isImmutable (c : Setting) (d : Descriptor) : CopyM Bool :=
  CopyM.learn (c.sharing.isImmutable c.types d)

def isMeantFor (c : Setting) (s : Strategy) (r : Ref) : CopyM Bool :=
  match s.guard with
  | .immutableType => CopyM.learn (c.sharing.isImmutableRef c.types r)
  | .holds p => do pure (p c.types (← get).heap r)

def findStrategy (c : Setting) (r : Ref) : Registry → CopyM (Option Strategy)
  | [] => pure none
  | s :: rest => do if ← c.isMeantFor s r then pure (some s) else c.findStrategy r rest

def instantiateBy (c : Setting) (s : Strategy) (source : Ref) : CopyM Ref := do
  let (h, tick) ← CopyM.look
  match s.shell c.types h tick source with
  | .ok shell => CopyM.realize shell
  | .error e => CopyM.fail e

/-- How a type without constructors is instantiated: through a serialized form, by sharing the source,
which makes no instance, or not at all. -/
def fallbackShell (c : Setting) (d : Descriptor) (tick : Nat) (o : Object) :
    Except CopyError (Option Object) :=
  let bare := "no accessible no-arg or copy constructor"
  let attempt : Except String Object :=
    if c.options.serializationFallback then
      match d.roundTrip with
      | none => .error (bare ++ "; serialization fallback failed: type is not serializable")
      | some trip =>
        match trip tick o with
        | .ok shell => .ok shell
        | .error e => .error (bare ++ "; serialization fallback failed: " ++ e)
    else .error bare
  match attempt with
  | .ok shell => .ok (some shell)
  | .error cause =>
    if c.options.shareSource then .ok none
    else .error (.instantiation d.name cause)

def structuralShell (c : Setting) (d : Descriptor) (tick : Nat) (o : Object) :
    Except CopyError (Option Object) :=
  match d.construct with
  | some construct => .ok (some (construct tick))
  | none =>
    match d.copyConstruct.bind (fun copy => copy o) with
    | some shell => .ok (some shell)
    | none => c.fallbackShell d tick o

def copyField (typeName : String) (source target : Ref) (f : Field) (next : Script) : Script :=
  .look fun h tick =>
    match h.get? source with
    | none => next
    | some o =>
      match f.get o tick with
      | .error cause => .fail (.fieldAccess typeName f.name cause)
      | .ok v => .copyOrFail v fun copy =>
        .edit target (fun t => (f.set t copy).mapError (.fieldAccess typeName f.name)) next

def copyFields (d : Descriptor) (source target : Ref) : Script :=
  Script.each (copyField d.name source target) d.instanceFields

def complete (c : Setting) (copy : Value → CopyM Value) (source target : Ref) (script : Script) :
    CopyM Ref := do
  CopyM.register source target
  script.run c.types copy
  pure target

/-- Copies by making an instance and copying its fields. A shared source is recorded as its own copy and
is not filled. -/
def copyByStructure (c : Setting) (copy : Value → CopyM Value) (d : Descriptor) (source : Ref) :
    CopyM Ref := do
  let (h, tick) ← CopyM.look
  match h.get? source with
  | none => pure source
  | some o =>
    match c.structuralShell d tick o with
    | .error e => CopyM.fail e
    | .ok none => do
      CopyM.register source source
      pure source
    | .ok (some shell) => do
      let target ← CopyM.make shell
      c.complete copy source target (copyFields d source target)

def copyByStrategy (c : Setting) (copy : Value → CopyM Value) (strategies : Registry)
    (source : Ref) : CopyM (Option Ref) := do
  match ← c.findStrategy source strategies with
  | none => pure none
  | some s =>
    let target ← c.instantiateBy s source
    return some (← c.complete copy source target (s.fill c.types source target))

def duplicate (c : Setting) (copy : Value → CopyM Value) (depth : Nat) (d : Descriptor)
    (source : Ref) : CopyM Ref := do
  modify fun s => s.note (.opened source depth)
  match ← c.copyByStrategy copy c.strategies source with
  | some target => pure target
  | none => c.copyByStructure copy d source

/-- Copies an object while `depth` objects are in the course of being copied; `copy` copies what it
refers to. -/
def resolve (c : Setting) (copy : Value → CopyM Value) (depth : Nat) (source : Ref) :
    CopyM Ref := do
  let d ← c.describe source.type
  if ← c.isImmutable d then pure source
  else
    match (← get).memo.get? source with
    | some known => pure known
    | none =>
      match c.options.maxDepth with
      | some limit =>
        if limit ≤ depth then CopyM.fail (.depthExceeded limit)
        else c.duplicate copy depth d source
      | none => c.duplicate copy depth d source

def cloneRefWith (c : Setting) (copy : Value → CopyM Value) (depth : Nat) (source : Ref) :
    CopyM Ref :=
  CopyM.answering source (c.resolve copy depth source)

def cloneWithin (c : Setting) : Nat → Nat → Value → CopyM Value
  | 0, _, .object _ => throw .cutOff
  | fuel + 1, depth, .object r => do
    return .object (← c.cloneRefWith (c.cloneWithin fuel (depth + 1)) depth r)
  | _, _, v => pure v

/-- Copies a value. Nested copies are of different objects of the heap as it is when copying starts. -/
def cloneValue (c : Setting) (v : Value) : CopyM Value := do
  c.cloneWithin ((← get).heap.size + 1) 0 v

def cloneRef (c : Setting) (r : Ref) : CopyM Ref := do
  match ← c.cloneValue (.object r) with
  | .object copy => pure copy
  | _ => CopyM.fail (.instantiation (c.types.name r.type) "copy is not an object")

def cloneHandle (c : Setting) (r : Ref) : CopyM Ref := do
  let copy ← c.cloneRef r
  if copy.type = r.type then pure copy
  else CopyM.fail (.instantiation (c.types.info r.type).path "copy has a different type")

def tryClone (c : Setting) (strategies : Registry) (source : Ref) : CopyM (Option Ref) :=
  c.copyByStrategy c.cloneValue strategies source

def populateBy (c : Setting) (s : Strategy) (source target : Ref) : CopyM Unit :=
  (s.fill c.types source target).run c.types c.cloneValue

end Setting
end GraphCopy
