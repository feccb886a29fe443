import GraphCopy.Copy.Cloner
import GraphCopy.Graph.Reachable

/-!
# Cloners

A cloner has options, rules of sharing and strategies, and remembers its
verdicts on types. Every operation works on a heap and a cache of
descriptors, which several cloners may share, and gives them back.
-/

namespace GraphCopy

structure Cloner where
  options : CopyOptions
  sharing : SharingRules
  strategies : Registry
  verdicts : Verdicts

namespace Cloner

def create (options : CopyOptions) : Cloner := ⟨options, .plain, .builtin, []⟩

def mark (c : Cloner) (t : TypeId) : Cloner :=
  { c with sharing := c.sharing.mark t, verdicts := [] }

def addRule (c : Cloner) (r : Rule) : Cloner :=
  { c with sharing := c.sharing.addRule r, verdicts := [] }

def addStrategy (c : Cloner) (s : Strategy) (p : Priority) : Cloner :=
  { c with strategies := c.strategies.register s p }

def summary (c : Cloner) : String :=
  "Classifier \x7b well_known: " ++ toString c.sharing.marked.length ++ ", rules: "
    ++ toString c.sharing.rules.length ++ ", verdicts: " ++ toString c.verdicts.length ++ " \x7d"

def setting (c : Cloner) (types : Types) : Setting :=
  { types, options := c.options, sharing := c.sharing, strategies := c.strategies }

def scene (c : Cloner) (types : Types) (heap : Heap) : Scene :=
  { types, sharing := c.sharing, heap }

def learn {α : Type} (c : Cloner) (cache : DescriptorCache) (f : Knowledge → α × Knowledge) :
    α × Cloner × DescriptorCache :=
  let (a, known) := f ⟨cache, c.verdicts⟩
  (a, { c with verdicts := known.verdicts }, known.cache)

structure Aftermath where
  heap : Heap
  cloner : Cloner
  cache : DescriptorCache
  memo : Memo
  journal : List Event

def perform {α : Type} (c : Cloner) (types : Types) (heap : Heap) (cache : DescriptorCache)
    (memo : Memo) (work : Setting → CopyM α) : Except Halt α × Aftermath :=
  let (result, s) := work (c.setting types) ⟨heap, ⟨cache, c.verdicts⟩, memo, []⟩
  (result, ⟨s.heap, { c with verdicts := s.known.verdicts }, s.known.cache, s.memo, s.journal⟩)

/-- Copies a value and everything in its reach, with nothing recorded before. -/
def deepClone (c : Cloner) (types : Types) (heap : Heap) (cache : DescriptorCache) (v : Value) :
    Except Halt Value × Aftermath :=
  c.perform types heap cache .empty fun s => s.cloneValue v

end Cloner
end GraphCopy
