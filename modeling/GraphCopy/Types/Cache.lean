import GraphCopy.Types

/-!
# Descriptors looked up so far

A type is described when it is first met, and the description is kept. One
cache may serve any number of cloners.
-/

namespace GraphCopy

structure DescriptorCache where
  kept : List (TypeId × Descriptor)

namespace DescriptorCache

def empty : DescriptorCache := ⟨[]⟩

def size (c : DescriptorCache) : Nat := c.kept.length

def lookup (types : Types) (t : TypeId) (c : DescriptorCache) : Descriptor × DescriptorCache :=
  match c.kept.lookup t with
  | some d => (d, c)
  | none => (types.describe t, ⟨(t, types.describe t) :: c.kept⟩)

def summary (c : DescriptorCache) : String :=
  "DescriptorCache(" ++ toString c.size ++ " types)"

def Faithful (types : Types) (c : DescriptorCache) : Prop :=
  ∀ t d, c.kept.lookup t = some d → d = types.describe t

theorem faithful_empty (types : Types) : empty.Faithful types := by
  intro t d h
  simp [empty] at h

theorem lookup_fst {types : Types} {c : DescriptorCache} (h : c.Faithful types) (t : TypeId) :
    (c.lookup types t).1 = types.describe t := by
  unfold lookup
  cases hk : c.kept.lookup t with
  | none => rfl
  | some d => exact h t d hk

theorem faithful_lookup {types : Types} {c : DescriptorCache} (h : c.Faithful types) (t : TypeId) :
    (c.lookup types t).2.Faithful types := by
  unfold lookup
  cases hk : c.kept.lookup t with
  | some d => exact h
  | none =>
    intro s d hs
    by_cases hst : s = t
    · subst hst
      simp at hs
      exact hs.symm
    · have : (s == t) = false := by simpa using hst
      simp only [List.lookup_cons, this] at hs
      exact h s d hs

end DescriptorCache
end GraphCopy
