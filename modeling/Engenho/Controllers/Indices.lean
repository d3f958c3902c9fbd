import Engenho.Lib.FreeIndices
import Engenho.Controllers.OwnedChildren

/-!
# Children by number

Pods are named after their parent and an index. The index is read back from the name, so the names
of different indices differ (`indexed_injective`).
-/

namespace Engenho
namespace Controllers

variable (parent : String) (i : Nat)

/-- The name of the child with an index. -/
def indexed : String := parent ++ "-" ++ toString i

/-- The index of a child, by its name. An index is any natural number here: there are fewer children
than words. -/
def indexOf (child : String) : Option Nat :=
  ((parent ++ "-").toList.isPrefixOf? child.toList).bind Machine.readNat

/-- The indices that the pods have. -/
def usedIndices (parent : Option String) (owned : Items) : List Nat :=
  owned.filterMap fun e => parent.bind fun p => indexOf p e.1.name

theorem indexOf_indexed : indexOf parent (indexed parent i) = some i := by
  have hlist : (indexed parent i).toList = (parent ++ "-").toList ++ (toString i).toList := by
    rw [indexed, String.toList_append]
  have hpre : (parent ++ "-").toList.isPrefixOf? ((parent ++ "-").toList ++ (toString i).toList) =
      some (toString i).toList := List.isPrefixOf?_eq_some_iff_append_eq.mpr rfl
  rw [indexOf, hlist, hpre, Option.bind_some, Machine.readNat_toString]

theorem indexed_injective : Function.Injective (indexed parent) := by
  intro i j h
  have hi := indexOf_indexed parent i
  rw [h, indexOf_indexed] at hi
  exact (Option.some.inj hi).symm

end Controllers
end Engenho
