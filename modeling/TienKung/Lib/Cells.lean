import Mathlib.Algebra.GroupWithZero.Nat

/-!
# Cells of fixed-size arrays

An array is read with `Vector.get` and written with `put`, both at a `Fin`
index, so that no bound appears where a cell is used. The instances serve the
literals of the sizes in use.
-/

namespace Cells

instance neZero_four : NeZero 4 := ⟨by decide⟩
instance neZero_eight : NeZero 8 := ⟨by decide⟩
instance neZero_thirtyFive : NeZero 35 := ⟨by decide⟩

variable {α : Type*} {n : ℕ}

def put (v : Vector α n) (i : Fin n) (x : α) : Vector α n := v.set i x i.isLt

@[simp] theorem get_put_self (v : Vector α n) (i : Fin n) (x : α) : (put v i x).get i = x :=
  Vector.getElem_set_self i.isLt

theorem get_put_ne {i j : Fin n} (h : i ≠ j) (v : Vector α n) (x : α) :
    (put v i x).get j = v.get j :=
  Vector.getElem_set_ne i.isLt j.isLt fun he => h (Fin.ext he)

@[simp] theorem put_put (v : Vector α n) (i : Fin n) (x y : α) :
    put (put v i x) i y = put v i y := by
  simp [put]

theorem put_get (v : Vector α n) (i : Fin n) : put v i (v.get i) = v := by
  ext j hj
  by_cases h : i.val = j
  · subst h
    exact Vector.getElem_set_self i.isLt
  · exact Vector.getElem_set_ne i.isLt hj h

@[simp] theorem get_replicate (x : α) (i : Fin n) : (Vector.replicate n x).get i = x :=
  Vector.getElem_replicate i.isLt

@[simp] theorem get_ofFn (f : Fin n → α) (i : Fin n) : (Vector.ofFn f).get i = f i :=
  Vector.getElem_ofFn i.isLt

theorem drop_toList (v : Vector α n) (i : Fin n) :
    v.toList.drop i = v.get i :: v.toList.drop (i + 1) := by
  rw [List.drop_eq_getElem_cons (by simp)]
  rfl

end Cells
