import NumericTower.NumericType.Lattice
import NumericTower.TypeTable.Query

/-!
# Castability

When every value of one type is a value of another without loss.
-/

namespace NumericTower.TypeTable

/-- Whether an array of length `m` can stand for one of length `n`, where 0 is any length. -/
def lengthFits (m n : Nat) : Bool :=
  n == 0 || (m != 0 && m ≤ n)

/-- Whether every value of `s` can be represented as a `t` without loss. A sum can be cast if all its
cases can, and into a sum if one of its cases accepts it; a placeholder accepts everything, and a
closure can stand for its function. -/
def isCastable (a : TypeTable) (s t : TypeId) : Bool :=
  if s = t ∨ t = .top ∨ s = .bottom then true
  else
    match _hs : a.node s, _ht : a.node t with
    | _, .placeholder .. => true
    | .numeric _, .number => true
    | .numeric x, .numeric y => x.fits y
    | .text x, .text y => x.level ≤ y.level
    | .array e m, .array f n => e = f && lengthFits m n
    | .product xs, .product ys =>
      xs.length == ys.length && (xs.zip ys).attach.all fun p => a.isCastable p.1.1 p.1.2
    | .sum cases, _ => cases.attach.all fun c => a.isCastable c.1 t
    | _, .sum cases => cases.attach.any fun c => a.isCastable s c.1
    | .closure f _, .function .. => f = t
    | _, _ => false
termination_by s.index + t.index
decreasing_by
  · have hm := List.of_mem_zip p.2
    have h1 := index_lt_of_mem_parts (a := a) (t := s) (p := p.1.1) (by rw [_hs]; exact hm.1)
    have h2 := index_lt_of_mem_parts (a := a) (t := t) (p := p.1.2) (by rw [_ht]; exact hm.2)
    omega
  · have h1 := index_lt_of_mem_parts (a := a) (t := s) (p := c.1) (by rw [_hs]; exact c.2)
    omega
  · have h2 := index_lt_of_mem_parts (a := a) (t := t) (p := c.1) (by rw [_ht]; exact c.2)
    omega

end NumericTower.TypeTable
