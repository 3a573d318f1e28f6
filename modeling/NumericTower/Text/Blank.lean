/-!
# Blank characters

The characters of Unicode's `White_Space` property and the trimming of a text at both ends.
-/

namespace NumericTower.Text

/-- The code points of Unicode's `White_Space` property. -/
def isBlank (c : Char) : Bool :=
  let n := c.toNat
  (0x09 ≤ n && n ≤ 0x0d) || n == 0x20 || n == 0x85 || n == 0xa0 || n == 0x1680 ||
    (0x2000 ≤ n && n ≤ 0x200a) || n == 0x2028 || n == 0x2029 || n == 0x202f || n == 0x205f ||
    n == 0x3000

/-- Removes the blanks at the front. -/
def trimFront (cs : List Char) : List Char :=
  cs.dropWhile isBlank

/-- Removes the blanks at both ends; blanks inside stay. -/
def trim (cs : List Char) : List Char :=
  (trimFront (trimFront cs).reverse).reverse

/-- Without blanks there is nothing to remove. -/
theorem trim_eq_self {cs : List Char} (h : ∀ c ∈ cs, isBlank c = false) : trim cs = cs := by
  have hfront : ∀ ds : List Char, (∀ c ∈ ds, isBlank c = false) → trimFront ds = ds := by
    intro ds hds
    cases ds with
    | nil => rfl
    | cons d ds => simp [trimFront, hds d List.mem_cons_self]
  rw [trim, hfront cs h, hfront cs.reverse fun c hc => h c (List.mem_reverse.1 hc), List.reverse_reverse]

end NumericTower.Text
