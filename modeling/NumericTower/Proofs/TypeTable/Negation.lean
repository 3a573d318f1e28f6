import Mathlib
import NumericTower.Proofs.Number.ResultType
import NumericTower.Proofs.NumericType.Promotion
import NumericTower.Proofs.TypeTable.Promotion
import NumericTower.Proofs.TypeTable.Sum

/-!
# Types of negations

The negation of a natural number is in the narrowest integer type that holds the naturals of its type. The static
type of a negation is that integer type for a natural type, and the type of the operand for all other types. For
a sum this is the sum itself, whose cases need not take up the integers that its natural cases are negated to.

## Key results
- `Number.type_negate`: the type of a negated natural number
- `TypeTable.Canonical.isCastable_sum_iff_takes`: when a numeric type can be cast to a sum
- `TypeTable.negation_covers_cases_unless_sum_takes_no_integers`: all of it for reachable tables
-/

namespace NumericTower

/-! ### Negated naturals -/

theorem NumericType.kind_makeSigned {t : NumericType} (hk : t.kind = .nat) : t.makeSigned.kind = .int := by
  rw [makeSigned_eq_widen hk, kind_widen]

/-- The signed type of a natural type holds its values negated. -/
theorem NumericType.holds_makeSigned_neg {t : NumericType} {z : Int} (hk : t.kind = .nat) (hz : t.Holds z) :
    t.makeSigned.Holds (-z) := by
  have hnonneg : 0 ≤ z := by
    rw [Holds, hk] at hz
    exact hz.1
  rw [makeSigned_eq_widen hk]
  refine holds_widen hz hz rfl (fun h => absurd rfl h) fun w _ hw hrange _ hgrow => ?_
  obtain rfl := Option.some.inj hgrow
  refine ⟨hw, fun _ => ?_⟩
  obtain ⟨-, hlt⟩ := hrange hw
  exact ⟨Int.neg_le_neg hlt.le, by omega⟩

/-- The negation of a natural number is of the signed type of its type. -/
theorem Number.type_negate {v : Number} (hk : v.type.kind = .nat) : v.negate.type = v.type.makeSigned := by
  have hwidth : v.type.makeSigned.width = 0 ∨ v.type.makeSigned ∈ NumericType.fixed .int := by
    rw [NumericType.makeSigned_eq_widen hk]
    exact NumericType.width_widen
  cases v with
  | nat w n =>
    have hn : (Number.nat w n).type.Holds n.value := holds_of_toInt? trivial rfl
    exact type_integer (NumericType.kind_makeSigned hk) hwidth (NumericType.holds_makeSigned_neg hk hn)
  | bigNat z => rfl
  | int | bigInt | ratio | bigRatio | real32 | real64 | bigReal => exact nomatch hk

/-! ### Casts into sums -/

/-- Whether a type that is no sum takes up all numbers of a numeric type. -/
def TypeNode.Takes (x : NumericType) : TypeNode → Prop
  | .numeric y => x.fits y = true
  | .number | .placeholder .. => True
  | _ => False

namespace TypeTable

variable {a b c : TypeTable} {r s t n : TypeId} {x y : NumericType} {cases : List TypeId}

namespace Canonical

theorem isCastable_iff_takes (ha : a.Canonical) (hs : a.node s = .numeric x) (htop : t ≠ .top)
    (hsum : ∀ inner, a.node t ≠ .sum inner) : a.isCastable s t = true ↔ (a.node t).Takes x := by
  by_cases hst : s = t
  · rw [← hst, hs]
    exact iff_of_true (isCastable_refl a s) (NumericType.fits_refl x)
  · have hbottom : s ≠ .bottom := ha.ne_of_node_ne rfl (by rw [hs]; nofun)
    rw [isCastable_eq_castNodes hst hbottom htop, hs]
    cases ht : a.node t with
    | sum inner => exact absurd ht (hsum inner)
    | _ => simp [castNodes, TypeNode.Takes]

/-- A numeric type can be cast to a sum if one of the cases takes it up. -/
theorem isCastable_sum_iff_takes (ha : a.Canonical) (hs : a.node s = .numeric x)
    (ht : a.node t = .sum cases) :
    a.isCastable s t = true ↔ ∃ d ∈ cases, (a.node d).Takes x := by
  have hst : s ≠ t := by
    rintro rfl
    exact nomatch hs.symm.trans ht
  have hbottom : s ≠ .bottom := ha.ne_of_node_ne rfl (by rw [hs]; nofun)
  have htop : t ≠ .top := ha.ne_of_node_ne rfl (by rw [ht]; nofun)
  have hcast : a.isCastable s t = cases.any (a.isCastable s) := by
    rw [isCastable_eq_castNodes hst hbottom htop, hs, ht]
    rfl
  rw [hcast, List.any_eq_true]
  refine exists_congr fun d => and_congr_right fun hd => ha.isCastable_iff_takes hs ?_ (ha.flat ht hd)
  -- The top type is no case of a sum.
  rintro rfl
  exact (ha.sums _ _ (getElem?_of_node_sum ht)).top_notMem hd

/-- The handle of a stored numeric type is returned again. -/
theorem numeric_eq (ha : a.Canonical) (h : a.node t = .numeric x) : (TypeTable.numeric x a).1 = t := by
  have hext := extends_numeric a x
  have ht : a.Holds t := holds_of_node_ne_top (by simp [h])
  obtain ⟨hb, hheld⟩ := ha.issues_numeric x
  refine hb.eq_of_node_eq hheld (hext.holds ht) ?_
  rw [ha.node_numeric, hext.node_eq ht, h]

end Canonical

/-! ### Negation -/

/-- The signed counterpart of a natural type. -/
theorem makeSigned_of_nat (h : a.node t = .numeric x) (hk : x.kind = .nat) :
    makeSigned t a = numeric x.makeSigned a := by
  simp [makeSigned, numericType?, h, hk]

/-- The signed counterpart of a type that is not natural. -/
theorem makeSigned_of_not_nat (h : ∀ x, a.node t = .numeric x → x.kind ≠ .nat) : makeSigned t a = (t, a) := by
  rw [makeSigned, numericType?]
  split
  · next x hx =>
    split at hx
    · next y hy =>
      obtain rfl := Option.some.inj hx
      rw [if_neg (h _ hy)]
    · exact nomatch hx
  · rfl

/-- The negation of a type that is no placeholder is of its signed counterpart. -/
theorem makeSigned_of_unaryResult? (hp : a.isPlaceholder t = false)
    (h : unaryResult? .neg t a = (some r, b)) : makeSigned t a = (r, b) := by
  rw [unaryResult?, hp, if_neg Bool.false_ne_true] at h
  split at h
  · exact nomatch h
  · obtain ⟨hr, hb⟩ := Prod.mk.inj (show (some (makeSigned t a).1, (makeSigned t a).2) = (some r, b) from h)
    exact Prod.ext (Option.some.inj hr) hb

theorem supportsUnary_commonOps {op : UnaryOp} {s : OpSet} {ops : List OpSet}
    (h : ∀ o ∈ s :: ops, o.supportsUnary op = true) : (commonOps (s :: ops)).supportsUnary op = true := by
  induction ops generalizing s with
  | nil => exact h s List.mem_cons_self
  | cons o ops ih =>
    refine ih (s := s.inter o) fun o' ho' => ?_
    rcases List.mem_cons.mp ho' with rfl | ho'
    · rw [OpSet.supportsUnary_inter, h s List.mem_cons_self, h o (.tail _ List.mem_cons_self)]
      rfl
    · exact h o' (.tail _ (.tail _ ho'))

theorem supportedOps_numeric (h : a.node t = .numeric x) : a.supportedOps t = .numeric := by
  rw [supportedOps.eq_def]
  split <;> simp_all

theorem supportedOps_sum (h : a.node t = .sum cases) :
    a.supportedOps t = commonOps (cases.map a.supportedOps) := by
  rw [supportedOps.eq_def]
  split <;> simp_all

/-- The static type of the negation of a sum of numeric types is the sum. -/
theorem unaryResult?_neg_sum (h : a.node t = .sum (s :: cases))
    (hcases : ∀ d ∈ s :: cases, ∃ x, a.node d = .numeric x) : unaryResult? .neg t a = (some t, a) := by
  have hops : (a.supportedOps t).supportsUnary .neg = true := by
    rw [supportedOps_sum h]
    refine supportsUnary_commonOps fun o ho => ?_
    rw [← List.map_cons] at ho
    obtain ⟨d, hd, rfl⟩ := List.mem_map.mp ho
    obtain ⟨x, hx⟩ := hcases d hd
    rw [supportedOps_numeric hx]
    rfl
  have hp : a.isPlaceholder t = false := by rw [isPlaceholder, h]
  have hsigned : makeSigned t a = (t, a) := makeSigned_of_not_nat fun x hx => nomatch h.symm.trans hx
  rw [unaryResult?, hp, hops]
  show (some (makeSigned t a).1, (makeSigned t a).2) = (some t, a)
  rw [hsigned]

theorem extends_makeSigned (t : TypeId) (a : TypeTable) : a.Extends (makeSigned t a).2 := by
  rw [makeSigned]
  split
  · split
    · exact extends_numeric a _
    · exact .refl a
  · exact .refl a

theorem Canonical.issues_makeSigned (ha : a.Canonical) (ht : a.Holds t) : Issues (makeSigned t a) := by
  rw [makeSigned]
  split
  · split
    · exact ha.issues_numeric _
    · exact ⟨ha, ht⟩
  · exact ⟨ha, ht⟩

theorem IsCase.holds (ht : a.Holds t) (h : a.IsCase t n) : a.Holds n := by
  rcases h with ⟨cases, hnode, hmem⟩ | ⟨-, -, rfl⟩
  · exact ht.of_mem_parts (by rwa [hnode])
  · exact ht

/-- The signed counterpart of a type is the same in all later tables. -/
theorem Canonical.makeSigned_eq (hc : c.Canonical) (ha : a.Canonical) (ht : a.Holds t)
    (hext : (makeSigned t a).2.Extends c) : (makeSigned t c).1 = (makeSigned t a).1 := by
  have hnode : c.node t = a.node t := ((extends_makeSigned t a).trans hext).node_eq ht
  by_cases hnat : ∃ x, a.node t = .numeric x ∧ x.kind = .nat
  · -- The integer type has been stored, so it is found again.
    obtain ⟨x, hx, hk⟩ := hnat
    have hheld := (ha.issues_makeSigned ht).2
    rw [makeSigned_of_nat (hnode.trans hx) hk]
    refine hc.numeric_eq ?_
    rw [hext.node_eq hheld, makeSigned_of_nat hx hk, ha.node_numeric]
  · have hnot : ∀ x, a.node t = .numeric x → x.kind ≠ .nat := fun x hx hk => hnat ⟨x, hx, hk⟩
    rw [makeSigned_of_not_nat hnot, makeSigned_of_not_nat (by rwa [hnode])]

/-- A sum has a natural case and no case that takes up the integers which the naturals are negated to. -/
def TakesNoIntegers (a : TypeTable) (t n : TypeId) : Prop :=
  ∃ cases x, a.node t = .sum cases ∧ a.node n = .numeric x ∧ x.kind = .nat ∧
    ∀ d ∈ cases, ¬(a.node d).Takes x.makeSigned

theorem Extends.takesNoIntegers_iff (h : a.Extends b) (ht : a.Holds t) (hn : a.Holds n) :
    b.TakesNoIntegers t n ↔ a.TakesNoIntegers t n := by
  rw [TakesNoIntegers, TakesNoIntegers, h.node_eq ht, h.node_eq hn]
  refine exists_congr fun cases => exists_congr fun x => and_congr_right fun hsum => ?_
  have hcases : ∀ d ∈ cases, b.node d = a.node d := fun d hd => h.node_eq (ht.of_mem_parts (by rwa [hsum]))
  simp +contextual only [hcases]

/-- The signed counterpart of a case of a sum can be cast to the sum unless this is a natural one and no case
takes up the integers. -/
theorem Canonical.isCastable_makeSigned_iff (ha : a.Canonical) (ht : a.node t = .sum cases) (hn : n ∈ cases) :
    (makeSigned n a).2.isCastable (makeSigned n a).1 t = true ↔ ¬a.TakesNoIntegers t n := by
  have hheld : a.Holds t := holds_of_getElem? (getElem?_of_node_sum ht)
  have hparts : ∀ d ∈ cases, a.Holds d := fun d hd => hheld.of_mem_parts (by rwa [ht])
  by_cases hnat : ∃ x, a.node n = .numeric x ∧ x.kind = .nat
  · obtain ⟨x, hx, hk⟩ := hnat
    have hext := extends_numeric a x.makeSigned
    rw [makeSigned_of_nat hx hk, (ha.issues_numeric _).1.isCastable_sum_iff_takes (ha.node_numeric _)
      ((hext.node_eq hheld).trans ht)]
    constructor
    · rintro ⟨d, hd, htakes⟩ ⟨cases', x', ht', hx', -, hnone⟩
      obtain rfl := TypeNode.sum.inj (ht.symm.trans ht')
      obtain rfl := TypeNode.numeric.inj (hx.symm.trans hx')
      exact hnone d hd (hext.node_eq (hparts d hd) ▸ htakes)
    · intro hnone
      by_contra! hall
      exact hnone ⟨cases, x, ht, hx, hk, fun d hd htakes =>
        hall d hd ((hext.node_eq (hparts d hd)).symm ▸ htakes)⟩
  · have hnot : ∀ x, a.node n = .numeric x → x.kind ≠ .nat := fun x hx hk => hnat ⟨x, hx, hk⟩
    rw [makeSigned_of_not_nat hnot]
    refine iff_of_true (ha.isCastable_of_castRule (.intoSum ht hn (isCastable_refl a n))) ?_
    rintro ⟨-, x, -, hx, hk, -⟩
    exact hnot x hx hk

theorem isPlaceholder_eq_false (ha : a.Canonical)
    (h : a.isNumeric t = true ∨ ∃ cases, a.node t = .sum cases) : a.isPlaceholder t = false := by
  rw [isPlaceholder]
  rcases h with h | ⟨cases, h⟩
  · rw [isNumeric, Bool.or_eq_true, decide_eq_true_iff] at h
    rcases h with rfl | h
    · rw [ha.node_of_isReserved rfl]
      rfl
    · rw [numericType?] at h
      split at h
      · next hn => rw [hn]
      · exact nomatch h
  · rw [h]

/-- In every table that calls of builders make, let a numeric type or a sum have a static type of its negation.
The signed counterpart of each case, a numeric type being the only case of itself, can be cast to the static type
in every later table, unless the case is a natural one of a sum that has no case which takes up the integers. For
a natural case the counterpart is the type of the negation of each of its values. -/
theorem negation_covers_cases_unless_sum_takes_no_integers (ha : a.Reachable) (ht : a.Holds t)
    (hnode : a.isNumeric t = true ∨ ∃ cases, a.node t = .sum cases)
    (hr : unaryResult? .neg t a = (some r, b)) (hb : b.GrowsTo c) (hn : a.IsCase t n) :
    ((makeSigned n c).2.isCastable (makeSigned n c).1 r = true ↔ ¬a.TakesNoIntegers t n) ∧
    ∀ v : Number, a.node n = .numeric v.type → v.type.kind = .nat →
      (makeSigned n c).2.node (makeSigned n c).1 = .numeric v.negate.type := by
  have hsigned := makeSigned_of_unaryResult? (isPlaceholder_eq_false ha.canonical hnode) hr
  have hext : a.Extends b := by
    have h := extends_makeSigned t a
    rwa [hsigned] at h
  have hcanonical : b.Canonical := (hsigned ▸ ha.canonical.issues_makeSigned ht).1
  have hc := hb.canonical hcanonical
  have hac := hext.trans hb.extends
  constructor
  · rcases hn with ⟨cases, hsum, hmem⟩ | ⟨hnot, -, rfl⟩
    · -- The negation of a sum is the sum.
      rw [makeSigned_of_not_nat fun x hx => nomatch hsum.symm.trans hx] at hsigned
      obtain ⟨rfl, rfl⟩ := Prod.mk.inj hsigned
      have hheld : a.Holds n := ht.of_mem_parts (by rwa [hsum])
      rw [hc.isCastable_makeSigned_iff ((hac.node_eq ht).trans hsum) hmem, hac.takesNoIntegers_iff ht hheld]
    · have heq := hc.makeSigned_eq ha.canonical ht (hsigned ▸ hb.extends)
      rw [heq, hsigned]
      refine iff_of_true (isCastable_refl _ r) ?_
      rintro ⟨cases, x, hsum, -⟩
      exact hnot cases hsum
  · intro v hv hk
    have hnode : c.node n = .numeric v.type := (hac.node_eq (hn.holds ht)).trans hv
    rw [makeSigned_of_nat hnode hk, hc.node_numeric, Number.type_negate hk]

/-- The sum of the naturals of 16 and the integers of 32 bits: those naturals are negated to integers of 32 bits,
which the second case takes up. -/
theorem negation_covers_cases_unless_sum_takes_no_integers_int32 :
    let a : TypeTable := [BuilderCall.numeric ⟨.nat, 16, by decide⟩, .numeric ⟨.int, 32, by decide⟩,
      .sum [⟨14⟩, ⟨15⟩]].foldl (fun a c => (c.run a).2) initial
    a.Reachable ∧ unaryResult? .neg ⟨16⟩ a = (some ⟨16⟩, a) ∧
      (makeSigned ⟨14⟩ a).2.isCastable (makeSigned ⟨14⟩ a).1 ⟨16⟩ = true := by
  intro a
  have ha : a.Reachable :=
    ((GrowsTo.refl.call (.numeric ⟨.nat, 16, by decide⟩) ⟨by decide, fun _ _ h => nomatch h⟩).call
      (.numeric ⟨.int, 32, by decide⟩) ⟨by decide, fun _ _ h => nomatch h⟩).call
      (.sum [⟨14⟩, ⟨15⟩]) ⟨by decide, fun _ _ h => nomatch h⟩
  have hsum : a.node ⟨16⟩ = .sum [⟨14⟩, ⟨15⟩] := by decide
  have hr : unaryResult? .neg ⟨16⟩ a = (some ⟨16⟩, a) := by
    refine unaryResult?_neg_sum hsum fun d hd => ?_
    rcases List.mem_pair.mp hd with rfl | rfl <;> exact ⟨_, rfl⟩
  have htakes : ¬a.TakesNoIntegers ⟨16⟩ ⟨14⟩ := by
    rintro ⟨cases, x, hsum', hx, -, hnone⟩
    obtain rfl := TypeNode.sum.inj (hsum.symm.trans hsum')
    obtain rfl := TypeNode.numeric.inj ((rfl : a.node ⟨14⟩ = .numeric ⟨.nat, 16, by decide⟩).symm.trans hx)
    exact hnone ⟨15⟩ (by decide) (show NumericType.fits _ ⟨.int, 32, by decide⟩ = true by decide)
  have hcovers := negation_covers_cases_unless_sum_takes_no_integers (n := ⟨14⟩) ha (by decide)
    (.inr ⟨_, hsum⟩) hr .refl (.inl ⟨_, hsum, by decide⟩)
  exact ⟨ha, hr, hcovers.1.mpr htakes⟩

/-- The negation of the sum of the naturals of 16 and of 32 bits is the sum itself, but those of 16 bits are
negated to integers of 32 bits, which cannot be cast to it. -/
theorem negation_of_sum_of_naturals_is_natural :
    let a : TypeTable := [BuilderCall.numeric ⟨.nat, 16, by decide⟩, .numeric ⟨.nat, 32, by decide⟩,
      .sum [⟨14⟩, ⟨15⟩]].foldl (fun a c => (c.run a).2) initial
    a.Reachable ∧ unaryResult? .neg ⟨16⟩ a = (some ⟨16⟩, a) ∧ a.isCastable ⟨14⟩ ⟨16⟩ = true ∧
      (makeSigned ⟨14⟩ a).2.node (makeSigned ⟨14⟩ a).1 = .numeric ⟨.int, 32, by decide⟩ ∧
      (makeSigned ⟨14⟩ a).2.isCastable (makeSigned ⟨14⟩ a).1 ⟨16⟩ = false := by
  intro a
  have ha : a.Reachable :=
    ((GrowsTo.refl.call (.numeric ⟨.nat, 16, by decide⟩) ⟨by decide, fun _ _ h => nomatch h⟩).call
      (.numeric ⟨.nat, 32, by decide⟩) ⟨by decide, fun _ _ h => nomatch h⟩).call
      (.sum [⟨14⟩, ⟨15⟩]) ⟨by decide, fun _ _ h => nomatch h⟩
  have hsum : a.node ⟨16⟩ = .sum [⟨14⟩, ⟨15⟩] := by decide
  refine ⟨ha, unaryResult?_neg_sum hsum fun d hd => ?_, ?_, by decide, ?_⟩
  · rcases List.mem_pair.mp hd with rfl | rfl <;> exact ⟨_, rfl⟩
  · exact ha.canonical.isCastable_of_castRule (.intoSum hsum (by decide) (isCastable_refl a _))
  · rw [← castWithin_eq _ (fun _ _ => true) (n := 40) (by decide)]
    decide

end TypeTable

end NumericTower
