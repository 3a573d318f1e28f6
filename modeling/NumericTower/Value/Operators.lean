import NumericTower.Number.Arithmetic
import NumericTower.Value.Basic

/-!
# Operators on values

Equality is decided component by component in a product; components of unrelated kinds are unequal. All
other operators are those of truth values, texts and numbers.
-/

namespace NumericTower.Value

mutual

/-- Whether two values are equal, whatever their representations. Values of unrelated kinds are not compared. -/
def equal : Value → Value → Except OpError Bool
  | .unit, .unit => .ok true
  | .bool a, .bool b => .ok (a == b)
  | .type a, .type b => .ok (a == b)
  | .product xs, .product ys => if xs.length = ys.length then equalAll xs ys else .ok false
  | .str _ a, .str _ b => .ok (a == b)
  | .number a, .number b => .ok (a.compare? b == some .eq)
  | _, _ => .error .undefined

/-- Whether two lists are equal one by one, as far as the first components that are not. Components of unrelated
kinds are not equal; any other error is passed on. -/
def equalAll : List Value → List Value → Except OpError Bool
  | x :: xs, y :: ys =>
    match x.equal y with
    | .ok true => equalAll xs ys
    | .ok false => .ok false
    | .error .undefined => .ok false
    | .error e => .error e
  | _, _ => .ok true

end

/-- Whether two values are not equal. No number is not equal to any, itself included. -/
def unequal (l r : Value) : Except OpError Bool :=
  match l, r with
  | .number a, .number b => .ok (a.compare? b != some .eq)
  | l, r => (l.equal r).map (!·)

/-- Whether an ordering operator holds for two numbers in the given order. It holds for no numbers that
have none. -/
def orderingHolds (op : BinaryOp) (order : Option Ordering) : Option Bool :=
  match op with
  | .lt => some (order == some .lt)
  | .le => some (order == some .lt || order == some .eq)
  | .gt => some (order == some .gt)
  | .ge => some (order == some .gt || order == some .eq)
  | _ => none

/-- The texts one after the other, ASCII if both are. -/
def concat (v : TextTag) (a : String) (w : TextTag) (b : String) : Value :=
  .str (if v = .ascii ∧ w = .ascii then .ascii else .utf8) (a ++ b)

/-- The result of an operator that is no equality. -/
def binaryOther (op : BinaryOp) (l r : Value) (p : Nat) : Except OpError Value :=
  match l, r with
  | .bool a, .bool b =>
    match op with
    | .and => .ok (.bool (a && b))
    | .or => .ok (.bool (a || b))
    | _ => .error .undefined
  | .str v a, .str w b => if op = .concat then .ok (concat v a w b) else .error .undefined
  | .number a, .number b =>
    -- Equality has been decided already; of the other logical operators numbers have those of order.
    if op.isLogic then
      match orderingHolds op (a.compare? b) with
      | some holds => .ok (.bool holds)
      | none => .error .undefined
    else (Number.arithmetic op a b p).map .number
  | _, _ => .error .undefined

/-- The result of `l op r`. An unbounded real result has at least precision `p`. -/
def binaryOp (op : BinaryOp) (l r : Value) (p : Nat) : Except OpError Value :=
  if op = .eq then (l.equal r).map .bool
  else if op = .ne then (l.unequal r).map .bool
  else binaryOther op l r p

/-- The result of `op v`. -/
def unaryOp (op : UnaryOp) (v : Value) : Except OpError Value :=
  match op, v with
  | .not, .bool b => .ok (.bool (!b))
  | .neg, .number n => .ok (.number n.negate)
  | _, _ => .error .undefined

end NumericTower.Value
