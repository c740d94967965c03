import GraphQuery.Machine.Error

namespace GraphQuery.Value

def ofInt (n : Int) : Except RunError Value :=
  if Int64.minValue.toInt ≤ n ∧ n ≤ Int64.maxValue.toInt then .ok (integer (Int64.ofInt n)) else .error .overflow

def truth (op : Term.BinaryOp) (v : Value) : Except RunError Bool :=
  match v with
  | boolean b => .ok b
  | v => .error (.notBoolean op v)

def applyUnary : Term.UnaryOp → Value → Except RunError Value
  | .not, boolean b => .ok (boolean !b)
  | .negate, integer n => ofInt (-n.toInt)
  | .negate, float x => .ok (float (-x))
  | op, v => .error (.unaryMismatch op v)

def text : Value → String
  | string s => s
  | v => v.display

def arithmetic (op : Term.BinaryOp) (exact : Int → Int → Int) (rounded : Float → Float → Float)
    (left right : Value) : Except RunError Value :=
  match left, right with
  | integer a, integer b => ofInt (exact a.toInt b.toInt)
  | left, right =>
    match left.float?, right.float? with
    | some a, some b => .ok (float (rounded a b))
    | _, _ => .error (.mismatch op left right)

def ordered (op : Term.BinaryOp) (holds : Ordering → Bool) (left right : Value) : Except RunError Value :=
  if left.isNull || right.isNull then .ok (boolean false)
  else
    match compare? left right with
    | some o => .ok (boolean (holds o))
    | none => .error (.mismatch op left right)

def add (left right : Value) : Except RunError Value :=
  match left, right with
  | string _, _ | _, string _ => .ok (string (left.text ++ right.text))
  | list as, list bs => .ok (list (as ++ bs))
  | _, _ => arithmetic .add (· + ·) (· + ·) left right

def divide (left right : Value) : Except RunError Value :=
  match left.float?, right.float? with
  | some a, some b => if b == 0 then .error .divisionByZero else .ok (float (a / b))
  | _, _ => .error (.mismatch .divide left right)

def union (left right : Value) : Except RunError Value :=
  match left, right with
  | list as, list bs => .ok (list (dedup (as ++ bs)))
  | _, _ => .error (.mismatch .union left right)

def intersection (left right : Value) : Except RunError Value :=
  match left, right with
  | list as, list bs => .ok (list (dedup (as.filter (fun a => bs.any (a.looseEq ·)))))
  | _, _ => .error (.mismatch .intersection left right)

def applyBinary (op : Term.BinaryOp) (left right : Value) : Except RunError Value :=
  match op with
  | .equality => .ok (boolean (left.looseEq right))
  | .difference => .ok (boolean !(left.looseEq right))
  | .less => ordered op (· == .lt) left right
  | .lessOrEqual => ordered op (· != .gt) left right
  | .greater => ordered op (· == .gt) left right
  | .greaterOrEqual => ordered op (· != .lt) left right
  | .and => do
    let a ← truth op left
    let b ← truth op right
    .ok (boolean (a && b))
  | .or => do
    let a ← truth op left
    let b ← truth op right
    .ok (boolean (a || b))
  | .add => add left right
  | .subtract => arithmetic op (· - ·) (· - ·) left right
  | .multiply => arithmetic op (· * ·) (· * ·) left right
  | .divide => divide left right
  | .union => union left right
  | .intersection => intersection left right

end GraphQuery.Value
