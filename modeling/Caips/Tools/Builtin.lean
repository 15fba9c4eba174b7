/-
Caips.Tools.Builtin — the calculator, after `safe_eval` in `tools/builtin.py`.

A float is of any type, and what an operation on floats or complex numbers gives is
the interpreter's, with the texts of its exceptions. `ast.parse` is a parameter, too;
what is relied on is where it says that its nodes stand in the text. The numbers of
`safe_eval` are integers, floats and complex numbers: Python turns the power of a
negative number to a fractional exponent into one of the last.
-/
import Caips.Logic.BitLength
import Caips.Tools.Registry

namespace Caips.Tools.Builtin

open Caips.Logic

/-! ## Values -/

/-- The exceptions that `safe_eval` catches. -/
inductive ExceptionClass where
  | zeroDivisionError
  | valueError
  | overflowError
  | typeError
  deriving DecidableEq

/-- `__name__` -/
def ExceptionClass.name : ExceptionClass → String
  | .zeroDivisionError => "ZeroDivisionError"
  | .valueError => "ValueError"
  | .overflowError => "OverflowError"
  | .typeError => "TypeError"

structure Fault where
  cls : ExceptionClass
  text : String
  deriving DecidableEq

inductive Value (F : Type) where
  | int (z : ℤ)
  | float (x : F)
  | complex (re im : F)

def Value.isComplex {F : Type} : Value F → Bool
  | .complex _ _ => true
  | _ => false

/-! ## Trees -/

inductive Operator where
  | add
  | sub
  | mult
  | div
  | floorDiv
  | mod
  | pow
  | matMult
  | lShift
  | rShift
  | bitOr
  | bitXor
  | bitAnd
  deriving DecidableEq

inductive UnaryOperator where
  | uAdd
  | uSub
  | invert
  | not
  deriving DecidableEq

/-- The functions in `_FUNCS`. -/
inductive Func where
  | sqrt
  | abs
  | round
  | min
  | max
  | sin
  | cos
  | tan
  | log
  | log10
  | exp
  | floor
  | ceil
  deriving DecidableEq

inductive Constant (F : Type) where
  | int (n : ℕ)
  | float (x : F)
  /-- A string, a truth value, an imaginary number and the like. -/
  | other

/-- `ast.AST`; `len` is the length of the node's own text, as its positions give it. -/
inductive Node (F : Type) where
  | expression (body : Node F)
  | constant (len : ℕ) (value : Constant F)
  | name (len : ℕ) (id : String)
  | binOp (len : ℕ) (left : Node F) (op : Operator) (right : Node F)
  | unaryOp (len : ℕ) (op : UnaryOperator) (operand : Node F)
  | call (len : ℕ) (func : Node F) (args : List (Node F)) (keywords : Bool)
  /-- A node of another class. -/
  | other (len : ℕ)

variable {F : Type}

def Node.len : Node F → ℕ
  | .expression body => body.len
  | .constant len _ | .name len _ | .binOp len _ _ _ | .unaryOp len _ _ | .call len _ _ _ | .other len => len

/-- The parts of a node have places of their own in its text, beside its operator or
its name, and a digit of a literal has at most four bits. -/
inductive Node.Spelled : Node F → Prop
  | expression {body} (hbody : body.Spelled) : (Node.expression body).Spelled
  | int {len} {n : ℕ} (hlen : bitLength n ≤ 4 * len) : (Node.constant len (.int n)).Spelled
  | float {len x} : (Node.constant len (.float x)).Spelled
  | constant {len} : (Node.constant len .other).Spelled
  | name {len id} : (Node.name len id).Spelled
  | binOp {len left op right} (hleft : left.Spelled) (hright : right.Spelled)
      (hlen : left.len + right.len + 1 ≤ len) : (Node.binOp len left op right).Spelled
  | unaryOp {len op operand} (hoperand : operand.Spelled) (hlen : operand.len + 1 ≤ len) :
      (Node.unaryOp len op operand).Spelled
  | call {len func args keywords} (hargs : ∀ a ∈ args, a.Spelled)
      (hlen : (args.map Node.len).sum + 1 ≤ len) : (Node.call len func args keywords).Spelled
  | other {len} : (Node.other len).Spelled

/-- `ast.parse(text, mode="eval")`, for the texts that it accepts or refuses with a
`SyntaxError`, of which it gives the message. -/
structure Parser (F : Type) where
  parse : String → Except String (Node F)
  spelled : ∀ text tree, parse text = .ok tree → tree.Spelled ∧ tree.len ≤ text.length

/-! ## What the interpreter gives -/

/-- The operations on floats and complex numbers, and the texts of exceptions. -/
structure Interpreter (F : Type) where
  /-- `math.pi` -/
  pi : F
  /-- `math.e` -/
  e : F
  neg : F → F
  /-- The comparison of numbers that are not both integers. -/
  less : Value F → Value F → Bool
  /-- An operator, where its result is a float. -/
  realOp : Operator → Value F → Value F → Except Fault F
  complexOp : Operator → Value F → Value F → Except Fault (F × F)
  /-- A function, where its result is a float. -/
  realFunc : Func → List (Value F) → Except Fault F
  /-- `round`, `math.floor` and `math.ceil` of a float. -/
  whole : Func → F → Except Fault ℤ
  /-- Finite and less than zero. -/
  isNegative : F → Bool
  /-- Finite and no integer. -/
  isFractional : F → Bool
  operatorText : Operator → Value F → Value F → String
  funcText : Func → List (Value F) → String
  /-- A float is less than `2 ** 1024`. -/
  bitLength_whole : ∀ f x z, whole f x = .ok z → bitLength z ≤ 1024

namespace Interpreter

variable (I : Interpreter F)

def lt : Value F → Value F → Bool
  | .int a, .int b => a < b
  | a, b => I.less a b

def negative : Value F → Bool
  | .int a => a < 0
  | .float x => I.isNegative x
  | .complex _ _ => false

def fractional : Value F → Bool
  | .float x => I.isFractional x
  | _ => false

/-! ## Operators -/

def real (op : Operator) (a b : Value F) : Except Fault (Value F) := (I.realOp op a b).map .float

def complex (op : Operator) (a b : Value F) : Except Fault (Value F) :=
  (I.complexOp op a b).map fun c => .complex c.1 c.2

/-- An operator, where not both operands are integers. -/
def inexact (op : Operator) (a b : Value F) : Except Fault (Value F) :=
  if a.isComplex || b.isComplex then I.complex op a b else I.real op a b

/-- `operator.add`, `operator.sub` and `operator.mul` -/
def exact (op : Operator) (f : ℤ → ℤ → ℤ) : Value F → Value F → Except Fault (Value F)
  | .int a, .int b => .ok (.int (f a b))
  | a, b => I.inexact op a b

/-- `operator.floordiv` and `operator.mod` -/
def division (op : Operator) (f : ℤ → ℤ → ℤ) : Value F → Value F → Except Fault (Value F)
  | .int a, .int b =>
    if b = 0 then .error { cls := .zeroDivisionError, text := I.operatorText op (.int a) (.int b) }
    else .ok (.int (f a b))
  | a, b =>
    if a.isComplex || b.isComplex then .error { cls := .typeError, text := I.operatorText op a b }
    else I.real op a b

/-- `operator.pow` -/
def pow : Value F → Value F → Except Fault (Value F)
  | .int a, .int b => if 0 ≤ b then .ok (.int (a ^ b.toNat)) else I.real .pow (.int a) (.int b)
  | a, b => if I.negative a && I.fractional b then I.complex .pow a b else I.inexact .pow a b

/-- `_BIN` -/
def bin : Operator → Option (Value F → Value F → Except Fault (Value F))
  | .add => some (I.exact .add (· + ·))
  | .sub => some (I.exact .sub (· - ·))
  | .mult => some (I.exact .mult (· * ·))
  | .div => some (I.inexact .div)
  | .floorDiv => some (I.division .floorDiv Int.fdiv)
  | .mod => some (I.division .mod Int.fmod)
  | .pow => some I.pow
  | _ => none

/-- `operator.neg` -/
def negate : Value F → Value F
  | .int a => .int (-a)
  | .float x => .float (I.neg x)
  | .complex re im => .complex (I.neg re) (I.neg im)

/-- `_UNARY` -/
def unary : UnaryOperator → Option (Value F → Value F)
  | .uAdd => some id
  | .uSub => some I.negate
  | _ => none

/-! ## Functions -/

/-- `_FUNCS` -/
def funcs : List (String × Func) :=
  [("sqrt", .sqrt), ("abs", .abs), ("round", .round), ("min", .min), ("max", .max),
   ("sin", .sin), ("cos", .cos), ("tan", .tan), ("log", .log),
   ("log10", .log10), ("exp", .exp), ("floor", .floor), ("ceil", .ceil)]

/-- `_CONSTS` -/
def consts : List (String × F) := [("pi", I.pi), ("e", I.e)]

def typeError (f : Func) (args : List (Value F)) : Except Fault (Value F) :=
  .error { cls := .typeError, text := I.funcText f args }

/-- A function of `math` with a float as its result, of so many arguments. -/
def math (f : Func) (arities : List ℕ) (args : List (Value F)) : Except Fault (Value F) :=
  if args.length ∈ arities ∧ args.all (!·.isComplex) then (I.realFunc f args).map .float else I.typeError f args

/-- `abs` of one argument. -/
def absolute : Value F → Except Fault (Value F)
  | .int a => .ok (.int |a|)
  | x => (I.realFunc .abs [x]).map .float

/-- `int.__round__` with a second argument. -/
def roundTens (a digits : ℤ) : ℤ :=
  if 0 ≤ digits then a
  else
    let tens := 10 ^ digits.natAbs
    nearestEven ((a : ℚ) / (tens : ℤ)) * tens

/-- `round` -/
def round : List (Value F) → Except Fault (Value F)
  | [.int a] => .ok (.int a)
  | [.float x] => (I.whole .round x).map .int
  | [.int a, .int digits] => .ok (.int (roundTens a digits))
  | [.float x, .int digits] => (I.realFunc .round [.float x, .int digits]).map .float
  | args => I.typeError .round args

/-- `math.floor` and `math.ceil` -/
def toWhole (f : Func) : List (Value F) → Except Fault (Value F)
  | [.int a] => .ok (.int a)
  | [.float x] => (I.whole f x).map .int
  | args => I.typeError f args

/-- `min` and `max`; `better` says when an argument takes the place of the best so far. -/
def choose (f : Func) (better : Value F → Value F → Bool) : List (Value F) → Except Fault (Value F)
  | x :: y :: rest =>
    if (x :: y :: rest).any Value.isComplex then I.typeError f (x :: y :: rest)
    else .ok ((y :: rest).foldl (fun best item => if better item best then item else best) x)
  | args => I.typeError f args

def apply (args : List (Value F)) : Func → Except Fault (Value F)
  | .abs =>
    match args with
    | [x] => I.absolute x
    | args => I.typeError .abs args
  | .round => I.round args
  | .min => I.choose .min I.lt args
  | .max => I.choose .max (fun item best => I.lt best item) args
  | .floor => I.toWhole .floor args
  | .ceil => I.toWhole .ceil args
  | .log => I.math .log [1, 2] args
  | f => I.math f [1] args

/-! ## `safe_eval` -/

/-- `MAX_POW` -/
def maxPow : ℕ := 10000

/-- What `ev` raises. -/
inductive Raised where
  | tool (e : ToolError)
  | fault (f : Fault)
  deriving DecidableEq

def invalidArguments (message : String) : ToolError := { code := "invalid_arguments", message := message }

def onlyArithmetic : Except Raised (Value F) := .error (.tool (invalidArguments "Only arithmetic is allowed."))

/-- The look at the exponent. -/
def guardPow (op : Operator) (b : Value F) : Except Raised Unit :=
  if op = .pow then do
    let size ← (I.absolute b).mapError .fault
    if I.lt (.int maxPow) size then .error (.tool (invalidArguments "Exponent too large."))
    else .ok ()
  else .ok ()

mutual

def ev : Node F → Except Raised (Value F)
  | .expression body => ev body
  | .constant _ (.int n) => .ok (.int n)
  | .constant _ (.float x) => .ok (.float x)
  | .constant _ .other => onlyArithmetic
  | .name _ id =>
    match I.consts.lookup id with
    | some x => .ok (.float x)
    | none => onlyArithmetic
  | .binOp _ left op right =>
    match I.bin op with
    | some f => do
        let a ← ev left
        let b ← ev right
        I.guardPow op b
        (f a b).mapError .fault
    | none => onlyArithmetic
  | .unaryOp _ op operand =>
    match I.unary op with
    | some f => do
        let a ← ev operand
        .ok (f a)
    | none => onlyArithmetic
  | .call _ (.name _ id) args false =>
    match funcs.lookup id with
    | some f => do
        let values ← evArgs args
        (I.apply values f).mapError .fault
    | none => onlyArithmetic
  | .call _ _ _ _ => onlyArithmetic
  | .other _ => onlyArithmetic

def evArgs : List (Node F) → Except Raised (List (Value F))
  | [] => .ok []
  | arg :: args => do
      let a ← ev arg
      let values ← evArgs args
      .ok (a :: values)

end

variable (P : Parser F)

/-- `safe_eval` -/
def safeEval (expression : String) : Except ToolError (Value F) :=
  if 500 < expression.length then .error (invalidArguments "Expression too long.")
  else match P.parse expression with
    | .error message => .error (invalidArguments s!"Bad expression: {message}")
    | .ok tree =>
      match I.ev tree with
      | .ok value => .ok value
      | .error (.tool e) => .error e
      | .error (.fault f) => .error (invalidArguments s!"{f.cls.name}: {f.text}")

end Interpreter

end Caips.Tools.Builtin
