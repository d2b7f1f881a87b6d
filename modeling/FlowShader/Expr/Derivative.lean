import FlowShader.Expr

namespace FlowShader.Expr

variable {L : Type} [Literal L]

def outerDerivative (u : Expr L) : Func → Expr L
  | .sin => call .cos u
  | .cos => -call .sin u
  | .tan => one / square (call .cos u)
  | .asin => one / call .sqrt (one - square u)
  | .acos => -(one / call .sqrt (one - square u))
  | .atan => one / (one + square u)
  | .sinh => call .cosh u
  | .cosh => call .sinh u
  | .tanh => one - square (call .tanh u)
  | .exp => call .exp u
  | .log => one / u
  | .log2 => one / (u * call .log (nat 2))
  | .sqrt => one / (nat 2 * call .sqrt u)
  | .abs | .floor | .ceil | .fract | .sign | .length | .normalize => zero

def lowered : Expr L → Expr L
  | literal x => literal (x - 1)
  | v => v - one

/-- The derivative of `u ^ v`, given those of `u` and `v`; logarithms appear only where the exponent
varies. -/
def powDerivative (x : String) (u v du dv : Expr L) : Expr L :=
  match u.contains x, v.contains x with
  | false, false => zero
  | true, false => v * op .pow u (lowered v) * du
  | false, true => op .pow u v * call .log u * dv
  | true, true => op .pow u v * (dv * call .log u + v * du / u)

def derivative (x : String) : Expr L → Expr L
  | literal _ | constant _ => zero
  | var v => if v == x then one else zero
  | call f u =>
    if u.contains x && f.differentiable then outerDerivative u f * u.derivative x else zero
  | call₂ f u v =>
    if u.contains x || v.contains x then
      match f with
      | .atan2 => (v * u.derivative x - u * v.derivative x) / (square v + square u)
      | .dot => u.derivative x * v + u * v.derivative x
      | .min | .max => zero
    else zero
  | op o u v =>
    match o with
    | .add => u.derivative x + v.derivative x
    | .sub => u.derivative x - v.derivative x
    | .mul => u.derivative x * v + u * v.derivative x
    | .div => (u.derivative x * v - u * v.derivative x) / square v
    | .pow => powDerivative x u v (u.derivative x) (v.derivative x)
    | .mod => u.derivative x - v.derivative x * call .floor (u / v)

end FlowShader.Expr
