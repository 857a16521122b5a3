/-!
# Reading decimal numbers

The accepted texts are an optional sign followed by `inf`, `infinity` or `nan` in any case, or by
digits with at most one point and at least one digit, and an optional exponent of `e` or `E`, an
optional sign and digits. The value is the floating-point number nearest to the written decimal.
Whole numbers are read with their own rules: an optional plus sign, digits, and a bound.
-/

namespace Formulary.Reader

/-- The value of a decimal digit. -/
def digit? (c : Char) : Option Nat :=
  if '0' ≤ c ∧ c ≤ '9' then some (c.toNat - '0'.toNat) else none

/-- The leading decimal digits and the rest. -/
def spanDigits : List Char → List Nat × List Char
  | [] => ([], [])
  | c :: rest =>
    match digit? c with
    | some d => let (ds, tail) := spanDigits rest; (d :: ds, tail)
    | none => ([], c :: rest)

/-- The number written by decimal digits, most significant first. -/
def ofDigits (ds : List Nat) : Nat :=
  ds.foldl (fun n d => 10 * n + d) 0

/-- Remove a leading sign; the flag tells a minus. -/
def splitSign : List Char → Bool × List Char
  | '-' :: rest => (true, rest)
  | '+' :: rest => (false, rest)
  | rest => (false, rest)

/-- An exponent part up to the end of the text; no text means zero. -/
def exponent? : List Char → Option Int
  | [] => some 0
  | c :: rest =>
    if c = 'e' ∨ c = 'E' then
      let (negative, body) := splitSign rest
      match spanDigits body with
      | ([], _) => none
      | (ds, []) => some (if negative then -(ofDigits ds : Int) else ofDigits ds)
      | (_, _ :: _) => none
    else none

/-- The floating-point number nearest to `m · 10 ^ e`.

Beyond the largest power of ten in range the answer is an infinity, and below the smallest it is
zero; both are settled before any power is computed. -/
def nearest (m : Nat) (e : Int) : Float :=
  if m = 0 then 0.0
  else
    let top : Int := (toString m).length + e
    if 310 < top then 1.0 / 0.0
    else if top < -330 then 0.0
    else
      match e with
      | .ofNat p => Float.ofScientific m false p
      | .negSucc p => Float.ofScientific m true (p + 1)

/-- The magnitude written by an unsigned decimal text. -/
def magnitude? (cs : List Char) : Option Float :=
  let (whole, afterWhole) := spanDigits cs
  let (fraction, tail) :=
    match afterWhole with
    | '.' :: rest => spanDigits rest
    | rest => ([], rest)
  if whole.isEmpty && fraction.isEmpty then none
  else (exponent? tail).map fun e => nearest (ofDigits (whole ++ fraction)) (e - fraction.length)

/-- The floating-point number written by a text. -/
def float? (s : String) : Option Float :=
  let (negative, body) := splitSign s.toList
  let name := String.ofList (body.map Char.toLower)
  let magnitude :=
    if name = "inf" ∨ name = "infinity" then some (1.0 / 0.0)
    else if name = "nan" then some (0.0 / 0.0)
    else magnitude? body
  magnitude.map fun x => if negative then -x else x

/-- A whole number from digits that fill the text. -/
def digits? (cs : List Char) : Option Nat :=
  match spanDigits cs with
  | ([], _) => none
  | (ds, []) => some (ofDigits ds)
  | (_, _ :: _) => none

/-- A whole number below `bound`: an optional plus sign, then digits. -/
def nat? (bound : Nat) (cs : List Char) : Option Nat :=
  let body := match cs with
    | '+' :: rest => rest
    | rest => rest
  (digits? body).filter (· < bound)

end Formulary.Reader
