/-!
# The shortest decimal of a floating-point number

A finite binary number is written with the fewest decimal digits that read back to it; of two such
decimals the nearer one, and of two equally near ones the even one. Everything is decided in exact
arithmetic on the number's bits.
-/

namespace JvmRelocation.Text

/-- Two to the power `n`. -/
def twoTo (n : Nat) : Nat := Nat.pow 2 n

/-- Ten to the power `n`. -/
def tenTo (n : Nat) : Nat := Nat.pow 10 n

/-- A positive binary number `mantissa * 2 ^ exponent`. -/
structure Binary where
  mantissa : Nat
  exponent : Int
  /-- Whether the number below is only half as far away as the number above. -/
  narrowBelow : Bool

/-- A decimal `digits * 10 ^ exponent`. -/
structure Decimal where
  digits : Nat
  exponent : Int
deriving DecidableEq, Repr

/-- The finite number with the given bits, its sign left out. -/
def Binary.ofBits (bits : UInt64) : Binary :=
  let e : Nat := bits.toNat / twoTo 52 % twoTo 11
  let f : Nat := bits.toNat % twoTo 52
  if e = 0 then ⟨f, -1074, false⟩ else ⟨twoTo 52 + f, (e : Int) - 1075, f = 0 && 1 < e⟩

/-- Compares `a * 10 ^ i` with `b * 2 ^ j`. -/
def compareScaled (a : Nat) (i : Int) (b : Nat) (j : Int) : Ordering :=
  compare (a * tenTo i.toNat * twoTo (-j).toNat) (b * twoTo j.toNat * tenTo (-i).toNat)

/-- Whether a decimal lies among the reals that are rounded to `x`. The ends of that interval belong
to it when the mantissa is even. -/
def Binary.readsBack (x : Binary) (d : Decimal) : Bool :=
  let low := if x.narrowBelow then 4 * x.mantissa - 1 else 4 * x.mantissa - 2
  let high := 4 * x.mantissa + 2
  let closed := x.mantissa % 2 = 0
  let below := compareScaled d.digits d.exponent low (x.exponent - 2)
  let above := compareScaled d.digits d.exponent high (x.exponent - 2)
  (below = .gt || (closed && below = .eq)) && (above = .lt || (closed && above = .eq))

/-- The greatest natural `n` with `n * 10 ^ i` at most `x`. -/
def Binary.floorAt (x : Binary) (i : Int) : Nat :=
  x.mantissa * twoTo x.exponent.toNat * tenTo (-i).toNat /
    (twoTo (-x.exponent).toNat * tenTo i.toNat)

/-- The decimal on the grid of `10 ^ i` that reads back to `x`, if there is one. -/
def Binary.onGrid? (x : Binary) (i : Int) : Option Decimal :=
  let n := x.floorAt i
  match x.readsBack ⟨n, i⟩, x.readsBack ⟨n + 1, i⟩ with
  | true, false => some ⟨n, i⟩
  | false, true => some ⟨n + 1, i⟩
  | false, false => none
  | true, true =>
    match compareScaled (2 * n + 1) i (2 * x.mantissa) x.exponent with
    | .lt => some ⟨n + 1, i⟩
    | .gt => some ⟨n, i⟩
    | .eq => some (if n % 2 = 0 then ⟨n, i⟩ else ⟨n + 1, i⟩)

/-- The exponent of the first digit of `x`, plus one: the least `k` with `x < 10 ^ k`, searched
downwards from above. -/
def Binary.scaleFrom (x : Binary) : Nat → Int → Int
  | 0, k => k
  | fuel + 1, k =>
    if compareScaled 1 (k - 1) x.mantissa x.exponent = .gt then x.scaleFrom fuel (k - 1) else k

/-- Tries grids from the coarsest that can matter to finer ones. -/
def Binary.search (x : Binary) (scale : Int) : Nat → Int → Decimal
  | 0, _ => ⟨x.floorAt (scale - 17), scale - 17⟩
  | fuel + 1, i =>
    match x.onGrid? i with
    | some d => d
    | none => x.search scale fuel (i - 1)

/-- The decimal without zeros at its end. -/
def Decimal.stripFrom : Nat → Decimal → Decimal
  | 0, d => d
  | fuel + 1, d =>
    if d.digits ≠ 0 ∧ d.digits % 10 = 0 then stripFrom fuel ⟨d.digits / 10, d.exponent + 1⟩ else d

/-- The shortest decimal of a positive number. -/
def Binary.shortest (x : Binary) : Decimal :=
  let scale := x.scaleFrom 700 310
  (x.search scale 18 (scale - 1)).stripFrom 20

/-- A decimal as text: positional if the point falls within the first sixteen digits or at most five
places in front of them, and with an exponent otherwise. The exponent has its sign and no zeros in
front. -/
def Decimal.toText (d : Decimal) : String :=
  let digits := Nat.toDigits 10 d.digits
  let length := digits.length
  let point : Int := d.exponent + length
  let text :=
    if 0 ≤ d.exponent ∧ point ≤ 16 then
      digits ++ List.replicate d.exponent.toNat '0' ++ ['.', '0']
    else if 0 < point ∧ point ≤ 16 then
      digits.take point.toNat ++ '.' :: digits.drop point.toNat
    else if -5 < point ∧ point ≤ 0 then
      '0' :: '.' :: (List.replicate (-point).toNat '0' ++ digits)
    else
      let power := (if 0 < point then ['+'] else []) ++ (toString (point - 1)).toList
      if length = 1 then digits ++ 'e' :: power
      else digits.take 1 ++ '.' :: (digits.drop 1 ++ 'e' :: power)
  String.ofList text

/-- A finite number as text. -/
def ofFloat (x : Float) : String :=
  let bits := x.toBits
  let sign := if bits.toNat / twoTo 63 = 1 then "-" else ""
  if bits.toNat % twoTo 63 = 0 then sign ++ "0.0"
  else sign ++ (Binary.ofBits bits).shortest.toText

end JvmRelocation.Text
