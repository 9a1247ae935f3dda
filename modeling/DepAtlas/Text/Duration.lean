/-! # Durations in text -/

namespace DepAtlas.Text

/-- A number of thousandths after a point, without zeros at its end; nothing for zero. -/
def thousandths (n : Nat) : String :=
  if n = 0 then ""
  else
    let digits := [n / 100 % 10, n / 10 % 10, n % 10].map Nat.digitChar
    "." ++ String.ofList (digits.reverse.dropWhile (· = '0')).reverse

/-- A number of milliseconds in the largest unit of which there is at least one. -/
def duration (milliseconds : Nat) : String :=
  if milliseconds = 0 then "0ns"
  else if milliseconds < 1000 then toString milliseconds ++ "ms"
  else toString (milliseconds / 1000) ++ thousandths (milliseconds % 1000) ++ "s"

end DepAtlas.Text
