import PathGlob.Rune.Hidden

/-!
# Quoted text

Messages quote a single rune between single quotation marks, and the shown form of a glob quotes its
text between double ones. Both follow one rule that has the delimiter as a parameter: the delimiter
and the backslash are put behind a backslash, the null rune, the tab, the line feed and the carriage
return have a letter of their own, every other hidden rune is spelled out as a hexadecimal number,
and all other runes stand for themselves. So the mark that is not the delimiter is left alone.
-/

namespace PathGlob

/-- The lower-case hexadecimal digits of a rune's number, without leading zeros. -/
def runeHex (r : Char) : List Char := Nat.toDigits 16 r.toNat

/-- A rune as it is written between two delimiters. -/
def quotedRune (delimiter r : Char) : List Char :=
  if r = delimiter || r = '\\' then ['\\', r]
  else if r = '\x00' then ['\\', '0']
  else if r = '\t' then ['\\', 't']
  else if r = '\n' then ['\\', 'n']
  else if r = '\r' then ['\\', 'r']
  else if isHidden r then '\\' :: 'u' :: '\x7b' :: (runeHex r ++ ['\x7d'])
  else [r]

/-- A text between two delimiters. -/
def quoted (delimiter : Char) (runes : List Char) : List Char :=
  delimiter :: (runes.flatMap (quotedRune delimiter) ++ [delimiter])

theorem quotedRune_eq_self {delimiter r : Char} (hlo : 0x20 ≤ r.toNat) (hhi : r.toNat ≤ 0x7e)
    (hdelimiter : r ≠ delimiter) (hbackslash : r ≠ '\\') : quotedRune delimiter r = [r] := by
  have hne : ∀ c : Char, c.toNat < 0x20 → r ≠ c := fun c hc h ↦ by rw [h] at hlo; omega
  simp [quotedRune, hdelimiter, hbackslash, isHidden_eq_false hlo hhi,
    hne '\x00' (by decide), hne '\t' (by decide), hne '\n' (by decide), hne '\r' (by decide)]

end PathGlob
