set_option autoImplicit false

/-! # Terminal control characters

Some control characters steer a terminal that shows them. Where foreign text goes to a terminal,
they are written as escapes: `\x` and two digits for the ASCII ones, and a number in braces for the
range U+0080 to U+009F. Other characters, a tab or a backslash among them, stand for themselves, so
the escaped text is for reading only and cannot be turned back.
-/

namespace HackStack.Text

/-- The ASCII characters that are escaped: bell, backspace, form feed, escape and delete. -/
def asciiControls : List Char := ['\x07', '\x08', '\x0c', '\x1b', '\x7f']

/-- Two lower-case hexadecimal digits of a number below 256. -/
def hexByte (n : Nat) : List Char := [Nat.digitChar (n / 16), Nat.digitChar (n % 16)]

def escapeControl (c : Char) : List Char :=
  if c ∈ asciiControls then '\\' :: 'x' :: hexByte c.toNat
  else if 0x80 ≤ c.toNat ∧ c.toNat ≤ 0x9f then '\\' :: 'u' :: '\x7b' :: hexByte c.toNat ++ ['\x7d']
  else [c]

/-- The text with its terminal control characters escaped. -/
def escapeControls (text : String) : String := String.ofList (text.toList.flatMap escapeControl)

example : escapeControls "a\tb\x1b[0m\u0085\x7f" = "a\tb\\x1b[0m\\u\x7b85\x7d\\x7f" := by decide

end HackStack.Text
