import HardwareMap.Text.Printable

/-!
# Quoted text

Text inside a description stands between double quotes.  A quote, a backslash and the usual
controls have short escapes; any other character without a visible shape is written as its
hexadecimal code point in braces.
-/

namespace HardwareMap.Text

/-- The lowercase hexadecimal digits of a number, without leading zeros. -/
def hexDigits (n : Nat) : String := String.ofList (Nat.toDigits 16 n)

def escape (c : Char) : String :=
  match c with
  | '\x00' => "\\0"
  | '\t' => "\\t"
  | '\r' => "\\r"
  | '\n' => "\\n"
  | '"' => "\\\""
  | '\\' => "\\\\"
  | _ => if isPrintable c then c.toString else "\\u\x7b" ++ hexDigits c.toNat ++ "\x7d"

def quoted (text : String) : String :=
  "\"" ++ String.join (text.toList.map escape) ++ "\""

end HardwareMap.Text
