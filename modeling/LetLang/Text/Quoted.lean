import LetLang.Text.Printable

/-!
Quoted text for messages: double quotes around, short escapes for the usual control characters,
a hexadecimal escape for the other characters that cannot be shown.
-/

namespace LetLang.Text

/-- How one character is written between the quotes. -/
def escape (c : Char) : List Char :=
  match c with
  | '"' => ['\\', '"']
  | '\\' => ['\\', '\\']
  | '\n' => ['\\', 'n']
  | '\r' => ['\\', 'r']
  | '\t' => ['\\', 't']
  | '\x00' => ['\\', '0']
  | c => if isPrintable c then [c] else ['\\', 'u', '\x7b'] ++ Nat.toDigits 16 c.toNat ++ ['\x7d']

def quote (text : String) : String :=
  String.ofList ('"' :: text.toList.flatMap escape ++ ['"'])

example : quote "é\u00a0e\u0301" = "\"é\\u\x7ba0\x7de\\u\x7b301\x7d\"" := by decide +kernel

end LetLang.Text
