import MachineVault.Text.Hex
import MachineVault.Text.Visible

/-! Text between double quotes, as it appears in messages: quotes, backslashes and the usual
controls are escaped by a letter, every other invisible character by its number. -/

namespace MachineVault.Text

def quoteChar (c : Char) : List Char :=
  match c with
  | '"' => ['\\', '"']
  | '\\' => ['\\', '\\']
  | '\n' => ['\\', 'n']
  | '\r' => ['\\', 'r']
  | '\t' => ['\\', 't']
  | '\x00' => ['\\', '0']
  | c => if isVisible c then [c] else '\\' :: 'u' :: '{' :: (hexNat c.toNat).toList ++ ['}']

def quote (s : String) : String := String.ofList ('"' :: s.toList.flatMap quoteChar ++ ['"'])

end MachineVault.Text
