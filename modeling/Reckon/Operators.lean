/-! # The table of binary operators

A character is a binary operator if the table gives it a precedence; higher precedence binds
tighter. The table can be changed between two forms, and it holds for any character, a bracket or
a comma included. Its entries are kept in the order of their characters.
-/

namespace Reckon

/-- Operators with their precedences, in the order of the operators. -/
abbrev Operators := List (Char × Int32)

namespace Operators

/-- The operators of the language: comparison binds loosest, then sums, then products. -/
def standard : Operators :=
  [('*', 40), ('+', 20), ('-', 20), ('/', 40), ('<', 10), ('>', 10)]

def precedence? (table : Operators) (op : Char) : Option Int32 := table.lookup op

/-- Makes a character an operator of this precedence. -/
def insert (table : Operators) (op : Char) (precedence : Int32) : Operators :=
  table.filter (·.1 < op) ++ (op, precedence) :: table.filter (op < ·.1)

def erase (table : Operators) (op : Char) : Operators := table.filter (·.1 != op)

end Operators

end Reckon
