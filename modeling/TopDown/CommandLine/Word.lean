namespace TopDown.CommandLine

inductive Setting where
  | help
  | member
  | chars
  | table
  | json
  | verbose
  deriving DecidableEq, Repr

def Setting.name : Setting → List Char
  | help => "--help".toList
  | member => "--grammar-member".toList
  | chars => "--chars".toList
  | table => "--table".toList
  | json => "--json".toList
  | verbose => "--verbose".toList

def Setting.all : List Setting := [help, member, chars, table, json, verbose]

/-- The decimal digits of Unicode 14 are these zeros, each with the nine digits after it. -/
def zeros : List Nat :=
  [0x30, 0x660, 0x6f0, 0x7c0, 0x966, 0x9e6, 0xa66, 0xae6, 0xb66, 0xbe6, 0xc66, 0xce6, 0xd66, 0xde6,
    0xe50, 0xed0, 0xf20, 0x1040, 0x1090, 0x17e0, 0x1810, 0x1946, 0x19d0, 0x1a80, 0x1a90, 0x1b50,
    0x1bb0, 0x1c40, 0x1c50, 0xa620, 0xa8d0, 0xa900, 0xa9d0, 0xa9f0, 0xaa50, 0xabf0, 0xff10, 0x104a0,
    0x10d30, 0x11066, 0x110f0, 0x11136, 0x111d0, 0x112f0, 0x11450, 0x114d0, 0x11650, 0x116c0,
    0x11730, 0x118e0, 0x11950, 0x11c50, 0x11d50, 0x11da0, 0x16a60, 0x16ac0, 0x16b50, 0x1d7ce,
    0x1d7d8, 0x1d7e2, 0x1d7ec, 0x1d7f6, 0x1e140, 0x1e2f0, 0x1e950, 0x1fbf0]

def isDecimal (c : Char) : Bool :=
  zeros.any fun first => first ≤ c.toNat && c.toNat < first + 10

/-- Digits, or digits with a point before the last of them. A line may end after them. -/
def isNumeral (cs : List Char) : Bool :=
  let digits := if cs.getLast? = some '\n' then cs.dropLast else cs
  match digits.dropWhile isDecimal with
  | [] => !digits.isEmpty
  | c :: fraction => c == '.' && !fraction.isEmpty && fraction.all isDecimal

inductive Word where
  | argument
  | option (setting : Setting) (value : Option String)
  /-- `-h`, with what is written after it. -/
  | help (more : List Char)
  | unknown
  | ambiguous
  deriving DecidableEq, Repr

def Setting.candidates (lead : List Char) : List Setting :=
  all.filter fun setting => lead.isPrefixOf setting.name

/-- What stands before the first equals sign may be cut short, and what stands after it is a value. -/
def Word.long (cs : List Char) : Word :=
  match Setting.candidates (cs.takeWhile (· ≠ '=')) with
  | [] => if ' ' ∈ cs then argument else unknown
  | [setting] =>
    match cs.dropWhile (· ≠ '=') with
    | [] => option setting none
    | _ :: value => option setting (some (String.ofList value))
  | _ => ambiguous

/-- Options begin with a dash. A dash alone, a negative number, and text with a blank that names no
option are arguments like any other. -/
def Word.of (s : String) : Word :=
  match s.toList with
  | '-' :: '-' :: rest => long ('-' :: '-' :: rest)
  | '-' :: 'h' :: more => help more
  | '-' :: rest => if rest = [] ∨ isNumeral rest = true ∨ ' ' ∈ rest then argument else unknown
  | _ => argument

end TopDown.CommandLine
