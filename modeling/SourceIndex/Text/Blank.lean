/-!
# White space

The characters of the Unicode property `White_Space`, and trimming by a class of characters.
`trim` is what every text is put through before it is embedded, and `isBlankText` is the test a
setting fails when nothing but white space was written into it.
-/

namespace SourceIndex.Text

/-- The Unicode property `White_Space`. It is wider than the ASCII blanks: the next-line character,
the no-break space and the typographic spaces belong to it, the zero-width space does not. -/
def isBlank (c : Char) : Bool :=
  let n := c.toNat
  (9 ≤ n && n ≤ 13) || n == 0x20 || n == 0x85 || n == 0xA0 || n == 0x1680 ||
    (0x2000 ≤ n && n ≤ 0x200A) || n == 0x2028 || n == 0x2029 || n == 0x202F || n == 0x205F ||
    n == 0x3000

/-- Drop the longest tail whose characters all satisfy `p`. -/
def dropTailWhile (p : Char → Bool) (s : List Char) : List Char :=
  (s.reverse.dropWhile p).reverse

/-- Drop the longest head and the longest tail whose characters all satisfy `p`. -/
def trimWhile (p : Char → Bool) (s : List Char) : List Char :=
  dropTailWhile p (s.dropWhile p)

/-- `s` without white space at either end. -/
def trim (s : String) : String :=
  String.ofList (trimWhile isBlank s.toList)

/-- Whether nothing but white space is written in `s`. -/
def isBlankText (s : String) : Bool :=
  s.toList.all isBlank

/-- `s` without the characters `c` at its end. -/
def trimEndChar (c : Char) (s : String) : String :=
  String.ofList (dropTailWhile (· == c) s.toList)

/-- Replace every `a` by `b`. -/
def replaceChar (a b : Char) (s : String) : String :=
  String.ofList (s.toList.map fun c => if c == a then b else c)

/-- Number of characters of `s`. -/
def charCount (s : String) : Nat :=
  s.toList.length

/-- Whether `needle` occurs in `hay` as a contiguous run of characters. -/
def occursIn (needle : List Char) : List Char → Bool
  | [] => needle.isEmpty
  | c :: hay => needle.isPrefixOf (c :: hay) || occursIn needle hay

/-- Code-point order on texts, which is also the order of their UTF-8 bytes. -/
def le (a b : String) : Bool :=
  !decide (b < a)

/-- `xs` in code-point order; equal texts keep their places. -/
def sort (xs : List String) : List String :=
  xs.mergeSort le

/-- `xs` in code-point order with repetitions removed. -/
def sortDistinct (xs : List String) : List String :=
  (sort xs).eraseDups

end SourceIndex.Text
