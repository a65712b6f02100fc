/-!
# Blank characters

The characters that Unicode counts as white space, and the words of a text between blanks or other
separators.
-/

namespace ClassPatch.Text

/-- The characters with the property White_Space, as ranges of code points. -/
def blanks : List (Nat × Nat) :=
  [(0x09, 0x0D), (0x20, 0x20), (0x85, 0x85), (0xA0, 0xA0), (0x1680, 0x1680), (0x2000, 0x200A),
   (0x2028, 0x2029), (0x202F, 0x202F), (0x205F, 0x205F), (0x3000, 0x3000)]

def isBlank (c : Char) : Bool :=
  blanks.any fun (first, last) => first ≤ c.toNat && c.toNat ≤ last

/-- Collects the maximal runs without separators, given the run so far in reverse and the finished
runs in reverse. -/
def wordsFrom (separates : Char → Bool) (current : List Char) (words : List (List Char)) :
    List Char → List (List Char)
  | [] => if current.isEmpty then words.reverse else (current.reverse :: words).reverse
  | c :: rest =>
    if separates c then
      wordsFrom separates [] (if current.isEmpty then words else current.reverse :: words) rest
    else
      wordsFrom separates (c :: current) words rest

/-- The maximal runs without separators. -/
def words (separates : Char → Bool) (text : List Char) : List (List Char) :=
  wordsFrom separates [] [] text

end ClassPatch.Text
