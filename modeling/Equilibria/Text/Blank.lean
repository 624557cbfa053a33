/-!
# Blank characters, lines and words

Input is cut at blanks in the sense of the Unicode property White_Space, and into lines at line
feeds.  The functions work on lists of characters; none of them changes a character it keeps.

Main definitions:

* `isBlank` — the property White_Space;
* `trim` — a text without the blanks at its two ends;
* `words` — the maximal runs of characters that are not blank;
* `lines` — the pieces between line feeds, each without one carriage return before the line feed.
-/

namespace Equilibria

/-- The property White_Space: the five controls from tabulator to carriage return, the space, the
next line, the no-break space, and the separators of the general punctuation and of Ogham and
ideographic text. -/
def isBlank (c : Char) : Bool :=
  let n := c.toNat
  (9 ≤ n && n ≤ 13) || n == 0x20 || n == 0x85 || n == 0xA0 || n == 0x1680 ||
    (0x2000 ≤ n && n ≤ 0x200A) || n == 0x2028 || n == 0x2029 || n == 0x202F ||
    n == 0x205F || n == 0x3000

/-- The text without the blanks at its beginning. -/
def trimLeft (cs : List Char) : List Char := cs.dropWhile isBlank

/-- The text without the blanks at its end. -/
def trimRight (cs : List Char) : List Char := (cs.reverse.dropWhile isBlank).reverse

/-- The text without the blanks at its two ends. -/
def trim (cs : List Char) : List Char := trimRight (trimLeft cs)

/-- Nothing is left of blanks. -/
theorem trimLeft_of_blank {cs : List Char} (h : ∀ c ∈ cs, isBlank c = true) :
    trimLeft cs = [] := by
  induction cs with
  | nil => rfl
  | cons c cs ih =>
    have hc : isBlank c = true := h c List.mem_cons_self
    have hcs : trimLeft cs = [] := ih fun d hd => h d (List.mem_cons_of_mem c hd)
    simpa [trimLeft, hc] using hcs

/-- Puts a character in front of the first piece. -/
def consHead (c : Char) : List (List Char) → List (List Char)
  | [] => [[c]]
  | w :: ws => (c :: w) :: ws

/-- The pieces between the characters that satisfy `p`, empty ones included. -/
def pieces (p : Char → Bool) : List Char → List (List Char)
  | [] => [[]]
  | c :: cs => if p c then [] :: pieces p cs else consHead c (pieces p cs)

/-- The maximal runs of characters that are not blank. -/
def words (cs : List Char) : List (List Char) := (pieces isBlank cs).filter (!·.isEmpty)

/-- The text without one carriage return at its end. -/
def dropReturn (cs : List Char) : List Char :=
  if cs.getLast? = some '\r' then cs.dropLast else cs

/-- The lines of a text.  A line feed ends a line and a carriage return before it belongs to the
line end; after the last line feed there is one more line only if something stands there. -/
def lines (cs : List Char) : List (List Char) :=
  let ps := pieces (· == '\n') cs
  let last := ps.getLastD []
  ps.dropLast.map dropReturn ++ (if last.isEmpty then [] else [last])

/-- Everything before the first `sep` and everything after it, if it occurs. -/
def splitOnce (sep : Char) : List Char → Option (List Char × List Char)
  | [] => none
  | c :: cs =>
    if c = sep then some ([], cs)
    else (splitOnce sep cs).map fun parts => (c :: parts.1, parts.2)

end Equilibria
