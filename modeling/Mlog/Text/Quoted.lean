/-! # Quoted text

    How a text stands between double quotes: a double quote inside it is
    written `\"`, everything else as it is.  The same rule holds for string
    literals in a source text and for string operands in a listing.  Main
    statement: reading undoes writing. -/

namespace Mlog.Text

/-- Writes `\"` for every double quote. -/
def escape : List Char → List Char
  | [] => []
  | c :: cs => if c = '"' then '\\' :: '"' :: escape cs else c :: escape cs

/-- Reads `\"` as a double quote; any other backslash stands for itself. -/
def unescape : List Char → List Char
  | '\\' :: '"' :: cs => '"' :: unescape cs
  | c :: cs => c :: unescape cs
  | [] => []

/-- A text between double quotes. -/
def quoted (s : String) : String :=
  String.ofList ('"' :: escape s.toList ++ ['"'])

@[simp] theorem escape_nil : escape [] = [] := rfl

@[simp] theorem escape_quote (cs : List Char) :
    escape ('"' :: cs) = '\\' :: '"' :: escape cs := rfl

theorem escape_cons_of_ne {c : Char} (h : c ≠ '"') (cs : List Char) :
    escape (c :: cs) = c :: escape cs := by simp [escape, h]

/-- A written text never starts with a double quote. -/
theorem escape_ne_quote_cons (s t : List Char) : escape s ≠ '"' :: t := by
  cases s with
  | nil => simp
  | cons c cs => by_cases h : c = '"' <;> simp [escape, h]

/-- Reading undoes writing. -/
@[simp] theorem unescape_escape (s : List Char) : unescape (escape s) = s := by
  induction s with
  | nil => rfl
  | cons c cs ih =>
    by_cases h : c = '"'
    · simp [h, unescape, ih]
    · rw [escape_cons_of_ne h, unescape, ih]
      intro t _ ht
      exact escape_ne_quote_cons cs t ht

end Mlog.Text
