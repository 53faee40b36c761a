/-! # Places in a source text

    A span is a range of byte offsets into the UTF-8 form of a source text.
    A located value carries the span it came from.  Offsets are kept in 32 bits,
    so the places of a text with 2 ^ 32 bytes or more are cut to that size. -/

namespace Mlog

/-- A range of byte offsets: the first one covered, and the first one after. -/
structure Span where
  start : Nat
  stop : Nat
deriving DecidableEq, Repr, Inhabited

/-- The smallest span that covers both. -/
def Span.merge (a b : Span) : Span := ⟨min a.start b.start, max a.stop b.stop⟩

/-- The span as it is kept: the last 32 bits of each offset. -/
def Span.narrow (s : Span) : Span := ⟨s.start % UInt32.size, s.stop % UInt32.size⟩

theorem Span.narrow_eq_self {s : Span} (hstart : s.start < UInt32.size)
    (hstop : s.stop < UInt32.size) : s.narrow = s := by
  unfold Span.narrow
  rw [Nat.mod_eq_of_lt hstart, Nat.mod_eq_of_lt hstop]

/-- A value together with the place it came from. -/
structure Located (α : Type) where
  value : α
  span : Span
deriving DecidableEq, Repr

/-- The value with its span as it is kept. -/
def Located.narrow {α : Type} (x : Located α) : Located α := ⟨x.value, x.span.narrow⟩

@[simp] theorem Located.value_narrow {α : Type} (x : Located α) : x.narrow.value = x.value := rfl

@[simp] theorem Located.span_narrow {α : Type} (x : Located α) : x.narrow.span = x.span.narrow :=
  rfl

@[simp] theorem map_value_narrow {α : Type} (xs : List (Located α)) :
    (xs.map Located.narrow).map Located.value = xs.map Located.value := by
  rw [List.map_map]
  rfl

/-- A line comment: its text without the slashes, trimmed. -/
abbrev Comment := Located String

/-- How many bytes a text takes in UTF-8. -/
def byteLength (text : List Char) : Nat := text.foldr (fun c bytes => c.utf8Size + bytes) 0

@[simp] theorem byteLength_nil : byteLength [] = 0 := rfl

@[simp] theorem byteLength_cons (c : Char) (cs : List Char) :
    byteLength (c :: cs) = c.utf8Size + byteLength cs := rfl

@[simp] theorem byteLength_append (s t : List Char) :
    byteLength (s ++ t) = byteLength s + byteLength t := by
  induction s with
  | nil => simp
  | cons c s ih => rw [List.cons_append, byteLength_cons, byteLength_cons, ih, Nat.add_assoc]

end Mlog
