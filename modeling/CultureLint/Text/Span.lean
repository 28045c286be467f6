/-! Half-open byte spans of a text. Every place that the tool talks about, from a token to a
diagnostic, is a span of the UTF-8 text it was read from. -/

namespace CultureLint

/-- The bytes from `start` up to, and not including, `stop`. -/
structure Span where
  start : Nat
  stop : Nat
  start_le_stop : start ≤ stop
deriving DecidableEq, Repr

namespace Span

/-- The span with the given ends, if they are in order. -/
def ofBounds? (start stop : Nat) : Option Span :=
  if h : start ≤ stop then some ⟨start, stop, h⟩ else none

/-- The span of `length` bytes from `start` on. -/
def ofLength (start length : Nat) : Span := ⟨start, start + length, Nat.le_add_right ..⟩

/-- The empty span at an offset. -/
def empty (offset : Nat) : Span := ⟨offset, offset, Nat.le_refl _⟩

/-- From `start` to `stop`, and empty where `stop` comes first. -/
def upTo (start stop : Nat) : Span := ⟨start, max start stop, Nat.le_max_left ..⟩

/-- The smallest span that holds both. -/
def cover (a b : Span) : Span :=
  ⟨min a.start b.start, max a.stop b.stop, by
    have := a.start_le_stop; have := b.start_le_stop; omega⟩

def length (s : Span) : Nat := s.stop - s.start

def isEmpty (s : Span) : Bool := s.start == s.stop

/-- Whether all of `b` lies inside `a`. -/
def contains (a b : Span) : Bool := a.start ≤ b.start && b.stop ≤ a.stop

/-- Spans are ordered by their starts, and by their ends where they start together. -/
def order (a b : Span) : Ordering := (compare a.start b.start).then (compare a.stop b.stop)

/-- The ends with two dots between them. -/
def render (s : Span) : String := toString s.start ++ ".." ++ toString s.stop

@[simp] theorem start_ofLength (start length : Nat) : (ofLength start length).start = start := rfl

@[simp] theorem stop_ofLength (start length : Nat) :
    (ofLength start length).stop = start + length := rfl

@[simp] theorem start_cover (a b : Span) : (a.cover b).start = min a.start b.start := rfl

@[simp] theorem stop_cover (a b : Span) : (a.cover b).stop = max a.stop b.stop := rfl

theorem contains_iff {a b : Span} : a.contains b ↔ a.start ≤ b.start ∧ b.stop ≤ a.stop := by
  simp [contains]

theorem contains_cover_left (a b : Span) : (a.cover b).contains a :=
  contains_iff.2 ⟨Nat.min_le_left .., Nat.le_max_left ..⟩

theorem contains_cover_right (a b : Span) : (a.cover b).contains b :=
  contains_iff.2 ⟨Nat.min_le_right .., Nat.le_max_right ..⟩

end Span

end CultureLint
