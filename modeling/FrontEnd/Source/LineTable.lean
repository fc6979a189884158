import FrontEnd.Source.Text
/-!
# FrontEnd — lines and columns

A `LineTable` holds the byte at which each line of a text starts. The
line of an offset is searched for among these starts: a line may start
at the offset itself, or some way before it. Its column counts the
characters, not the bytes, since then.
-/

namespace FrontEnd

/-- Where something stands in a text, both counted from one. -/
structure Position where
  line : Nat
  column : Nat
deriving DecidableEq

/-- The byte offsets at which the lines of a text start, in order. -/
structure LineTable where
  starts : List Nat

/-- What a search of a list in order comes back with: the index of the
value, or the index at which it could be put in. -/
inductive Search
  | hit (index : Nat)
  | miss (index : Nat)

/-- Look a value up in a list in order. -/
def search (values : List Nat) (value : Nat) : Search :=
  match values.idxOf? value with
  | some index => .hit index
  | none => .miss (values.findIdx (value < ·))

namespace LineTable

/-- The first line starts at 0 and every newline starts another after it. -/
def ofText (source : String) : LineTable :=
  ⟨0 :: (source.toUTF8.data.toList.zipIdx.filter (·.1 == newlineByte)).map (·.2 + 1)⟩

def lineCount (t : LineTable) : Nat := t.starts.length

/-- The line that holds the byte at `offset`: the one that starts there,
or else the last one that starts before. -/
def lineOf (t : LineTable) (offset : Nat) : Nat :=
  match search t.starts offset with
  | .hit index => index + 1
  | .miss index => index - 1 + 1

/-- Line and column of `offset` in `source`. An offset past the end
stands at the end, and one inside a character in column one. -/
def position (t : LineTable) (source : String) (offset : Nat) : Position :=
  let line := t.lineOf offset
  let lineStart := t.starts.getD (line - 1) 0
  let before := sliceBytes? source lineStart (min offset source.utf8ByteSize)
  ⟨line, before.elim 0 String.length + 1⟩

end LineTable

end FrontEnd
