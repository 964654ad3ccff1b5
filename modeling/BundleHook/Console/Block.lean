import BundleHook.Console.Wrapping

/-!
# Blocks of output

What a command shows: lines, panels and tables. A table has a title above it, which is no wider than
the table.
-/

namespace BundleHook

/-- A block of output. -/
inductive Block where
  | lines (t : Text)
  | panel (rows : List Text)
  | table (title : Text) (headings : List Text) (rows : List (List Text))

/-- A line of output, or the cells of a row. -/
inductive OutputRow where
  | line (t : Text)
  | cells (cells : List Text)
  deriving DecidableEq, Repr

namespace Block

def consoleWidth : Nat := 1000

/-- The lines of the cells of a row: a cell with fewer lines than another one is filled up. -/
def cellRows (cells : List Text) : List (List Text) :=
  let split := cells.map (Text.splitOn '\n')
  let height := (split.map List.length).foldl max 1
  (List.range height).map fun index => split.map fun lines => Text.trim (lines[index]?.getD [])

def cellWidth (cell : Text) : Nat := ((Text.splitOn '\n' cell).map Text.columns).foldl max 0

def columnWidths (headings : List Text) (rows : List (List Text)) : List Nat :=
  rows.foldl (fun widths row => List.zipWith max widths (row.map cellWidth))
    (headings.map cellWidth)

/-- The width of a table: each column has a blank on both sides and a border before it, and one more
border closes the table. -/
def tableWidth (headings : List Text) (rows : List (List Text)) : Nat :=
  (columnWidths headings rows).foldl (fun total width => total + width + 3) 1

def rows : Block → List OutputRow
  | lines t => (Wrapping.lines consoleWidth t).map .line
  | panel texts => texts.map fun t => .cells [Text.trim t]
  | table title headings body =>
    (Wrapping.lines (tableWidth headings body) title).map .line ++
      ((headings :: body).flatMap cellRows).map .cells

/-! ## Drawing -/

def filled (width : Nat) (cell : Text) : Text :=
  ' ' :: cell ++ List.replicate (width - Text.columns cell + 1) ' '

def rule (left middle right line : Char) (widths : List Nat) : Text :=
  left :: Text.join [middle] (widths.map fun width => List.replicate (width + 2) line) ++ [right]

def drawnRow (border : Char) (widths : List Nat) (cells : List Text) : Text :=
  border :: Text.join [border] (List.zipWith filled widths cells) ++ [border]

def drawn : Block → List Text
  | lines t => Text.splitOn '\n' t
  | panel texts =>
    let width := (texts.map Text.columns).foldl max 0
    [rule '╭' '┬' '╮' '─' [width]] ++ texts.map (fun t => drawnRow '│' [width] [t]) ++
      [rule '╰' '┴' '╯' '─' [width]]
  | table title headings body =>
    let widths := columnWidths headings body
    Wrapping.lines (tableWidth headings body) title ++ [rule '┏' '┳' '┓' '━' widths] ++
      (cellRows headings).map (drawnRow '┃' widths) ++ [rule '┡' '╇' '┩' '━' widths] ++
      (body.flatMap cellRows).map (drawnRow '│' widths) ++ [rule '└' '┴' '┘' '─' widths]

end Block

end BundleHook
