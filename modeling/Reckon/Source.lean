/-! # Sources

A source is what a session reads: some bytes, and possibly a failure in place of their end. It is
read by lines, each up to and with its line feed. When reading fails inside a line, the bytes of
that line are lost; what was read before stays.
-/

namespace Reckon

/-- A channel's breaking point: it passes so many bytes and then fails for this reason. -/
structure Cutoff where
  bytes : Nat
  reason : String
  deriving DecidableEq, Repr

/-- How a source ends. -/
inductive Ending where
  /-- All of it was read. -/
  | finished
  /-- Reading failed, and fails again whenever it is tried. -/
  | failed (reason : String)
  deriving DecidableEq, Repr, Inhabited

/-- Bytes to read, up to their end or up to a failure. -/
structure Source where
  bytes : List UInt8
  failure : Option Cutoff := none
  deriving Repr

def lineFeed : UInt8 := 10

/-- Splits bytes after every line feed. -/
def splitLines : List UInt8 → List (List UInt8)
  | [] => []
  | byte :: rest =>
    if byte = lineFeed then [byte] :: splitLines rest
    else
      match splitLines rest with
      | [] => [[byte]]
      | line :: lines => (byte :: line) :: lines

/-- Cuts the first line off, with its line feed if it has one. -/
def cutLine (bytes : List UInt8) : List UInt8 × List UInt8 :=
  match bytes.dropWhile (· != lineFeed) with
  | [] => (bytes, [])
  | feed :: rest => (bytes.takeWhile (· != lineFeed) ++ [feed], rest)

theorem cutLine_append (bytes : List UInt8) : (cutLine bytes).1 ++ (cutLine bytes).2 = bytes := by
  have whole : bytes.takeWhile (· != lineFeed) ++ bytes.dropWhile (· != lineFeed) = bytes :=
    List.takeWhile_append_dropWhile
  unfold cutLine
  split
  · exact List.append_nil bytes
  · next feed rest found =>
    rw [found] at whole
    simpa using whole

namespace Source

def ofString (text : String) : Source := ⟨text.toUTF8.toList, none⟩

/-- Reads one line; it is empty if the end was reached before. When reading fails inside a line,
    what was read of it is lost, and the next try fails at once. -/
def readLine (source : Source) : Except String (List UInt8) × Source :=
  match source.failure with
  | none =>
    let (line, rest) := cutLine source.bytes
    (.ok line, ⟨rest, none⟩)
  | some cutoff =>
    let (line, rest) := cutLine (source.bytes.take cutoff.bytes)
    let left : Source :=
      ⟨rest ++ source.bytes.drop cutoff.bytes, some { cutoff with bytes := rest.length }⟩
    if line.getLast? = some lineFeed then (.ok line, left) else (.error cutoff.reason, left)

theorem readLine_append {source rest : Source} {line : List UInt8}
    (read : source.readLine = (.ok line, rest)) : line ++ rest.bytes = source.bytes := by
  unfold readLine at read
  split at read
  · cases read
    exact cutLine_append source.bytes
  · next cutoff _ =>
    dsimp only at read
    split at read
    · cases read
      rw [← List.append_assoc, cutLine_append, List.take_append_drop]
    · cases read

theorem length_of_readLine {source rest : Source} {byte : UInt8} {line : List UInt8}
    (read : source.readLine = (.ok (byte :: line), rest)) :
    rest.bytes.length < source.bytes.length := by
  rw [← readLine_append read, List.length_append, List.length_cons]
  omega

/-- The lines that are read. A last line without a line feed counts only where the source ends. -/
def lines (source : Source) : List (List UInt8) :=
  match source.failure with
  | none => splitLines source.bytes
  | some cutoff =>
    (splitLines (source.bytes.take cutoff.bytes)).filter (·.getLast? == some lineFeed)

/-- What comes after the lines. -/
def ending (source : Source) : Ending :=
  match source.failure with
  | none => .finished
  | some cutoff => .failed cutoff.reason

end Source

end Reckon
