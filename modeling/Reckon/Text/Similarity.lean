/-! # Similar words

How alike two words are, between zero and one, after Jaro and Winkler: the characters that occur in
both at places not too far apart are counted, those that are out of order count less, and a common
beginning counts more. It finds the word that was meant by one that is not known.
-/

namespace Reckon.Similarity

/-- The characters of the second word that are matched, by their places, the latest first, and how
    many of them were matched before a place that was matched earlier. -/
structure Matching where
  places : List Nat := []
  transpositions : Nat := 0

/-- Matches a character with the first place in reach that holds it and is not matched yet. -/
def Matching.take (m : Matching) (other : List Char) (reach place : Nat) (c : Char) : Matching :=
  let isFree (j : Nat) : Bool :=
    place - reach ≤ j && j ≤ place + reach && other[j]? == some c && !m.places.contains j
  match (List.range other.length).find? isFree with
  | none => m
  | some j =>
    ⟨j :: m.places, m.transpositions + if m.places.head?.any (j < ·) then 1 else 0⟩

/-- The matching of two words. -/
def matching (word other : List Char) : Matching :=
  let reach := max word.length other.length / 2 - 1
  word.zipIdx.foldl (fun m (c, place) => m.take other reach place c) {}

/-- The mean share of matched characters in the first word, in the second word, and of those in
    order among the matched ones. -/
def jaro (word other : List Char) : Float :=
  if word.isEmpty && other.isEmpty then 1
  else if word.length = 1 && other.length = 1 then if word = other then 1 else 0
  else
    let m := matching word other
    let count := Float.ofNat m.places.length
    if m.places.isEmpty then 0
    else
      (1 / 3) * (count / Float.ofNat word.length + count / Float.ofNat other.length +
        (count - Float.ofNat m.transpositions) / count)

/-- The likeness of two words. Each character of the common beginning takes a tenth of what is
    missing. -/
def likeness (word other : List Char) : Float :=
  let base := jaro word other
  let beginning := ((word.zip other).takeWhile fun (a, b) => a == b).length
  let raised := base + 0.1 * Float.ofNat beginning * (1 - base)
  if raised ≤ 1 then raised else 1

/-- A candidate is meant only if it is more alike than this. -/
def threshold : Float := 0.8

/-- The candidate most like a word, the first of equals, if it is alike enough. -/
def closest? (word : String) (text : α → String) (candidates : List α) : Option α :=
  (candidates.foldl (fun best candidate =>
    let score := likeness word.toList (text candidate).toList
    match best with
    | none => if threshold < score then some (score, candidate) else none
    | some (top, _) => if top < score then some (score, candidate) else best) none).map (·.2)

end Reckon.Similarity
