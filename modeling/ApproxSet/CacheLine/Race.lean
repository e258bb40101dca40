import ApproxSet.Checked
import ApproxSet.Numbers.Binary

/-!
# Finding the start of a cache line by racing

Of two bytes eight apart, one is written and one is read as fast as possible. The reads get slow
when both lie in one cache line. Of the sixty-four places of such a pair exactly eight straddle the
border of a line, so the counts of reads have a cyclic run of eight maxima, and the line starts
right behind it.

How many reads a race takes is up to the machine. It enters as a function, and all that follows from
the counts is decided here.
-/

namespace ApproxSet.CacheLine

open Outcome

/-- The bytes of a cache line. -/
def lineSize : Nat := 64

/-- The distance between the byte that is written and the byte that is read. -/
def pairDistance : Nat := 8

/-- How the races are run and judged. -/
structure RaceSettings where
  /-- The microseconds that a race takes. -/
  window : Nat := 200
  /-- The races for each place whose counts are added up between two verdicts. -/
  trials : Nat := 3
  /-- The number of verdicts. -/
  rounds : Nat := 4
  /-- The least ratio of the eighth count to the ninth. -/
  separation : Float := 1.15
deriving DecidableEq

/-! ### The verdict -/

/-- For each of the sixty-four places of a pair, the number of reads. -/
abbrev Scores := Vector UInt64 64

/-- Puts a place in front of the first ranked one whose score is not higher. -/
def rank (scores : Scores) (place : Fin 64) : List (Fin 64) → List (Fin 64)
  | [] => [place]
  | first :: rest =>
    if scores[first] ≤ scores[place] then place :: first :: rest
    else first :: rank scores place rest

/-- The places by falling score, and by rising index among equal scores. -/
def ranking (scores : Scores) : List (Fin 64) :=
  (List.finRange 64).foldr (rank scores) []

/-- The score of the place with the given rank. -/
def scoreAt (scores : Scores) (index : Nat) : UInt64 :=
  match (ranking scores)[index]? with
  | some place => scores[place]
  | none => 0

/-- The place that starts the run of the given places, if they form one cyclic run. -/
def runStart (places : List (Fin 64)) : Option (Fin 64) :=
  match (List.finRange 64).filter fun place => places.contains place && !places.contains (place - 1)
  with
  | [start] => some start
  | _ => none

/-- The start of the line that the scores point at. The eighth score has to be at least the ninth
times the separation, and the first eight places have to follow each other cyclically. -/
def lineStart (scores : Scores) (separation : Float) : Option Nat :=
  let fast := (scoreAt scores (pairDistance - 1)).toFloat
  let slow := (scoreAt scores pairDistance).toFloat
  if fast < slow * separation then none
  else (runStart ((ranking scores).take pairDistance)).map fun start =>
    (start.val + pairDistance) % lineSize

/-! ### The races -/

/-- The reads of a race, by round, trial and place. -/
abbrev Reads := (round trial place : Nat) → UInt64

/-- The reads that a race with the given window counts. There is no time for any in an empty one. -/
def counted (window : Nat) (reads : UInt64) : UInt64 :=
  if window = 0 then 0 else reads

/-- Adds the reads of the races at the given places to the scores. -/
def addTrial (window : Nat) (reads : Nat → UInt64) :
    (places : List (Fin 64)) → Scores → Outcome Scores
  | [], scores => return scores
  | place :: places, scores => do
    let sum ← Checked.add 64 scores[place].toNat (counted window (reads place)).toNat
    addTrial window reads places (scores.set place (UInt64.ofNat sum))

/-- Adds the reads of the last `left` trials of a round to the scores. -/
def addTrials (settings : RaceSettings) (reads : (trial place : Nat) → UInt64) :
    (left : Nat) → Scores → Outcome Scores
  | 0, scores => return scores
  | left + 1, scores => do
    let trial := settings.trials - (left + 1)
    let scores ← addTrial settings.window (reads trial) (List.finRange 64) scores
    addTrials settings reads left scores

/-- Runs the last `left` rounds until the scores point at a line. -/
def runRounds (settings : RaceSettings) (reads : Reads) :
    (left : Nat) → Scores → Outcome (Option Nat)
  | 0, _ => return none
  | left + 1, scores => do
    let round := settings.rounds - (left + 1)
    let scores ← addTrials settings (reads round) settings.trials scores
    match lineStart scores settings.separation with
    | some start => return some start
    | none => runRounds settings reads left scores

/-- The offset at which a line starts in a buffer of the given number of bytes, if the races show
one. The buffer has to hold all sixty-four pairs. -/
def findLine (settings : RaceSettings) (reads : Reads) (bufferLength : Nat) :
    Outcome (Option Nat) := do
  require (lineSize + pairDistance ≤ bufferLength) .probeBuffer
  runRounds settings reads settings.rounds (Vector.replicate 64 0)

end ApproxSet.CacheLine
