import ApproxSet.Cuckoo.Lanes
import ApproxSet.Cuckoo.Packed
import ApproxSet.Cuckoo.Random
import ApproxSet.Journal

/-!
# Building cuckoo filters

The fingerprint of a key goes into the home bucket of the key, or else into the partner of that. If
both are full, a random entry of one of them is evicted and moves to its own other bucket, where the
same may happen, until an empty entry is found or the evictions allowed are used up. A fingerprint
that one of the two buckets holds already is not stored again.

The random numbers come from a generator that is seeded if the settings say so. Otherwise it starts
in a state that is drawn from outside, so a construction takes this state as an argument.
-/

namespace ApproxSet.Cuckoo

open Outcome

/-- A table with the generator of its evictions. -/
structure State (τ : Type) where
  table : τ
  random : Random

variable {τ : Type} [Buckets τ]

/-- Finds an entry for a fingerprint whose bucket is full, by at most `kicks` evictions. Without a
success the answer is `none`. -/
def evict : (kicks : Nat) → State τ → (home : Home) → Outcome (Option (State τ))
  | 0, _, _ => return none
  | kicks + 1, state, home => do
    let (entry, random) ← state.random.below (Buckets.entriesPerBucket state.table)
    let (print, table) ← Buckets.swap state.table home.bucket entry home.print
    let bucket ← partner home.bucket print (Buckets.bucketCount table)
    match ← Buckets.insert? table bucket print with
    | some table => return some ⟨table, random⟩
    | none => evict kicks ⟨table, random⟩ ⟨print, bucket⟩

/-- Stores a fingerprint in one of its two buckets. -/
def place (kicks : Nat) (state : State τ) (home : Home) : Outcome (Option (State τ)) := do
  let table := state.table
  let other ← partner home.bucket home.print (Buckets.bucketCount table)
  if ← Buckets.holds table home.bucket home.print then return some state
  if ← Buckets.holds table other home.print then return some state
  if let some table ← Buckets.insert? table home.bucket home.print then
    return some { state with table := table }
  if let some table ← Buckets.insert? table other home.print then
    return some { state with table := table }
  let (stay, random) := state.random.coin
  evict kicks ⟨table, random⟩ ⟨home.print, if stay then home.bucket else other⟩

/-- Stores the fingerprints of keys, of which there are `total` in the whole construction. -/
def insertAll (width kicks total : Nat) : (keys : List UInt64) → State τ → Traced (State τ)
  | [], state => return state
  | key :: keys, state => do
    let buckets := Buckets.bucketCount state.table
    let home ← Home.of key width buckets
    match ← place kicks state home with
    | some state => insertAll width kicks total keys state
    | none =>
      Traced.report (.evictionGaveUp kicks total buckets)
      Traced.refuse (.evictionLimit kicks)

/-- What a construction can be told beside the keys. -/
structure Settings where
  /-- The fingerprint width of packed filters. -/
  width : Nat := 8
  /-- The entries per bucket of packed filters. -/
  entries : Nat := 4
  /-- The share of entries that is meant to be occupied. -/
  loadFactor : Float := 0.94
  /-- The evictions allowed for each key, if not the default of the kind of filter. -/
  kicks : Option Nat := none
  /-- The seed of the generator, if it is not left to entropy. -/
  seed : Option UInt64 := none
deriving DecidableEq

/-- The generator that a construction starts with: that of the seed, or else one in the state that
entropy has left it in. -/
def Settings.generator (s : Settings) (entropy : Random) : Random :=
  match s.seed with
  | some seed => Random.ofSeed seed
  | none => entropy

/-- Accepts fingerprint widths that leave the half of the hash alone which picks the bucket. -/
def demandWidth (width : Nat) : Outcome Unit :=
  demand (0 < width ∧ width ≤ 32) (.invalidArgument (.fingerprintWidth width))

/-- Accepts load factors above zero and up to one. -/
def demandLoadFactor (loadFactor : Float) : Outcome Unit :=
  demand (0 < loadFactor ∧ loadFactor ≤ 1) (.invalidArgument (.loadFactor loadFactor))

/-- Fills an empty table with keys. -/
def fill (s : Settings) (entropy : Random) (width defaultKicks : Nat) (keys : List UInt64)
    (table : τ) : Traced τ := do
  let state : State τ := ⟨table, s.generator entropy⟩
  return (← insertAll width (s.kicks.getD defaultKicks) keys.length keys state).table

/-- Builds a packed filter. -/
def buildPacked (s : Settings) (entropy : Random) (keys : List UInt64) : Traced Packed := do
  demandWidth s.width
  demand (0 < s.entries) (.invalidArgument .emptyBucket)
  demandLoadFactor s.loadFactor
  let buckets ← bucketsFor keys.length s.entries s.loadFactor
  fill s entropy s.width 10000 keys (← Packed.empty buckets s.entries s.width)

/-- Builds a filter with a bucket of four `width`-bit entries in a word. -/
def buildLanes (empty : (buckets : Nat) → Outcome τ) (width : Nat) (s : Settings)
    (entropy : Random) (keys : List UInt64) : Traced τ := do
  demandLoadFactor s.loadFactor
  let buckets ← bucketsFor keys.length laneCount s.loadFactor
  fill s entropy width 1000 keys (← empty buckets)

/-- Builds a filter with four 8-bit entries per bucket. -/
def buildBytes (s : Settings) (entropy : Random) (keys : List UInt64) : Traced ByteBuckets :=
  buildLanes ByteBuckets.empty 8 s entropy keys

/-- Builds a filter with four 16-bit entries per bucket. -/
def buildWords (s : Settings) (entropy : Random) (keys : List UInt64) : Traced WordBuckets :=
  buildLanes WordBuckets.empty 16 s entropy keys

/-- The packed filter of keys with four entries per bucket and the given fingerprint width. -/
def packedOf (entropy : Random) (keys : List UInt64) (width : Nat) : Traced Packed :=
  buildPacked { width := width } entropy keys

/-- The filter of keys with four 8-bit entries per bucket. -/
def bytesOf (entropy : Random) (keys : List UInt64) : Traced ByteBuckets :=
  buildBytes {} entropy keys

/-- The filter of keys with four 16-bit entries per bucket. -/
def wordsOf (entropy : Random) (keys : List UInt64) : Traced WordBuckets :=
  buildWords {} entropy keys

end ApproxSet.Cuckoo
